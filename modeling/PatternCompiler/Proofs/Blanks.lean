import PatternCompiler.Proofs.Taking

/-! Blanks between tokens are ignored.

Before a pattern is read, the survey goes over it and numbers its groups. It skips blanks by rules
of its own, but over tokens it counts the groups that they open, whatever is between them
(`Survey.comes_tokens`). So a pattern has the same groups with blanks and without, the reader finds
the same references among them, and gives the same tree (`Pattern.parse_spaced`). -/
namespace PatternCompiler

/-! ### Skipping a class -/

namespace Cursor

variable {c out : Cursor} {first dash : Bool} {rest : List Char}

theorem plain_of_hexDigit {d : Char} (h : (hexDigit? d).isSome = true) : Plain d :=
  plain_of_test (p := fun d => (hexDigit? d).isSome) (by decide) h

theorem skipsTo_code (code : HexCode) (hc : c.rest = code.text ++ rest)
    (h : SkipsTo 0 false false ⟨c.pos + code.text.length, rest⟩ out) : SkipsTo 0 first dash c out := by
  have hdigits : Passes Plain ⟨c.pos + 1 + 1, code.digits ++ rest⟩ ⟨c.pos + code.text.length, rest⟩ :=
    ⟨code.digits, fun d hd => plain_of_hexDigit (code.all d hd), rfl, by
      simp only [HexCode.text, List.length_cons]
      omega⟩
  exact .escape hc (.passes hdigits h)

theorem skipsTo_member (m : ClassMember) (hc : c.rest = m.text ++ rest)
    (h : SkipsTo 0 false false ⟨c.pos + m.text.length, rest⟩ out) : SkipsTo 0 first dash c out := by
  cases m with
  | single code => exact skipsTo_code code hc h
  | range lo hi =>
    rw [ClassMember.text, List.append_assoc] at hc
    rw [ClassMember.text, List.length_append, List.length_cons, ← Nat.add_assoc, Nat.add_comm _ 1,
      ← Nat.add_assoc] at h
    exact skipsTo_code lo hc (.minus rfl (skipsTo_code hi rfl h))

theorem skipsTo_members (first : Bool) (ms : List ClassMember)
    (hc : c.rest = ms.flatMap ClassMember.text ++ ']' :: rest) (hfirst : ms = [] → first = false) :
    ∃ pos, SkipsTo 0 first false c ⟨pos, rest⟩ := by
  induction ms generalizing c first with
  | nil =>
    rw [hfirst rfl]
    exact ⟨_, skipsTo_close hc⟩
  | cons m ms ih =>
    rw [List.flatMap_cons, List.append_assoc] at hc
    obtain ⟨pos, hskips⟩ := ih (c := ⟨c.pos + m.text.length, _⟩) false rfl fun _ => rfl
    exact ⟨pos, skipsTo_member m hc hskips⟩

/-- The survey goes past a bracketed class. -/
theorem skipBracket_token (negated : Bool) (first : ClassMember) (ms : List ClassMember)
    (hc : c.rest = (if negated then ['^'] else []) ++ ((first :: ms).flatMap ClassMember.text ++ ']' :: rest)) :
    ∃ pos, c.skipBracket = .ok ⟨pos, rest⟩ := by
  obtain ⟨_, hstart⟩ := skipChar_members negated first ms hc
  obtain ⟨pos, hskips⟩ := skipsTo_members true (first :: ms) hstart (by simp)
  exact ⟨pos, hskips _ (Nat.lt_succ_self _)⟩

end Cursor

/-! ### Tables -/

namespace GroupTable

variable {t : GroupTable}

theorem place_greater {n offset : Nat} {gs : List (Nat × Nat)} (h : ∀ g ∈ gs, g.1 ≤ n) :
    place n offset gs = gs ++ [(n, offset)] := by
  induction gs with
  | nil => rfl
  | cons g gs ih =>
    obtain ⟨hg, hgs⟩ := List.forall_mem_cons.mp h
    rw [place, if_neg (Nat.not_lt.mpr hg), ih hgs, List.cons_append]

/-- The next number is noted behind the others. -/
theorem noteNumber_range {n : Nat} (h : t.numbers = List.range n) (offset : Nat) :
    (t.noteNumber n offset).numbers = List.range (n + 1) ∧ (t.noteNumber n offset).names = t.names ∧
      (t.noteNumber n offset).pending = t.pending := by
  have hnew : ¬ t.contains n = true := by simp [contains_iff, h]
  have hbelow : ∀ g ∈ t.groups, g.1 ≤ n := by
    intro g hg
    have hmem : g.1 ∈ t.numbers := List.mem_map_of_mem hg
    rw [h, List.mem_range] at hmem
    exact Nat.le_of_lt hmem
  rw [noteNumber, if_neg hnew, place_greater hbelow]
  refine ⟨?_, rfl, rfl⟩
  rw [numbers, List.map_append, List.range_succ, ← h]
  rfl

end GroupTable

/-! ### Counting groups -/

/-- How many groups are numbered at a token. -/
def Token.groups : Token → Nat
  | opener o => o.count
  | _ => 0

namespace Survey

/-- The groups so far have the numbers below `n`, and none of them has a name. -/
structure Tallies (spaces : Bool) (n : Nat) (s : Survey) : Prop where
  options : s.options = .spaced spaces
  saved : ∀ o ∈ s.saved, o = .spaced spaces
  ignoreNext : s.ignoreNext = false
  autocap : s.autocap = n
  numbers : s.table.numbers = List.range n
  names : s.table.names = []
  pending : s.table.pending = []

theorem start_tallies (pattern : List Char) (spaces : Bool) : (start pattern (.spaced spaces)).Tallies spaces 1 where
  options := rfl
  saved := by simp [start]
  ignoreNext := rfl
  autocap := rfl
  numbers := rfl
  names := rfl
  pending := rfl

/-- From the one text the survey comes to the other, having numbered the groups up to `n'` instead of `n`. -/
def Comes (spaces : Bool) (n n' : Nat) (text rest : List Char) : Prop :=
  ∀ s : Survey, s.Tallies spaces n → s.cursor.rest = text →
    ∃ s', Goes s s' ∧ s'.Tallies spaces n' ∧ s'.cursor.rest = rest

variable {spaces : Bool} {n n' n'' : Nat} {text rest rest' : List Char} {ch : Char} {s : Survey}

theorem Comes.refl (spaces : Bool) (n : Nat) (text : List Char) : Comes spaces n n text text :=
  fun s hs hrest => ⟨s, .refl s, hs, hrest⟩

theorem Comes.trans (h : Comes spaces n n' text rest) (h' : Comes spaces n' n'' rest rest') :
    Comes spaces n n'' text rest' := by
  intro s hs hrest
  obtain ⟨s₁, hgoes, hs₁, hrest₁⟩ := h s hs hrest
  obtain ⟨s₂, hgoes', hs₂, hrest₂⟩ := h' s₁ hs₁ hrest₁
  exact ⟨s₂, hgoes.trans hgoes', hs₂, hrest₂⟩

/-- One construct. -/
theorem comes_of_construct (h : ∀ s : Survey, s.Tallies spaces n → s.cursor.rest = ch :: rest →
      ∃ s', s.construct ch ⟨s.cursor.pos + 1, rest⟩ = .ok s' ∧ s'.Tallies spaces n' ∧ s'.cursor.rest = rest') :
    Comes spaces n n' (ch :: rest) rest' := by
  intro s hs hrest
  obtain ⟨s', hstep, hs', hrest'⟩ := h s hs hrest
  exact ⟨s', .step hrest hstep (.refl s'), hs', hrest'⟩

theorem Tallies.move (h : s.Tallies spaces n) (c : Cursor) : { s with cursor := c }.Tallies spaces n := { h with }

theorem comes_inert (n : Nat) {text : List Char} (h : ∀ ch ∈ text, Inert spaces ch) (rest : List Char) :
    Comes spaces n n (text ++ rest) rest := by
  induction text with
  | nil => exact .refl spaces n rest
  | cons ch text ih =>
    obtain ⟨hch, htext⟩ := List.forall_mem_cons.mp h
    refine (comes_of_construct fun s hs _ => ?_).trans (ih htext)
    have hinert : Inert s.options.ignoreWhitespace ch := by rwa [hs.options]
    exact ⟨_, construct_inert hinert _, hs.move _, rfl⟩

theorem comes_plain (n : Nat) {text : List Char} (h : ∀ ch ∈ text, Plain ch) (rest : List Char) :
    Comes spaces n n (text ++ rest) rest :=
  comes_inert n (fun ch hch => inert_of_plainOrDash spaces (.inl (h ch hch))) rest

theorem comes_one (n : Nat) (h : Plain ch) (rest : List Char) : Comes spaces n n (ch :: rest) rest :=
  comes_plain n (List.forall_mem_singleton.mpr h) rest

theorem comes_escape (spaces : Bool) (n : Nat) (ch : Char) (rest : List Char) :
    Comes spaces n n ('\\' :: ch :: rest) rest :=
  comes_of_construct fun _ hs _ => ⟨_, rfl, hs.move _, rfl⟩

theorem comes_close (spaces : Bool) (n : Nat) (rest : List Char) : Comes spaces n n (')' :: rest) rest := by
  refine comes_of_construct fun s hs _ => ⟨{ s.restore with cursor := ⟨s.cursor.pos + 1, rest⟩ }, ?_, ?_, rfl⟩
  · unfold construct
    rw [if_neg (by decide), if_neg (by decide), if_neg (by decide), if_pos rfl]
  · obtain ⟨c, o, saved, autocap, ignoreNext, table⟩ := s
    cases saved with
    | nil => exact { hs with }
    | cons o' saved =>
      obtain ⟨ho', hsaved⟩ := List.forall_mem_cons.mp hs.saved
      exact { hs with options := ho', saved := hsaved }

theorem comes_bracket (spaces : Bool) (n : Nat) (negated : Bool) (first : ClassMember) (ms : List ClassMember)
    (rest : List Char) : Comes spaces n n ((Token.bracket negated first ms).text ++ rest) rest := by
  have htext : (Token.bracket negated first ms).text ++ rest = '[' :: ((if negated then ['^'] else []) ++
      ((first :: ms).flatMap ClassMember.text ++ ']' :: rest)) := by
    simp [Token.text]
  rw [htext]
  apply comes_of_construct
  intro s hs _
  obtain ⟨pos, hskip⟩ := Cursor.skipBracket_token (c := ⟨s.cursor.pos + 1, _⟩) negated first ms rfl
  refine ⟨_, ?_, hs.move ⟨pos, rest⟩, rfl⟩
  unfold construct
  rw [if_neg (by decide), if_neg (by decide), if_pos rfl, hskip]
  rfl

theorem Tallies.saved_cons (h : s.Tallies spaces n) : ∀ o ∈ s.options :: s.saved, o = .spaced spaces := by
  rw [List.forall_mem_cons]
  exact ⟨h.options, h.saved⟩

theorem comes_capture (n : Nat) (hrest : rest.head? ≠ some '?') : Comes spaces n (n + 1) ('(' :: rest) rest := by
  apply comes_of_construct
  intro s hs _
  have htake : rest.take 2 ≠ ['?', '#'] := by
    intro heq
    have hhead := congrArg List.head? heq
    rw [List.head?_take, if_neg (by decide)] at hhead
    exact hrest hhead
  obtain ⟨hnumbers, hnames, hpending⟩ := GroupTable.noteNumber_range hs.numbers s.cursor.pos
  have hopened : s.opened s.cursor.pos ⟨s.cursor.pos + 1, rest⟩ = .ok { s with
      cursor := ⟨s.cursor.pos + 1, rest⟩
      saved := s.options :: s.saved
      table := s.table.noteNumber s.autocap s.cursor.pos
      autocap := s.autocap + 1
      ignoreNext := false } := by
    unfold opened
    split
    · rename_i heq
      dsimp only at heq
      rw [heq] at hrest
      exact absurd rfl hrest
    · rw [hs.options, hs.ignoreNext]
      rfl
  rw [construct_paren htake, hopened, hs.autocap]
  exact ⟨_, rfl, { hs with
    saved := hs.saved_cons, ignoreNext := rfl, autocap := rfl, numbers := hnumbers
    names := hnames.trans hs.names, pending := hpending.trans hs.pending }, rfl⟩

theorem comes_mark (n : Nat) {mark : Char} (hmark : mark ∈ [':', '=', '!', '>']) (rest : List Char) :
    Comes spaces n n ('(' :: '?' :: mark :: rest) rest := by
  have hplain : Plain mark := by
    simp only [List.mem_cons, List.not_mem_nil, or_false] at hmark
    rcases hmark with rfl | rfl | rfl | rfl <;> decide
  have hopen : Comes spaces n n ('(' :: '?' :: mark :: rest) (mark :: rest) := by
    apply comes_of_construct
    intro s hs _
    have htake : ('?' :: mark :: rest).take 2 ≠ ['?', '#'] :=
      fun heq => hplain.ne_mark (by decide) (List.cons.inj (List.cons.inj heq).2).1
    rw [construct_paren htake]
    exact ⟨_, marked_mark rfl hmark, { hs with saved := hs.saved_cons, ignoreNext := rfl }, rfl⟩
  exact hopen.trans (comes_one n hplain rest)

theorem comes_opener (n : Nat) (o : Opener) (hrest : o = .capture → rest.head? ≠ some '?') :
    Comes spaces n (n + o.count) ('(' :: (o.mark ++ rest)) rest := by
  cases o with
  | capture => exact comes_capture n (hrest rfl)
  | plain | ahead | notAhead | greedy => exact comes_mark n (by decide) rest

/-- The survey skips what is between two tokens. -/
theorem comes_gap (n : Nat) (g : List Filler) {ts : List (Token × List Filler)}
    (hts : (ts.map Prod.fst).IsChain Token.MayFollow) :
    Comes spaces n n (gap spaces g ++ spread spaces ts) (spread spaces ts) := by
  cases spaces with
  | false => exact .refl false n _
  | true =>
    induction g with
    | nil => exact .refl true n _
    | cons f g ih =>
      have htext : gap true (f :: g) ++ spread true ts = f.text ++ (gap true g ++ spread true ts) := by
        simp [gap]
      -- A comment is skipped together with all that is after it.
      have hskip (s : Survey) (hs : s.Tallies true n)
          (hrest : s.cursor.rest = f.text ++ (gap true g ++ spread true ts)) :
          ∃ pos, s.cursor.skipBlanks s.options = .ok ⟨pos, spread true ts⟩ := by
        rw [hs.options]
        exact Cursor.skipBlanks_spread hts (hrest.trans htext.symm)
      rw [htext]
      cases f with
      | space ch h =>
        have hch : ∀ d ∈ [ch], Inert true d := by simpa using inert_of_isSpace h
        exact (comes_inert n hch _).trans ih
      | line text h =>
        apply comes_of_construct
        intro s hs hrest
        obtain ⟨pos, hskip⟩ := hskip s hs hrest
        refine ⟨_, ?_, hs.move ⟨pos, spread true ts⟩, rfl⟩
        have hon : s.options.ignoreWhitespace = true := by rw [hs.options]; rfl
        unfold construct
        rw [if_neg (by decide), if_pos rfl, if_pos hon, hskip]
        rfl
      | paren text h =>
        apply comes_of_construct
        intro s hs hrest
        obtain ⟨pos, hskip⟩ := hskip s hs hrest
        refine ⟨{ s with cursor := ⟨pos, spread true ts⟩, ignoreNext := false }, ?_, { hs with ignoreNext := rfl }, rfl⟩
        unfold construct
        rw [if_neg (by decide), if_neg (by decide), if_neg (by decide), if_neg (by decide), if_pos rfl, hskip]
        exact if_pos rfl

theorem comes_literal (spaces : Bool) (n : Nat) (c : Char) (rest : List Char) :
    Comes spaces n n ((Token.literal c).text ++ rest) rest := by
  cases hc : Token.escaped c with
  | true =>
    rw [Token.text, if_pos hc]
    exact comes_escape spaces n c rest
  | false =>
    obtain ⟨hspecial, _, hhash⟩ := Token.escaped_eq_false hc
    have hinert : Inert spaces c := by
      refine ⟨fun hmem => ?_, fun heq => absurd heq hhash⟩
      have hall : ['\\', '[', '(', ')'].all Cursor.isSpecial = true := by decide
      rw [List.all_eq_true.mp hall c hmem] at hspecial
      cases hspecial
    rw [Token.text, if_neg (by simp [hc])]
    exact comes_inert n (by simpa using hinert) rest

theorem plain_of_mem_digits (k : Numeral) : ∀ ch ∈ k.digits, Plain ch :=
  fun ch hch => plain_of_isDigit (k.all ch hch)

theorem comes_reference (spaces : Bool) (n : Nat) (k : Numeral) (rest : List Char) :
    Comes spaces n n ((Token.reference k).text ++ rest) rest := by
  have hplain : ∀ ch ∈ '<' :: (k.digits ++ ['>']), Plain ch :=
    List.forall_mem_cons.mpr ⟨by decide,
      List.forall_mem_append.mpr ⟨plain_of_mem_digits k, List.forall_mem_singleton.mpr (by decide)⟩⟩
  exact (comes_escape spaces n 'k' _).trans (comes_plain n hplain rest)

theorem plain_of_mem_count (min : Numeral) (max : Upper) : ∀ ch ∈ (Token.count min max).text, Plain ch := by
  have hmax : ∀ ch ∈ max.text, Plain ch := by
    cases max with
    | same => exact List.forall_mem_nil _
    | none => exact List.forall_mem_singleton.mpr (by decide)
    | upTo k => exact List.forall_mem_cons.mpr ⟨by decide, plain_of_mem_digits k⟩
  exact List.forall_mem_cons.mpr ⟨by decide, List.forall_mem_append.mpr ⟨plain_of_mem_digits min,
    List.forall_mem_append.mpr ⟨hmax, List.forall_mem_singleton.mpr (by decide)⟩⟩⟩

theorem comes_token (n : Nat) (t : Token) (g : List Filler) {ts : List (Token × List Filler)}
    (hts : (t :: ts.map Prod.fst).IsChain Token.MayFollow) :
    Comes spaces n (n + t.groups) (t.text ++ (gap spaces g ++ spread spaces ts)) (gap spaces g ++ spread spaces ts) := by
  cases t with
  | literal c => exact comes_literal spaces n c _
  | bracket negated first ms => exact comes_bracket spaces n negated first ms _
  | assertion a letter h => exact comes_escape spaces n letter _
  | reference k => exact comes_reference spaces n k _
  | opener o => exact comes_opener n o fun _ => Cursor.head_ne_mark g hts
  | close => exact comes_close spaces n _
  | count min max => exact comes_plain n (plain_of_mem_count min max) _
  | bar | star | plus | mark => exact comes_one n (by decide) _

/-- **The survey counts the groups that the tokens open, whatever is between them.** -/
theorem comes_tokens (n : Nat) (g : List Filler) {ts : List (Token × List Filler)}
    (hts : (ts.map Prod.fst).IsChain Token.MayFollow) :
    Comes spaces n (n + ((ts.map Prod.fst).map Token.groups).sum) (gap spaces g ++ spread spaces ts) [] := by
  induction ts generalizing n g with
  | nil => exact comes_gap n g hts
  | cons tg ts ih =>
    obtain ⟨t, g'⟩ := tg
    have htoken := (comes_token n t g' hts).trans (ih (n + t.groups) g' hts.tail)
    rw [← spread_cons, Nat.add_assoc] at htoken
    exact (comes_gap n g hts).trans htoken

/-- The survey goes over the tokens to their end. -/
theorem run_tokens (spaces : Bool) (g : List Filler) {ts : List (Token × List Filler)}
    (hts : (ts.map Prod.fst).IsChain Token.MayFollow) :
    ∃ s, run (gap spaces g ++ spread spaces ts).length (start (gap spaces g ++ spread spaces ts) (.spaced spaces)) =
      .ok s ∧ s.Tallies spaces (1 + ((ts.map Prod.fst).map Token.groups).sum) := by
  obtain ⟨s, hgoes, hs, hrest⟩ := comes_tokens 1 g hts _ (start_tallies _ spaces) rfl
  obtain ⟨rounds, hrun⟩ := hgoes.run_eq (Nat.le_refl _)
  refine ⟨s, hrun.trans ?_, hs⟩
  cases rounds with
  | zero => rfl
  | succ rounds => rw [run, hrest]

end Survey

/-- **The groups of a pattern are the ones that its tokens open.** -/
theorem GroupTable.ofPattern_tokens (spaces : Bool) (g : List Filler) {ts : List (Token × List Filler)}
    (hts : (ts.map Prod.fst).IsChain Token.MayFollow) :
    ∃ table, GroupTable.ofPattern (gap spaces g ++ spread spaces ts) (.spaced spaces) = .ok table ∧
      table.numbers = List.range (1 + ((ts.map Prod.fst).map Token.groups).sum) ∧ table.names = [] := by
  obtain ⟨s, hrun, hs⟩ := Survey.run_tokens spaces g hts
  refine ⟨s.table.assignNames s.autocap, ?_, ?_⟩
  · rw [GroupTable.ofPattern, hrun]
    rfl
  · rw [assignNames, hs.pending]
    exact ⟨hs.numbers, hs.names⟩

namespace Pattern

/-- The pattern that the tokens give is read, with or without blanks between them. -/
theorem read_tokens (spaces : Bool) (g : List Filler) {ts : List (Token × List Filler)}
    (hts : (ts.map Prod.fst).IsChain Token.MayFollow) (culture : Culture) :
    Answers (fun p n => p.root = n ∧ p.table.numbers = List.range (1 + ((ts.map Prod.fst).map Token.groups).sum) ∧
        p.table.names = [])
      (read (gap spaces g ++ spread spaces ts) (.spaced spaces) culture)
      (Outline.start.read (.spaced spaces)
        (fun n => decide (n < 1 + ((ts.map Prod.fst).map Token.groups).sum)) (ts.map Prod.fst)) := by
  obtain ⟨table, htable, hnumbers, hnames⟩ := GroupTable.ofPattern_tokens spaces g hts
  have hcontains : table.contains = fun n => decide (n < 1 + ((ts.map Prod.fst).map Token.groups).sum) := by
    funext n
    rw [Bool.eq_iff_iff, GroupTable.contains_iff, hnumbers, List.mem_range, decide_eq_true_iff]
  have hrun : Answers Eq (Reader.run ⟨culture, table⟩ _ (Reader.start _ _) >>= Reader.finish)
      (Outline.start.read (.spaced spaces) table.contains (ts.map Prod.fst)) :=
    Reader.run_answers ⟨Reader.start_fits (gap spaces g ++ spread spaces ts) (.spaced spaces), rfl, hts⟩ rfl
      (Nat.le_refl _)
  rw [hcontains] at hrun
  unfold read
  rw [htable]
  show Answers _ (Reader.run ⟨culture, table⟩ _ (Reader.start _ _) >>= fun r => r.finish >>= fun root => _) _
  rw [← bind_assoc]
  apply hrun.map_left
  rintro root _ rfl
  exact ⟨rfl, hnumbers, hnames⟩

/-- **Blanks between the tokens of a pattern are ignored**: with them and without, the pattern fails, or gives the
same tree, but for the option, and the same groups. -/
theorem parse_spaced (g : List Filler) (ts : List (Token × List Filler)) (culture : Culture)
    (hts : (ts.map Prod.fst).IsChain Token.MayFollow) :
    (∃ fault fault', parse (String.ofList (ts.flatMap fun t => t.1.text)) {} culture = .error fault ∧
      parse (String.ofList (gap true g ++ spread true ts)) { ignoreWhitespace := true } culture = .error fault') ∨
    ∃ p p', parse (String.ofList (ts.flatMap fun t => t.1.text)) {} culture = .ok p ∧
      parse (String.ofList (gap true g ++ spread true ts)) { ignoreWhitespace := true } culture = .ok p' ∧
      p'.root = p.root.mapOptions (fun o => { o with ignoreWhitespace := true }) ∧
      p'.table.numbers = p.table.numbers ∧ p'.table.names = p.table.names := by
  have hplain := read_tokens false [] hts culture
  have hspaced := read_tokens true g hts culture
  have htext : gap false [] ++ spread false ts = ts.flatMap fun t => t.1.text := by simp [gap, spread]
  rw [Outline.read_start rfl] at hplain hspaced
  unfold parse
  rw [String.toList_ofList, String.toList_ofList]
  rw [htext] at hplain
  change Answers _ (read _ {} (effectiveCulture {} culture)) _ at hplain
  change Answers _ (read _ { ignoreWhitespace := true }
    (effectiveCulture { ignoreWhitespace := true } culture)) _ at hspaced
  generalize Outline.start.read {} _ _ = tree at hplain hspaced
  generalize read _ {} _ = x at hplain ⊢
  generalize read _ { ignoreWhitespace := true } _ = y at hspaced ⊢
  cases tree with
  | none =>
    cases hplain
    cases hspaced
    exact .inl ⟨_, _, rfl, rfl⟩
  | some n =>
    cases hplain with
    | ok h =>
    cases hspaced with
    | ok h' =>
      obtain ⟨hroot, hnumbers, hnames⟩ := h
      obtain ⟨hroot', hnumbers', hnames'⟩ := h'
      refine .inr ⟨_, _, rfl, rfl, ?_, hnumbers'.trans hnumbers.symm, hnames'.trans hnames.symm⟩
      rw [hroot, hroot', Node.under, Node.under, Node.mapOptions_mapOptions]
      rfl

theorem parse_spaced_comments :
    ∃ p p', parse "(a\x7b2,3\x7d?\\#|\\ )*(?![\\u0041-\\u005a])\\k<1>" {} .invariant = .ok p ∧
      parse "\t( a# (\n \x7b2,3\x7d(?#[) ?\\#|\\ )\n*# ]\n(?![\\u0041-\\u005a] )\\k<1>(?# # )\r"
        { ignoreWhitespace := true } .invariant = .ok p' ∧
      p'.root = p.root.mapOptions (fun o => { o with ignoreWhitespace := true }) ∧
      p'.table.numbers = p.table.numbers ∧ p'.table.names = p.table.names := by
  let g : List Filler := [.space '\t' rfl]
  let ts : List (Token × List Filler) := [
    (.opener .capture, [.space ' ' rfl]),
    (.literal 'a', [.line [' ', '('] (by decide), .space ' ' rfl]),
    (.count ⟨['2'], by decide, List.all_eq_true.mp rfl⟩ (.upTo ⟨['3'], by decide, List.all_eq_true.mp rfl⟩),
      [.paren ['['] (by decide), .space ' ' rfl]),
    (.mark, []),
    (.literal '#', []),
    (.bar, []),
    (.literal ' ', []),
    (.close, [.space '\n' rfl]),
    (.star, [.line [' ', ']'] (by decide)]),
    (.opener .notAhead, []),
    (.bracket false (.range ⟨['0', '0', '4', '1'], rfl, List.all_eq_true.mp rfl⟩
      ⟨['0', '0', '5', 'a'], rfl, List.all_eq_true.mp rfl⟩) [], [.space ' ' rfl]),
    (.close, []),
    (.reference ⟨['1'], by decide, List.all_eq_true.mp rfl⟩, [.paren [' ', '#', ' '] (by decide), .space '\r' rfl])]
  have hplain : String.ofList (ts.flatMap fun t => t.1.text) =
      "(a\x7b2,3\x7d?\\#|\\ )*(?![\\u0041-\\u005a])\\k<1>" := rfl
  have hspaced : String.ofList (gap true g ++ spread true ts) =
      "\t( a# (\n \x7b2,3\x7d(?#[) ?\\#|\\ )\n*# ]\n(?![\\u0041-\\u005a] )\\k<1>(?# # )\r" := rfl
  obtain ⟨p, hp, _⟩ := exists_ok_of_check (parse "(a\x7b2,3\x7d?\\#|\\ )*(?![\\u0041-\\u005a])\\k<1>" {} .invariant)
    (fun _ => true) (by decide +kernel)
  have h := parse_spaced g ts .invariant (by decide)
  rw [hplain, hspaced] at h
  rcases h with ⟨fault, _, hfault, _⟩ | h
  · cases hp.symm.trans hfault
  · exact h

end Pattern

end PatternCompiler
