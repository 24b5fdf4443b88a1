import PatternCompiler.Proofs.Brackets
import PatternCompiler.Proofs.Reading

/-! The survey and the reader find the same groups.

The survey goes over a pattern by rules of its own, before the reader. A `Scan` is what
the two have in common: the place, the options that matter for groups, and the next
number. `Reaches v v'` says that the survey comes from one to the other. Each construct
that the reader takes, the survey reaches the end of (`Reader.step_reaches`), as long as
the text is clear of what they take differently. So the reader never gives a number that
the survey has not given (`Reader.run_autocap`). -/
namespace PatternCompiler

/-! ### Scans -/

/-- The switches that matter for groups: unnamed groups do not capture, blanks are skipped. -/
def Options.scanned (o : Options) : Bool × Bool := (o.explicitCapture, o.ignoreWhitespace)

/-- What the survey and the reader have in common. -/
structure Scan where
  cursor : Cursor
  flags : Bool × Bool
  saved : List (Bool × Bool)
  autocap : Nat
  ignoreNext : Bool

def Reader.scan (r : Reader) : Scan :=
  ⟨r.cursor, r.options.scanned, r.saved.map Options.scanned, r.autocap, r.ignoreNext⟩

def Survey.scan (s : Survey) : Scan :=
  ⟨s.cursor, s.options.scanned, s.saved.map Options.scanned, s.autocap, s.ignoreNext⟩

/-- The switches at the closing parenthesis of a group. -/
def Scan.restore (v : Scan) : Scan :=
  match v.saved with
  | [] => v
  | flags :: rest => { v with flags := flags, saved := rest }

/-- The switches and the next number past an opening parenthesis that has no mark. -/
def Scan.unmarked (v : Scan) : Scan :=
  if v.flags.1 || v.ignoreNext then { v with saved := v.flags :: v.saved, ignoreNext := false }
  else { v with saved := v.flags :: v.saved, autocap := v.autocap + 1, ignoreNext := false }

theorem Scan.unmarked_move (v : Scan) (c : Cursor) :
    { v with cursor := c }.unmarked = { v.unmarked with cursor := c } := by
  unfold unmarked
  split <;> rfl

theorem Scan.restore_move (v : Scan) (c : Cursor) :
    { v with cursor := c }.restore = { v.restore with cursor := c } := by
  obtain ⟨_, _, saved, _, _⟩ := v
  cases saved <;> rfl

theorem Scan.restore_ignoreNext (v : Scan) : v.restore.ignoreNext = v.ignoreNext := by
  unfold restore
  split <;> rfl

theorem Reader.restore_scan (r : Reader) : r.restore.scan = r.scan.restore := by
  cases r with
  | mk cursor options saved => cases saved <;> rfl

theorem Survey.restore_scan (s : Survey) : s.restore.scan = s.scan.restore := by
  cases s with
  | mk cursor options saved => cases saved <;> rfl

/-! ### Rounds of the survey -/

namespace Survey

variable {s s' s'' : Survey} {ch : Char} {rest : List Char} {c : Cursor} {offset : Nat}

/-- Every round takes a character at least. -/
theorem construct_suffix (hs : s.cursor.rest = ch :: rest)
    (h : s.construct ch ⟨s.cursor.pos + 1, rest⟩ = .ok s') : s'.cursor.rest <:+ rest :=
  ((construct_keeps hs).of_ok h).suffix hs

/-- The survey comes from one state to another, construct by construct. -/
inductive Goes : Survey → Survey → Prop where
  | refl (s : Survey) : Goes s s
  | step {s s₁ s' : Survey} {ch : Char} {rest : List Char} (hs : s.cursor.rest = ch :: rest)
      (h : s.construct ch ⟨s.cursor.pos + 1, rest⟩ = .ok s₁) (hg : Goes s₁ s') : Goes s s'

theorem Goes.trans (h : Goes s s') (h' : Goes s' s'') : Goes s s'' := by
  induction h with
  | refl => exact h'
  | step hs hstep _ ih => exact .step hs hstep (ih h')

theorem Goes.suffix (h : Goes s s') : s'.cursor.rest <:+ s.cursor.rest := by
  induction h with
  | refl => exact List.suffix_refl _
  | step hs hstep _ ih =>
    rw [hs]
    exact (ih.trans (construct_suffix hs hstep)).trans (List.suffix_cons _ _)

/-- The rest of the survey is the same from wherever it comes to. -/
theorem Goes.run_eq (h : Goes s s') {rounds : Nat} (hrounds : s.cursor.rest.length ≤ rounds) :
    ∃ rounds', run rounds s = run rounds' s' := by
  induction h generalizing rounds with
  | refl => exact ⟨rounds, rfl⟩
  | step hs hstep _ ih =>
    rw [hs, List.length_cons] at hrounds
    obtain ⟨k, rfl⟩ : ∃ k, rounds = k + 1 := ⟨rounds - 1, by omega⟩
    have hlen := (construct_suffix hs hstep).length_le
    have hfewer : _ ≤ k := Nat.le_trans hlen (by omega)
    obtain ⟨rounds', hrun⟩ := ih hfewer
    refine ⟨rounds', ?_⟩
    rw [run, hs]
    simp only [hstep]
    exact hrun

/-! ### Reaching -/

/-- Wherever the survey has the one scan, it comes to the other. -/
def Reaches (v v' : Scan) : Prop := ∀ s : Survey, s.scan = v → ∃ s', Goes s s' ∧ s'.scan = v'

variable {v v' v'' : Scan} {c' : Cursor}

theorem Reaches.refl (v : Scan) : Reaches v v := fun s hs => ⟨s, .refl s, hs⟩

theorem Reaches.trans (h : Reaches v v') (h' : Reaches v' v'') : Reaches v v'' := by
  intro s hs
  obtain ⟨s₁, hg₁, hs₁⟩ := h s hs
  obtain ⟨s₂, hg₂, hs₂⟩ := h' s₁ hs₁
  exact ⟨s₂, hg₁.trans hg₂, hs₂⟩

/-- One construct, whose result is given by what it does to the scan. -/
theorem reaches_of_construct (hv : v.cursor.rest = ch :: rest)
    (h : ∀ s : Survey, s.scan = v →
      ∃ s', s.construct ch ⟨v.cursor.pos + 1, rest⟩ = .ok s' ∧ s'.scan = v') : Reaches v v' := by
  rintro s rfl
  obtain ⟨s', hstep, hs'⟩ := h s rfl
  exact ⟨s', .step hv hstep (.refl s'), hs'⟩

/-- A character that the survey takes for nothing. -/
def Inert (spaces : Bool) (ch : Char) : Prop :=
  ch ∉ ['\\', '[', '(', ')'] ∧ (ch = '#' → spaces = false)

theorem inert_of_plainOrDash (spaces : Bool) (h : PlainOrDash ch) : Inert spaces ch := by
  rcases h with h | rfl
  · refine ⟨fun hmem => h ?_, fun heq => absurd heq (h.ne_mark (by decide))⟩
    simp only [List.mem_cons, List.not_mem_nil, or_false] at hmem
    rcases hmem with rfl | rfl | rfl | rfl <;> decide
  · exact ⟨by decide, fun heq => absurd heq (by decide)⟩

theorem construct_inert (h : Inert s.options.ignoreWhitespace ch) (c : Cursor) :
    s.construct ch c = .ok { s with cursor := c } := by
  obtain ⟨hch, hline⟩ := h
  simp only [List.mem_cons, List.not_mem_nil, or_false, not_or] at hch
  obtain ⟨hback, hbracket, hopen, hclose⟩ := hch
  unfold construct
  rw [if_neg hback]
  by_cases hhash : ch = '#'
  · rw [if_pos hhash, hline hhash]
    rfl
  · rw [if_neg hhash, if_neg hbracket, if_neg hclose, if_neg hopen]

theorem reaches_inert (hv : v.cursor.rest = ch :: rest) (hch : Inert v.flags.2 ch) :
    Reaches v { v with cursor := ⟨v.cursor.pos + 1, rest⟩ } := by
  refine reaches_of_construct hv fun s hs => ?_
  subst hs
  exact ⟨_, construct_inert hch _, rfl⟩

theorem reaches_passes (h : Cursor.Passes (Inert v.flags.2) v.cursor c') :
    Reaches v { v with cursor := c' } :=
  h.backward (motive := fun c => Reaches { v with cursor := c } { v with cursor := c' }) (.refl _)
    fun c _ _ hc hch h => (reaches_inert (v := { v with cursor := c }) hc hch).trans h

theorem reaches_plain (h : Cursor.Passes PlainOrDash v.cursor c') : Reaches v { v with cursor := c' } :=
  reaches_passes (h.imp fun _ => inert_of_plainOrDash _)

/-! ### Blanks and literal characters -/

theorem reaches_of_eq {c' : Cursor} (h : v.cursor = c') : Reaches v { v with cursor := c' } := by
  subst h
  exact .refl v

theorem inert_of_isSpace {spaces : Bool} (h : Cursor.isSpace ch = true) : Inert spaces ch := by
  refine ⟨fun hmem => ?_, fun heq => ?_⟩
  · have hno : ['\\', '[', '(', ')'].any Cursor.isSpace = false := by decide
    exact List.any_eq_false.mp hno ch hmem h
  · rw [heq] at h
    exact absurd h (by decide)

/-- The survey skips comments by the reader's own means, and a space is nothing to it. -/
theorem reaches_blanks (hignore : v.ignoreNext = false)
    (h : Cursor.skipBlanksFrom v.flags.2 .between v.cursor.pos v.cursor.rest = .ok c') :
    Reaches v { v with cursor := c' } := by
  obtain ⟨cs, hcs⟩ : ∃ cs, v.cursor.rest = cs := ⟨_, rfl⟩
  induction cs generalizing v with
  | nil =>
    rw [hcs] at h
    cases h
    exact reaches_of_eq (by rw [← hcs])
  | cons ch rest ih =>
    -- A comment is one construct of the survey, which skips what the reader skips here.
    have hcomment : ∀ s : Survey, s.scan = v → s.cursor.skipBlanks s.options = .ok c' := by
      rintro s rfl
      exact h
    rw [hcs, Cursor.skipBlanksFrom] at h
    split at h
    · rename_i hspace
      have hinert : Inert v.flags.2 ch := inert_of_isSpace (Bool.and_eq_true_iff.mp hspace).2
      exact (reaches_inert hcs hinert).trans (ih hignore h rfl)
    split at h
    · rename_i hhash
      simp only [Bool.and_eq_true, beq_iff_eq] at hhash
      obtain ⟨hspaces, rfl⟩ := hhash
      refine reaches_of_construct hcs fun s hs => ⟨{ s with cursor := c' }, ?_, by rw [← hs]; rfl⟩
      have hskip := hcomment s hs
      have hon : s.options.ignoreWhitespace = true := by
        rw [← hs] at hspaces
        exact hspaces
      unfold construct
      rw [if_neg (by decide), if_pos rfl, if_pos hon, hskip]
      rfl
    split at h
    · rename_i hparen
      simp only [Bool.and_eq_true, beq_iff_eq] at hparen
      obtain ⟨rfl, htake⟩ := hparen
      refine reaches_of_construct hcs fun s hs =>
        ⟨{ s with cursor := c', ignoreNext := false }, ?_, by rw [← hignore, ← hs]; rfl⟩
      have hskip := hcomment s hs
      unfold construct
      rw [if_neg (by decide), if_neg (by decide), if_neg (by decide), if_neg (by decide), if_pos rfl,
        if_pos htake, hskip]
      rfl
    · cases h
      exact reaches_of_eq (by rw [← hcs])

theorem inert_of_not_endsRun {spaces : Bool} (h : Cursor.endsRun spaces ch rest = false) :
    Inert spaces ch := by
  refine ⟨fun hmem => ?_, fun heq => ?_⟩
  · have hends : ['\\', '[', '(', ')'].all (fun ch => Cursor.isSpecial ch && ch != '\x7b') = true := by
      decide
    obtain ⟨hspecial, hbrace⟩ := Bool.and_eq_true_iff.mp (List.all_eq_true.mp hends ch hmem)
    rw [Cursor.endsRun, hspecial, beq_false_of_ne (bne_iff_ne.mp hbrace)] at h
    cases h
  · subst heq
    cases spaces with
    | false => rfl
    | true => cases h

theorem literalRun_passes (c : Cursor) (o : Options) :
    Cursor.Passes (Inert o.ignoreWhitespace) c (c.literalRun o).2 := by
  have hrun : ∀ cs, (∀ ch ∈ Cursor.literalRunFrom o.ignoreWhitespace cs, Inert o.ignoreWhitespace ch) ∧
      Cursor.literalRunFrom o.ignoreWhitespace cs ++
        cs.drop (Cursor.literalRunFrom o.ignoreWhitespace cs).length = cs := by
    intro cs
    induction cs with
    | nil => exact ⟨List.forall_mem_nil _, rfl⟩
    | cons ch rest ih =>
      rw [Cursor.literalRunFrom]
      split
      · exact ⟨List.forall_mem_nil _, rfl⟩
      · rename_i hends
        refine ⟨fun d hd => ?_, ?_⟩
        · rcases List.mem_cons.mp hd with rfl | hd
          · exact inert_of_not_endsRun (Bool.not_eq_true _ ▸ hends)
          · exact ih.1 d hd
        · rw [List.length_cons, List.drop_succ_cons, List.cons_append, ih.2]
  exact ⟨_, (hrun c.rest).1, (hrun c.rest).2.symm, rfl⟩

/-! ### Brackets, escapes and closing parentheses -/

theorem reaches_bracket {c : Cursor} {m : Cursor.BracketMode} {k : CharClass}
    (hv : v.cursor.rest = '[' :: c.rest) (hpos : c.pos = v.cursor.pos + 1) (hclear : Clear v.cursor.rest)
    (h : c.bracket m = .ok (k, c')) : Reaches v { v with cursor := c' } := by
  refine reaches_of_construct hv fun s hs => ⟨{ s with cursor := c' }, ?_, by rw [← hs]; rfl⟩
  have hskip := Cursor.bracket_skips (hv ▸ hclear) h
  unfold construct
  rw [if_neg (by decide), if_neg (by decide), if_pos rfl, ← hpos, hskip]
  rfl

theorem reaches_escape {c : Cursor} {e : Setting} {o : Options} {l : Leaf}
    (hv : v.cursor.rest = '\\' :: c.rest) (hpos : c.pos = v.cursor.pos + 1) (hclear : Clear v.cursor.rest)
    (h : c.backslash e o = .ok (l, c')) : Reaches v { v with cursor := c' } := by
  obtain ⟨d, rest, hrest, hpass⟩ := Cursor.backslash_passes (hv ▸ hclear) h
  have hone : Reaches v { v with cursor := ⟨c.pos + 1, rest⟩ } := by
    refine reaches_of_construct hv fun s hs => ⟨{ s with cursor := ⟨c.pos + 1, rest⟩ }, ?_, by rw [← hs]; rfl⟩
    unfold construct
    rw [if_pos rfl, ← hpos, Cursor.skipOne, hrest]
  exact hone.trans (reaches_plain hpass)

theorem reaches_close (hv : v.cursor.rest = ')' :: rest) :
    Reaches v { v.restore with cursor := ⟨v.cursor.pos + 1, rest⟩ } := by
  refine reaches_of_construct hv fun s hs => ⟨{ s.restore with cursor := ⟨v.cursor.pos + 1, rest⟩ }, ?_, ?_⟩
  · unfold construct
    rw [if_neg (by decide), if_neg (by decide), if_neg (by decide), if_pos rfl]
  · rw [← hs, ← restore_scan]
    rfl

end Survey

open Survey (Reaches)

namespace Reader

variable {r r' : Reader} {e : Setting}

theorem place_scan (r : Reader) : r.place.scan = r.scan := by
  unfold place
  split <;> rfl

theorem placeQuantified_scan (r : Reader) (lazy : Bool) (min max : Nat) :
    (r.placeQuantified lazy min max).scan = r.scan := by
  unfold placeQuantified
  split <;> rfl

theorem addRun_scan (e : Setting) (r : Reader) (run : List Char) : (r.addRun e run).scan = r.scan := by
  unfold addRun
  split <;> rfl

theorem addRunQuantified_scan (e : Setting) (r : Reader) (run : List Char) :
    (r.addRunQuantified e run).scan = r.scan := by
  unfold addRunQuantified
  split
  · rfl
  · exact addRun_scan e r _

/-- After a quantifier, or where none is, the reader has only moved on, and nothing is left that
may still be quantified. -/
theorem quantifier_reaches (hignore : r.ignoreNext = false) (h : r.quantifier = .ok r') :
    Reaches r.scan r'.scan ∧ r'.unit = none ∧ r'.ignoreNext = false := by
  obtain ⟨c, hc, ⟨after, hr'⟩ | ⟨min, max, c₁, c₂, lazy, hbounds, hc₂, _, hr'⟩⟩ := quantifier_cases h
  · have hscan : r'.scan = { r.scan with cursor := c } := by
      rw [hr', ← place_scan r]
      rfl
    rw [hscan, hr']
    exact ⟨Survey.reaches_blanks hignore hc, place_unit r, (congrArg Scan.ignoreNext (place_scan r)).trans hignore⟩
  · have hscan : r'.scan = { r.scan with cursor := c₂.skipChar '?' } := by
      rw [hr', ← placeQuantified_scan r lazy min max]
      rfl
    rw [hscan, hr']
    refine ⟨?_, placeQuantified_unit r lazy min max,
      (congrArg Scan.ignoreNext (placeQuantified_scan r lazy min max)).trans hignore⟩
    have hblanks : Reaches r.scan { r.scan with cursor := c } := Survey.reaches_blanks hignore hc
    have hcount : Reaches { r.scan with cursor := c } { r.scan with cursor := c₁ } :=
      Survey.reaches_plain (v := { r.scan with cursor := c }) (Cursor.bounds?_passes hbounds).orDash
    have hblanks₂ : Reaches { r.scan with cursor := c₁ } { r.scan with cursor := c₂ } :=
      Survey.reaches_blanks (v := { r.scan with cursor := c₁ }) hignore hc₂
    have hlazy : Reaches { r.scan with cursor := c₂ } { r.scan with cursor := c₂.skipChar '?' } :=
      Survey.reaches_plain (v := { r.scan with cursor := c₂ }) (Cursor.skipChar_passes (by decide) c₂)
    exact hblanks.trans (hcount.trans (hblanks₂.trans hlazy))

/-! ### Opening parentheses -/

end Reader

namespace Survey

variable {s s' : Survey} {c c' : Cursor} {offset : Nat} {v : Scan} {t : GroupTable} {close ch : Char}
  {rest : List Char} {o : Options} {p : Opening}

/-- A step of the survey succeeds, and from there the survey comes to a scan. -/
def Ends (x : Except Problem Survey) (v : Scan) : Prop :=
  ∃ s s', x = .ok s ∧ Goes s s' ∧ s'.scan = v

theorem Ends.of_reaches {x : Except Problem Survey} (hx : x = .ok s) (h : Reaches s.scan v) : Ends x v := by
  obtain ⟨s', hg, hs'⟩ := h s rfl
  exact ⟨s, s', hx, hg, hs'⟩

theorem ownName_digit {number : Option Nat}
    {noName : Bool} (hc : c.rest = ch :: rest) (hch : ch.isDigit = true)
    (h : c.ownName t close = .ok (number, noName, c')) : ∃ n, c.decimal = .ok (n, c') := by
  unfold Cursor.ownName at h
  simp only [hc] at h
  rw [if_pos hch] at h
  obtain ⟨⟨n, c₁⟩, hn, h⟩ := exists_ok_of_bind h
  dsimp only at h
  split at h
  · cases h
  split at h
  · cases h
    exact ⟨n, hn⟩
  · cases h

theorem ownName_word {number : Option Nat}
    {noName : Bool} (hc : c.rest = ch :: rest) (hdigit : ch.isDigit = false)
    (hword : Unicode.isWord ch = true) (h : c.ownName t close = .ok (number, noName, c')) :
    c' = c.word.2 := by
  unfold Cursor.ownName at h
  simp only [hc] at h
  rw [if_neg (by rw [hdigit]; nofun), if_pos hword] at h
  split at h
  · cases h
    rfl
  · cases h

/-- The name of a group: the survey reads it as the reader does, or passes over it. -/
theorem named_ends (hclose : Plain close) {kind : GroupKind}
    (h : c.captureName t close = .ok (kind, c')) : Ends (s.named offset c) { s.scan with cursor := c' } := by
  obtain ⟨number, noName, c₁, hown, hpass⟩ := Cursor.captureName_passes hclose h
  unfold named
  split
  · rename_i hnil
    rw [Cursor.ownName, hnil] at hown
    cases hown
  rename_i ch rest hrest
  split
  · rename_i hword
    split
    · rename_i hdigit
      have hd : ch.isDigit = true := by
        simp only [Char.isDigit, Bool.and_eq_true, decide_eq_true_eq]
        exact ⟨Nat.le_of_succ_le hdigit.1, hdigit.2⟩
      obtain ⟨n, hn⟩ := ownName_digit hrest hd hown
      rw [hn]
      exact .of_reaches rfl (reaches_plain (v := { s.scan with cursor := c₁ }) hpass)
    · rename_i hdigit
      have hd : ch.isDigit = false := by
        refine Bool.eq_false_iff.mpr fun hd => ?_
        simp only [Char.isDigit, Bool.and_eq_true, decide_eq_true_eq] at hd
        have hzero : ch.toNat ≠ 48 := fun heq => hword.1 (Char.toNat_inj.mp heq)
        have hge : 48 ≤ ch.toNat := hd.1
        exact hdigit ⟨Nat.lt_of_le_of_ne hge hzero.symm, hd.2⟩
      have hc₁ := ownName_word hrest hd hword.2 hown
      subst hc₁
      exact .of_reaches rfl (reaches_plain (v := { s.scan with cursor := c.word.2 }) hpass)
  · exact .of_reaches rfl (reaches_plain (v := { s.scan with cursor := c })
      ((Cursor.ownName_passes hown).trans hpass))

theorem set_scanned {o' : Options} (h : o.scanned = o'.scanned) (flag : Options) (on : Bool) :
    (o.set flag on).scanned = (o'.set flag on).scanned := by
  simp only [Options.scanned, Prod.mk.injEq] at h
  cases on <;> simp [Options.scanned, Options.set, Options.union, Options.difference, Options.zipWith, h]

/-- Flags are read in the same way under any options. -/
theorem flagsFrom_scanned {o' : Options} (h : o.scanned = o'.scanned) (on : Bool) (pos : Nat)
    (cs : List Char) :
    (Cursor.flagsFrom o on pos cs).2 = (Cursor.flagsFrom o' on pos cs).2 ∧
      (Cursor.flagsFrom o on pos cs).1.scanned = (Cursor.flagsFrom o' on pos cs).1.scanned := by
  induction cs generalizing o o' on pos with
  | nil => exact ⟨rfl, h⟩
  | cons ch rest ih =>
    rw [Cursor.flagsFrom, Cursor.flagsFrom]
    split
    · exact ih h _ _
    split
    · exact ih h _ _
    split
    · exact ih (set_scanned h _ on) _ _
    · exact ⟨rfl, h⟩

/-- The marks that are neither flags nor the beginning of a name. -/
theorem flags_of_mark (hc : c.rest = ch :: rest)
    (hch : ch ∈ [':', '=', '!', '>', '(']) (o : Options) : c.flags o = (o, c) := by
  have hmarks : [':', '=', '!', '>', '('].all
      (fun ch => decide (ch ≠ '-' ∧ ch ≠ '+' ∧ Options.ofInlineFlag? ch = none)) = true := by decide
  obtain ⟨hminus, hplus, hflag⟩ := of_decide_eq_true (List.all_eq_true.mp hmarks ch hch)
  rw [Cursor.flags, hc, Cursor.flagsFrom, if_neg hminus, if_neg hplus, hflag, ← hc]

theorem marked_mark (hc : c.rest = ch :: rest) (hch : ch ∈ [':', '=', '!', '>']) :
    s.marked offset c = .ok { s with cursor := c, ignoreNext := false } := by
  have hflags := flags_of_mark hc (List.mem_append_left ['('] hch) s.options
  simp only [List.mem_cons, List.not_mem_nil, or_false] at hch
  unfold marked
  rcases hch with rfl | rfl | rfl | rfl <;> simp only [hc, hflags] <;> rfl

theorem marked_paren (hc : c.rest = '(' :: rest) :
    s.marked offset c = .ok { s with cursor := c, ignoreNext := true } := by
  have hflags := flags_of_mark hc (by decide) s.options
  unfold marked
  simp only [hc, hflags]
  rfl

theorem marked_name {mark : Char} (hc : c.rest = mark :: ch :: rest)
    (hmark : Cursor.closing? mark = some close) :
    s.marked offset c = { s with ignoreNext := false }.named offset ⟨c.pos + 1, ch :: rest⟩ := by
  unfold Cursor.closing? at hmark
  unfold marked
  split at hmark
  · simp only [hc]
  · simp only [hc]
  · cases hmark

theorem named_mark (hch : ch ∈ ['=', '!']) (pos : Nat) (rest : List Char) :
    s.named offset ⟨pos, ch :: rest⟩ = .ok { s with cursor := ⟨pos, ch :: rest⟩ } := by
  have hword : ['=', '!'].any Unicode.isWord = false := by decide
  unfold named
  exact if_neg fun h => List.any_eq_false.mp hword ch hch h.2

theorem reaches_of_ends {v v' : Scan} (hv : v.cursor.rest = ch :: rest)
    (h : ∀ s : Survey, s.scan = v → Ends (s.construct ch ⟨v.cursor.pos + 1, rest⟩) v') : Reaches v v' := by
  rintro s rfl
  obtain ⟨s₁, s', hstep, hg, hs'⟩ := h s rfl
  exact ⟨s', .step hv hstep hg, hs'⟩

theorem construct_paren (htake : rest.take 2 ≠ ['?', '#']) (pos : Nat) :
    s.construct '(' ⟨pos, rest⟩ = s.opened s.cursor.pos ⟨pos, rest⟩ := by
  unfold construct
  rw [if_neg (by decide), if_neg (by decide), if_neg (by decide), if_neg (by decide), if_pos rfl,
    if_neg htake]

theorem reaches_unmarked (hv : v.cursor.rest = '(' :: rest) (hrest : rest.head? ≠ some '?') :
    Reaches v { v.unmarked with cursor := ⟨v.cursor.pos + 1, rest⟩ } := by
  refine reaches_of_construct hv fun s hs => ?_
  have htake : rest.take 2 ≠ ['?', '#'] := fun htake => hrest (by
    cases rest with
    | nil => cases htake
    | cons ch rest =>
      rw [List.take_succ_cons] at htake
      rw [(List.cons.inj htake).1]
      rfl)
  rw [construct_paren htake]
  subst hs
  unfold opened Scan.unmarked
  dsimp only
  split
  · exact absurd rfl hrest
  · split <;> exact ⟨_, rfl, by simp_all [scan, Options.scanned]⟩

/-- A condition that refers to a group is its number or name and a closing parenthesis. -/
theorem conditionReference?_passes {n : Nat} (h : c.conditionReference? t = .ok (some (n, c'))) :
    c.rest.head? ≠ some '?' ∧ ∃ c₁ rest, Cursor.Passes Plain c c₁ ∧ c₁.rest = ')' :: rest ∧
      c' = ⟨c₁.pos + 1, rest⟩ := by
  unfold Cursor.conditionReference? at h
  split at h
  · cases h
  rename_i ch rest hrest
  have hhead : ch ≠ '?' → c.rest.head? ≠ some '?' := fun hne heq => by
    rw [hrest] at heq
    exact hne (Option.some.inj heq)
  split at h
  · rename_i hdigit
    obtain ⟨⟨m, c₁⟩, hm, h⟩ := exists_ok_of_bind h
    refine ⟨hhead fun heq => by rw [heq] at hdigit; exact absurd hdigit (by decide), ?_⟩
    dsimp only at h
    split at h
    · split at h
      · cases h
        exact ⟨c₁, _, Cursor.decimal_passes hm, ‹_›, rfl⟩
      · cases h
    · cases h
  split at h
  · rename_i hword
    refine ⟨hhead fun heq => by rw [heq] at hword; exact absurd hword (by decide), ?_⟩
    dsimp only at h
    split at h
    · cases h
      exact ⟨_, _, Cursor.word_passes c, ‹_›, rfl⟩
    · cases h
  · cases h

/-- The scan past an opening that the reader has read, with the options of the group around it
already kept. -/
def openedScan (v : Scan) (p : Opening) : Scan :=
  { v with
    cursor := p.cursor, flags := p.options.scanned, ignoreNext := p.condition
    saved := if p.kind.isSome then v.saved else v.saved.drop 1 }

/-- A condition that refers to a group: the survey opens a group for it and closes it again. -/
theorem reference_ends (hs : s.options.scanned = o.scanned) (hc : c.rest = '(' :: rest) {n : Nat} {c' : Cursor}
    (href : Cursor.conditionReference? t ⟨c.pos + 1, rest⟩ = .ok (some (n, c'))) :
    Ends (s.marked offset c) (openedScan s.scan { kind := some (.testref n), options := o, cursor := c' }) := by
  refine .of_reaches (marked_paren hc) ?_
  obtain ⟨hhead, c₁, rest', hpass, hc₁, rfl⟩ := conditionReference?_passes href
  have hopen := reaches_unmarked (v := { s.scan with cursor := c, ignoreNext := true }) hc hhead
  have hflags : (s.scan.flags.1 || true) = true := Bool.or_true _
  rw [Scan.unmarked, if_pos hflags] at hopen
  refine hopen.trans ((reaches_plain hpass.orDash).trans ((reaches_close hc₁).trans ?_))
  rw [openedScan, ← hs]
  exact .refl _

/-- Flags, up to what closes them. -/
theorem flags_ends (hs : s.options.scanned = o.scanned)
    (hc : ∀ ch rest, c.rest ≠ '<' :: ch :: rest ∧ c.rest ≠ '\'' :: ch :: rest)
    (hrest : (c.flags o).2.rest = close :: rest) {kind : Option GroupKind}
    (hclose : close = ')' ∧ kind = none ∨ close = ':' ∧ kind = some .plain) :
    Ends (s.marked offset c) (openedScan s.scan
      { kind := kind, options := (c.flags o).1, cursor := ⟨(c.flags o).2.pos + 1, rest⟩ }) := by
  obtain ⟨hcursor, hflags⟩ := flagsFrom_scanned hs true c.pos c.rest
  unfold marked
  split
  · exact absurd ‹_› (hc _ _).1
  · exact absurd ‹_› (hc _ _).2
  dsimp only
  rw [Cursor.flags] at hrest ⊢
  rw [Cursor.flags, hcursor]
  rcases hclose with ⟨rfl, rfl⟩ | ⟨rfl, rfl⟩
  · simp only [hrest]
    refine .of_reaches rfl ?_
    rw [openedScan, ← hflags]
    simp only [scan, List.map_drop]
    exact .refl _
  · simp only [hrest]
    refine .of_reaches rfl ((reaches_plain (.one hrest (by decide))).trans ?_)
    rw [openedScan, ← hflags]
    exact .refl _

/-- A mark of one character. -/
theorem mark_ends (hs : s.options.scanned = o.scanned) (hc : c.rest = ch :: rest)
    (hch : ch ∈ [':', '=', '!', '>']) {o' : Options} (ho' : o'.scanned = o.scanned) (kind : GroupKind) :
    Ends (s.marked offset c)
      (openedScan s.scan { kind := some kind, options := o', cursor := ⟨c.pos + 1, rest⟩ }) := by
  have hall : [':', '=', '!', '>'].all (fun ch => decide (PlainOrDash ch)) = true := by decide
  have hplain : PlainOrDash ch := of_decide_eq_true (List.all_eq_true.mp hall ch hch)
  refine .of_reaches (marked_mark hc hch) ((reaches_plain (.one hc hplain)).trans ?_)
  rw [openedScan, ho', ← hs]
  exact .refl _

/-- The mark of what looks behind, which the survey takes for the beginning of a name. -/
theorem behind_ends (hs : s.options.scanned = o.scanned) (hc : c.rest = '<' :: ch :: rest)
    (hch : ch ∈ ['=', '!']) {o' : Options} (ho' : o'.scanned = o.scanned) (kind : GroupKind) :
    Ends (s.marked offset c)
      (openedScan s.scan { kind := some kind, options := o', cursor := ⟨c.pos + 2, rest⟩ }) := by
  have hall : ['=', '!'].all (fun ch => decide (PlainOrDash ch)) = true := by decide
  have hplain : PlainOrDash ch := of_decide_eq_true (List.all_eq_true.mp hall ch hch)
  have hclose : Cursor.closing? '<' = some '>' := rfl
  rw [marked_name hc hclose, named_mark hch]
  refine .of_reaches rfl ((reaches_plain (.one rfl hplain)).trans ?_)
  rw [openedScan, ho', ← hs]
  exact .refl _

/-- Whatever kind of group begins at a mark, the survey reaches what the reader reads first in it. -/
theorem marked_ends (hs : s.options.scanned = o.scanned)
    (h : Cursor.Marked t o c p) : Ends (s.marked offset c) (openedScan s.scan p) := by
  cases h with
  | group hc hmark | lookahead hc hmark =>
    rcases hmark with ⟨rfl, rfl⟩ | ⟨rfl, rfl⟩ <;> exact mark_ends hs hc (by decide) rfl _
  | lookbehind hc hmark =>
    rcases hmark with ⟨rfl, rfl⟩ | ⟨rfl, rfl⟩ <;> exact behind_ends hs hc (by decide) rfl _
  | named hc hclose hname =>
    rw [marked_name hc hclose, openedScan, ← hs]
    exact named_ends (Cursor.closing?_plain hclose).2 hname
  | reference hc href => exact reference_ends hs hc href
  | expression hc =>
    refine .of_reaches (marked_paren hc) ?_
    rw [openedScan, ← hs]
    exact .refl _
  | flags hname hrest hclose => exact flags_ends hs hname hrest hclose

end Survey

/-! ### The reader in step with the survey -/

namespace Reader

variable {r r' : Reader} {e : Setting} {c c' : Cursor} {t : GroupTable} {o : Options} {p : Opening}
  {rest : List Char} {v : Scan} {ch : Char} {root : Node}

/-- A parenthesis is ahead that opens a group and not a comment. -/
def AtGroup (c : Cursor) : Prop := ∃ rest, c.rest = '(' :: rest ∧ rest.take 2 ≠ ['?', '#']

/-- Between two rounds: nothing is left to be quantified, and a condition that is awaited is ahead. -/
structure Ready (r : Reader) : Prop where
  unit : r.unit = none
  condition : r.ignoreNext = true → AtGroup r.cursor

/-- The reader will fail: it has opened a group, and a question mark follows. -/
structure Doomed (r : Reader) : Prop where
  outer : r.outer ≠ []
  unit : r.unit = none
  mark : r.cursor.rest.head? = some '?'

theorem marked_atGroup (h : Cursor.Marked t o c p) (hp : p.condition = true) : AtGroup p.cursor := by
  cases h with
  | @expression rest hc _ hcheck =>
    refine ⟨rest, hc, fun htake => ?_⟩
    obtain ⟨rest', rfl⟩ : ∃ rest', rest = '?' :: '#' :: rest' :=
      ⟨rest.drop 2, by rw [← List.take_append_drop 2 rest, htake]; rfl⟩
    rw [Cursor.checkCondition, hc] at hcheck
    cases hcheck
  | _ => cases hp

theorem unmarked_scan (r : Reader) :
    { r.unmarked with saved := r.options :: r.saved }.scan = r.scan.unmarked := by
  unfold unmarked Scan.unmarked
  split
  · rw [if_pos ‹_›]
    rfl
  · rw [if_neg ‹_›]
    rfl

theorem unmarked_outer (r : Reader) : r.unmarked.outer = r.frame :: r.outer := by
  unfold unmarked
  split <;> rfl

theorem unmarked_cursor (r : Reader) : r.unmarked.cursor = r.cursor := by
  unfold unmarked
  split <;> rfl

theorem unmarked_ignoreNext (r : Reader) : r.unmarked.ignoreNext = false := by
  unfold unmarked
  split <;> rfl

theorem openGroup_reaches (hv : v.cursor.rest = '(' :: rest)
    (hr : r.scan = { v with cursor := ⟨v.cursor.pos + 1, rest⟩ }) (htake : rest.take 2 ≠ ['?', '#'])
    (hunit : r.unit = none) (h : r.openGroup e = .ok r') :
    (Reaches v r'.scan ∧ Ready r') ∨ Doomed r' := by
  have hcursor : r.cursor = ⟨v.cursor.pos + 1, rest⟩ := congrArg Scan.cursor hr
  have hflags : r.options.scanned = v.flags := congrArg Scan.flags hr
  obtain ⟨_, rfl⟩ | ⟨p, hopening, h⟩ := openGroup_cases h
  · by_cases hmark : rest.head? = some '?'
    · refine .inr ⟨?_, ?_, ?_⟩
      · show r.unmarked.outer ≠ []
        rw [unmarked_outer]
        nofun
      · exact (unmarked_unit r).trans hunit
      · show r.unmarked.cursor.rest.head? = some '?'
        rw [unmarked_cursor, hcursor]
        exact hmark
    · refine .inl ⟨?_, (unmarked_unit r).trans hunit, fun hignore => ?_⟩
      · rw [unmarked_scan, hr, Scan.unmarked_move]
        exact Survey.reaches_unmarked hv hmark
      · exact Bool.noConfusion ((unmarked_ignoreNext r).symm.trans hignore)
  · obtain ⟨rest', hrest', _, hp⟩ := Cursor.opening?_marked hopening
    have hrest : rest = '?' :: rest' := by
      rw [hcursor] at hrest'
      exact hrest'
    have hreach : Reaches v (Survey.openedScan { v with saved := v.flags :: v.saved } p) := by
      refine Survey.reaches_of_ends hv fun s hs => ?_
      subst hs
      rw [Survey.construct_paren htake, hrest]
      rw [hcursor] at hp
      exact Survey.marked_ends hflags.symm hp
    have hready : ∀ r' : Reader, r'.unit = none → r'.ignoreNext = p.condition → r'.cursor = p.cursor →
        Ready r' := by
      intro r' hunit' hignore hcursor'
      refine ⟨hunit', fun htrue => ?_⟩
      rw [hcursor']
      exact marked_atGroup hp (hignore.symm.trans htrue)
    have hsaved : r.saved.map Options.scanned = v.saved := congrArg Scan.saved hr
    have hautocap : r.autocap = v.autocap := congrArg Scan.autocap hr
    obtain ⟨hkind, rfl⟩ | ⟨kind, hkind, rfl⟩ := h
    · refine .inl ⟨?_, hready _ hunit rfl rfl⟩
      rw [Survey.openedScan, hkind] at hreach
      rw [scan, hsaved, hautocap]
      exact hreach
    · refine .inl ⟨?_, hready _ hunit rfl rfl⟩
      rw [Survey.openedScan, hkind] at hreach
      rw [scan, List.map_cons, hsaved, hautocap, hflags]
      exact hreach

/-! ### One round -/

theorem closeGroup_scan (h : r.closeGroup = .ok r') : r'.scan = r.scan.restore := by
  obtain ⟨f, rest, n, _, _, ⟨_, rfl⟩ | ⟨_, rfl⟩⟩ := closeGroup_cases h
  · exact restore_scan _
  · exact restore_scan _

/-- The reader goes on to a quantifier from where the survey comes to. -/
theorem reaches_quantifier {q : Reader} (hq : Reaches v q.scan) (hignore : q.ignoreNext = false)
    (h : q.quantifier = .ok r') : Reaches v r'.scan ∧ Ready r' := by
  obtain ⟨hreach, hunit, hnext⟩ := quantifier_reaches hignore h
  exact ⟨hq.trans hreach, hunit, fun htrue => Bool.noConfusion (hnext.symm.trans htrue)⟩

theorem special_reaches {nested : Bool}
    (hv : v.cursor.rest = ch :: rest) (hr : r.scan = { v with cursor := ⟨v.cursor.pos + 1, rest⟩ })
    (hclear : Clear v.cursor.rest) (hgroup : ch = '(' → rest.take 2 ≠ ['?', '#'])
    (hignore : ch ≠ '(' → v.ignoreNext = false) (hunit : Cursor.isQuantifier ch = false → r.unit = none)
    (h : r.special e ch nested = .ok r') : (Reaches v r'.scan ∧ Ready r') ∨ Doomed r' := by
  have hcursor : r.cursor = ⟨v.cursor.pos + 1, rest⟩ := congrArg Scan.cursor hr
  have hnext : r.ignoreNext = v.ignoreNext := congrArg Scan.ignoreNext hr
  have hmove : ∀ c : Cursor, { r.scan with cursor := c } = { v with cursor := c } := fun c => by rw [hr]
  -- A character that is nothing to the survey and that may be quantified.
  have hone : PlainOrDash ch → ∀ l, (r.withUnit l).quantifier = .ok r' → Reaches v r'.scan ∧ Ready r' := by
    intro hplain l h
    have hreach : Reaches v r.scan := hr ▸ Survey.reaches_plain (.one hv hplain)
    have hne : ch ≠ '(' := fun heq => absurd hplain (heq ▸ by decide)
    exact reaches_quantifier (q := r.withUnit l) hreach (hnext.trans (hignore hne)) h
  unfold special at h
  split at h
  · obtain ⟨⟨k, c⟩, hk, h⟩ := exists_ok_of_bind h
    have hreach : Reaches v { r.withUnit (.test (.set k)) with cursor := c }.scan := by
      show Reaches v { r.scan with cursor := c }
      rw [hmove]
      rw [hcursor] at hk
      exact Survey.reaches_bracket hv rfl hclear hk
    exact .inl (reaches_quantifier hreach (hnext.trans (hignore (by decide))) h)
  · exact openGroup_reaches hv hr (hgroup rfl) (hunit (by decide)) h
  · cases h
    refine .inl ⟨?_, hunit (by decide), fun htrue => ?_⟩
    · show Reaches v r.scan
      rw [hr]
      exact Survey.reaches_plain (.one hv (by decide))
    · exact Bool.noConfusion ((hnext.trans (hignore (by decide))).symm.trans htrue)
  · obtain ⟨r₁, hclose, h⟩ := exists_ok_of_bind h
    have hscan := closeGroup_scan hclose
    rw [hr, Scan.restore_move] at hscan
    have hreach : Reaches v r₁.scan := hscan ▸ Survey.reaches_close hv
    have hnext₁ : r₁.ignoreNext = false :=
      (congrArg Scan.ignoreNext hscan).trans ((Scan.restore_ignoreNext v).trans (hignore (by decide)))
    split at h
    · exact .inl (reaches_quantifier hreach hnext₁ h)
    · rename_i hnone
      cases h
      refine .inl ⟨hreach, ?_, fun htrue => Bool.noConfusion (hnext₁.symm.trans htrue)⟩
      exact Option.not_isSome_iff_eq_none.mp hnone
  · obtain ⟨⟨l, c⟩, hl, h⟩ := exists_ok_of_bind h
    have hreach : Reaches v { r.withUnit l with cursor := c }.scan := by
      show Reaches v { r.scan with cursor := c }
      rw [hmove]
      rw [hcursor] at hl
      exact Survey.reaches_escape hv rfl hclear hl
    exact .inl (reaches_quantifier hreach (hnext.trans (hignore (by decide))) h)
  · exact .inl (hone (by decide) _ h)
  · exact .inl (hone (by decide) _ h)
  · exact .inl (hone (by decide) _ h)
  · rename_i hne _ _ _ _ _ _
    split at h
    · refine .inl (reaches_quantifier ?_ ?_ h)
      · show Reaches v { r.scan with cursor := ⟨r.cursor.pos - 1, ch :: r.cursor.rest⟩ }
        rw [hmove, hcursor]
        exact Survey.reaches_of_eq (by rw [Nat.add_sub_cancel, ← hv])
      · exact hnext.trans (hignore hne)
    · split at h <;> cases h

/-- Where blanks end, neither a blank begins nor a comment. -/
theorem skipBlanksFrom_ends {spaces : Bool} {mode : Cursor.Blank} {pos : Nat} {cs : List Char}
    (h : Cursor.skipBlanksFrom spaces mode pos cs = .ok c) (hc : c.rest = ch :: rest) :
    (spaces && (Cursor.isSpace ch || ch == '#')) = false ∧ (ch = '(' → rest.take 2 ≠ ['?', '#']) := by
  induction cs generalizing mode pos with
  | nil => cases mode <;> cases h <;> cases hc
  | cons d cs ih =>
    cases mode with
    | between =>
      rw [Cursor.skipBlanksFrom] at h
      split at h
      · exact ih h
      rename_i hspace
      split at h
      · exact ih h
      rename_i hhash
      split at h
      · exact ih h
      · rename_i hcomment
        cases h
        cases hc
        refine ⟨?_, fun hch htake => hcomment (by rw [hch, htake]; rfl)⟩
        cases spaces with
        | false => rfl
        | true => simp_all
    | line | paren => exact ih h

theorem skipBlanks_stays (hc : c.rest = ch :: rest) (hspace : Cursor.isSpace ch = false) (hline : ch ≠ '#')
    (hparen : ch = '(' → rest.take 2 ≠ ['?', '#']) (o : Options) : c.skipBlanks o = .ok c := by
  have hcomment : ¬ (ch == '(' && rest.take 2 == ['?', '#']) = true := fun h => by
    simp only [Bool.and_eq_true, beq_iff_eq] at h
    exact hparen h.1 h.2
  have hhash : ¬ (o.ignoreWhitespace && ch == '#') = true := fun h => by
    simp only [Bool.and_eq_true, beq_iff_eq] at h
    exact hline h.2
  rw [Cursor.skipBlanks, hc, Cursor.skipBlanksFrom, hspace, Bool.and_false, if_neg Bool.false_ne_true,
    if_neg hhash, if_neg hcomment, ← hc]

theorem literalRun_stays (hc : c.rest = ch :: rest)
    (hspecial : Cursor.isSpecial ch = true) (hbrace : ch ≠ '\x7b') (o : Options) :
    c.literalRun o = ([], c) := by
  have hends : Cursor.endsRun o.ignoreWhitespace ch rest = true := by
    rw [Cursor.endsRun, hspecial, beq_false_of_ne hbrace]
    rfl
  have hrun : Cursor.literalRunFrom o.ignoreWhitespace c.rest = [] := by
    rw [hc, Cursor.literalRunFrom, if_pos hends]
  rw [Cursor.literalRun, hrun]
  rfl

/-- At a group there are no blanks. -/
theorem skipBlanks_atGroup (hc : AtGroup c) (o : Options) : c.skipBlanks o = .ok c := by
  obtain ⟨rest, hrest, htake⟩ := hc
  exact skipBlanks_stays hrest (by decide) (by decide) (fun _ => htake) o

/-- At a group there are no literal characters. -/
theorem literalRun_atGroup (hc : AtGroup c) (o : Options) : c.literalRun o = ([], c) := by
  obtain ⟨rest, hrest, _⟩ := hc
  exact literalRun_stays hrest (by decide) (by decide) o

/-- What the reader skips before a construct, the survey passes over. -/
theorem blanks_reaches {c₁ c₂ : Cursor} (hready : Ready r) (h₁ : r.cursor.skipBlanks r.options = .ok c₁)
    (h₂ : (c₁.literalRun r.options).2.skipBlanks r.options = .ok c₂) :
    Reaches r.scan { r.scan with cursor := c₂ } ∧ (r.ignoreNext = true → AtGroup c₂) := by
  cases hignore : r.ignoreNext with
  | true =>
    have hgroup := hready.condition hignore
    rw [skipBlanks_atGroup hgroup] at h₁
    cases h₁
    rw [literalRun_atGroup hgroup, skipBlanks_atGroup hgroup] at h₂
    cases h₂
    exact ⟨.refl _, fun _ => hgroup⟩
  | false =>
    refine ⟨?_, nofun⟩
    have hfirst : Reaches r.scan { r.scan with cursor := c₁ } := Survey.reaches_blanks hignore h₁
    have hrun := Survey.reaches_passes (v := { r.scan with cursor := c₁ })
      (Survey.literalRun_passes c₁ r.options)
    have hlast := Survey.reaches_blanks
      (v := { r.scan with cursor := (c₁.literalRun r.options).2 }) hignore h₂
    exact hfirst.trans (hrun.trans hlast)

theorem special_question {nested : Bool} (hunit : r.unit = none) : r.special e '?' nested ≠ .ok r' := by
  show (if r.unit.isSome = true then _ else if nested = true then _ else _) ≠ _
  rw [hunit]
  cases nested <;> exact nofun

theorem Doomed.step_error (hr : r.Doomed) : r.step e ≠ .ok r' := by
  obtain ⟨rest, hrest⟩ := List.head?_eq_some_iff.mp hr.mark
  have hblanks : r.cursor.skipBlanks r.options = .ok r.cursor :=
    skipBlanks_stays hrest (by decide) (by decide) (fun heq => absurd heq (by decide)) r.options
  have hliteral := literalRun_stays hrest (by decide) (by decide) r.options
  intro h
  obtain ⟨c₁, hc₁, h⟩ := exists_ok_of_bind h
  rw [hblanks] at hc₁
  cases hc₁
  rw [hliteral] at h
  obtain ⟨c₂, hc₂, h⟩ := exists_ok_of_bind h
  rw [hblanks] at hc₂
  cases hc₂
  simp only [hrest] at h
  rw [if_pos (by decide), if_pos (by decide)] at h
  refine special_question ?_ h
  exact hr.unit

theorem Doomed.finish_error (hr : r.Doomed) : r.finish ≠ .ok root := by
  obtain ⟨f, outer, houter⟩ := List.exists_cons_of_ne_nil hr.outer
  rw [finish, houter]
  nofun

theorem Doomed.run_error (hr : r.Doomed) {rounds : Nat} (h : run e rounds r = .ok r')
    (hfinish : r'.finish = .ok root) : False := by
  cases rounds with
  | zero =>
    cases h
    exact hr.finish_error hfinish
  | succ rounds =>
    rw [run] at h
    split at h
    · cases h
      exact hr.finish_error hfinish
    · obtain ⟨r₁, hstep, _⟩ := exists_ok_of_bind h
      exact hr.step_error hstep

/-- **One round of the reader**: the survey reaches the end of what it takes, or the reader is about
to fail. -/
theorem step_reaches (hready : Ready r) (hclear : Clear r.cursor.rest) (h : r.step e = .ok r') :
    (Reaches r.scan r'.scan ∧ Ready r') ∨ Doomed r' := by
  obtain ⟨c₁, hc₁, h⟩ := exists_ok_of_bind h
  obtain ⟨c₂, hc₂, h⟩ := exists_ok_of_bind h
  obtain ⟨hreach, hgroup⟩ := blanks_reaches hready hc₁ hc₂
  have hsuffix : c₂.rest <:+ r.cursor.rest :=
    ((((Cursor.skipBlanks_keeps ..).of_ok hc₁).trans (Cursor.literalRun_ahead c₁ r.options)).trans
      ((Cursor.skipBlanks_keeps ..).of_ok hc₂)).suffix
  dsimp only at h
  -- A run of literal characters alone.
  have hrun : ∀ run, Reaches r.scan ({ r with cursor := c₂, afterQuantifier := false }.addRun e run).scan ∧
      Ready ({ r with cursor := c₂, afterQuantifier := false }.addRun e run) := by
    intro run
    have hscan := addRun_scan e { r with cursor := c₂, afterQuantifier := false } run
    refine ⟨hscan ▸ hreach, (addRun_unit e _ run).trans hready.unit, fun hignore => ?_⟩
    have hcursor : ({ r with cursor := c₂, afterQuantifier := false }.addRun e run).cursor = c₂ :=
      congrArg Scan.cursor hscan
    rw [hcursor]
    exact hgroup ((congrArg Scan.ignoreNext hscan).symm.trans hignore)
  split at h
  · cases h
    exact .inl (hrun _)
  rename_i ch rest hrest
  split at h
  · have hnext : ch ≠ '(' → r.ignoreNext = false := fun hne => Bool.eq_false_iff.mpr fun htrue => by
      obtain ⟨rest', hrest', _⟩ := hgroup htrue
      exact hne (List.cons.inj (hrest.symm.trans hrest')).1
    have hspecial := special_reaches (v := { r.scan with cursor := c₂ }) hrest ?_ (hclear.of_suffix hsuffix)
      (skipBlanksFrom_ends hc₂ hrest).2 hnext ?_ h
    · rcases hspecial with ⟨hreach', hready'⟩ | hdoomed
      · exact .inl ⟨hreach.trans hreach', hready'⟩
      · exact .inr hdoomed
    · split
      · exact congrArg (fun v : Scan => { v with cursor := ⟨c₂.pos + 1, rest⟩ }) (addRunQuantified_scan e _ _)
      · exact congrArg (fun v : Scan => { v with cursor := ⟨c₂.pos + 1, rest⟩ }) (addRun_scan e _ _)
    · intro hquantifier
      rw [if_neg (by rw [hquantifier]; nofun)]
      exact (addRun_unit e _ _).trans hready.unit
  · cases h
    exact .inl (hrun _)

/-- The reader has given no number that the survey does not give. -/
theorem run_autocap {s : Survey} {rounds : Nat} (hs : s.scan = r.scan) (hready : Ready r)
    (hclear : Clear r.cursor.rest) (h : run e rounds r = .ok r') (hfinish : r'.finish = .ok root) :
    ∃ s', Survey.Goes s s' ∧ s'.autocap = r'.autocap := by
  induction rounds generalizing r s with
  | zero =>
    cases h
    exact ⟨s, .refl s, congrArg Scan.autocap hs⟩
  | succ rounds ih =>
    rw [run] at h
    split at h
    · cases h
      exact ⟨s, .refl s, congrArg Scan.autocap hs⟩
    · obtain ⟨r₁, hstep, h⟩ := exists_ok_of_bind h
      rcases step_reaches hready hclear hstep with ⟨hreach, hready₁⟩ | hdoomed
      · obtain ⟨s₁, hgoes, hs₁⟩ := hreach s hs
        have hcursor : ∀ {s : Survey} {r : Reader}, s.scan = r.scan → s.cursor = r.cursor :=
          fun hs => congrArg Scan.cursor hs
        have hsuffix := hgoes.suffix
        rw [hcursor hs, hcursor hs₁] at hsuffix
        obtain ⟨s', hgoes', hs'⟩ := ih hs₁ hready₁ (hclear.of_suffix hsuffix) h
        exact ⟨s', hgoes.trans hgoes', hs'⟩
      · exact (hdoomed.run_error h hfinish).elim

end Reader
end PatternCompiler
