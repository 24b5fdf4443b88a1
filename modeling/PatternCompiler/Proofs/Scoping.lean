import PatternCompiler.Proofs.Progress

/-! Options hold up to the end of the group they are changed in.

The groups that are open and the options to return to are kept in two lists. A round of the
reader leaves both as they are, or puts an entry on both at an opening parenthesis, or takes
one from both at a closing one (`Reader.step_scopes`). So what was saved when a group was
opened lies below all that is saved inside of it (`Reader.Above`), and comes back when the
group is closed, whatever was read in between. Parentheses that hold only flags open nothing:
they change the options and leave both lists alone (`Reader.Meets.step_flags`). -/
namespace PatternCompiler

/-! ### Flags -/

namespace Cursor

variable {c after : Cursor} {o : Options} {flags rest : List Char} {ch : Char}

/-- A character that flags are made of. -/
def isFlag (ch : Char) : Bool := ch == '-' || ch == '+' || (Options.ofInlineFlag? ch).isSome

/-- The options after some flags. -/
def flagged (o : Options) (flags : List Char) : Options := (flagsFrom o true 0 flags).1

/-- Parentheses that hold only flags are ahead, and `after` is past them. -/
structure AtFlags (c : Cursor) (flags : List Char) (after : Cursor) : Prop where
  nonempty : flags ≠ []
  all : ∀ ch ∈ flags, isFlag ch = true
  text : c.rest = '(' :: '?' :: (flags ++ ')' :: after.rest)
  pos : after.pos = c.pos + (flags.length + 3)

theorem flagsFrom_flag (h : isFlag ch = true) (o : Options) (on : Bool) :
    ∃ o' on', ∀ pos rest, flagsFrom o on pos (ch :: rest) = flagsFrom o' on' (pos + 1) rest := by
  simp only [flagsFrom]
  by_cases hminus : ch = '-'
  · exact ⟨o, false, fun _ _ => if_pos hminus⟩
  by_cases hplus : ch = '+'
  · exact ⟨o, true, fun _ _ => (if_neg hminus).trans (if_pos hplus)⟩
  obtain ⟨flag, hflag⟩ : ∃ flag, Options.ofInlineFlag? ch = some flag := by
    simpa [isFlag, hminus, hplus, Option.isSome_iff_exists] using h
  refine ⟨o.set flag on, on, fun pos rest => ?_⟩
  rw [if_neg hminus, if_neg hplus, hflag]

theorem flagsFrom_other (h : isFlag ch = false) (o : Options) (on : Bool) (pos : Nat) (rest : List Char) :
    flagsFrom o on pos (ch :: rest) = (o, ⟨pos, ch :: rest⟩) := by
  simp only [isFlag, Bool.or_eq_false_iff, beq_eq_false_iff_ne, Option.isSome_eq_false_iff,
    Option.isNone_iff_eq_none] at h
  obtain ⟨⟨hminus, hplus⟩, hnone⟩ := h
  rw [flagsFrom, if_neg hminus, if_neg hplus, hnone]

/-- Flags are read up to the first character that is none. -/
theorem flagsFrom_append (hflags : ∀ ch ∈ flags, isFlag ch = true)
    (hrest : ∀ ch ∈ rest.head?, isFlag ch = false) (o : Options) (on : Bool) (pos pos' : Nat) :
    flagsFrom o on pos (flags ++ rest) =
      ((flagsFrom o on pos' flags).1, ⟨pos + flags.length, rest⟩) := by
  induction flags generalizing o on pos pos' with
  | nil =>
    cases rest with
    | nil => rfl
    | cons ch rest => exact flagsFrom_other (hrest ch rfl) o on pos rest
  | cons ch flags ih =>
    obtain ⟨hch, hflags⟩ := List.forall_mem_cons.mp hflags
    obtain ⟨o', on', hstep⟩ := flagsFrom_flag hch o on
    rw [List.cons_append, hstep, hstep, ih hflags o' on' (pos + 1) (pos' + 1), List.length_cons,
      Nat.add_comm flags.length, Nat.add_assoc]

theorem flags_append (hflags : ∀ ch ∈ flags, isFlag ch = true)
    (hrest : ∀ ch ∈ rest.head?, isFlag ch = false) (hc : c.rest = flags ++ rest) (o : Options) :
    c.flags o = (flagged o flags, ⟨c.pos + flags.length, rest⟩) := by
  rw [Cursor.flags, hc]
  exact flagsFrom_append hflags hrest o true c.pos 0

/-- What flags lead to is a group of flags only if they are closed at once. -/
theorem flags_close (o : Options) (h : (c.flags o).2.rest = ')' :: rest) :
    ∃ flags, (∀ ch ∈ flags, isFlag ch = true) ∧ c.rest = flags ++ ')' :: rest ∧
      (c.flags o).2.pos = c.pos + flags.length ∧ (c.flags o).1 = flagged o flags := by
  have hall : ∀ ch ∈ c.rest.takeWhile isFlag, isFlag ch = true := fun ch => List.mem_takeWhile_imp
  have hrest : ∀ ch ∈ (c.rest.dropWhile isFlag).head?, isFlag ch = false := by
    intro ch hch
    have := List.head?_dropWhile_not isFlag c.rest
    rw [hch] at this
    exact this
  have hsplit := (List.takeWhile_append_dropWhile (p := isFlag) (l := c.rest)).symm
  rw [flags_append hall hrest hsplit o] at h ⊢
  have hclose : c.rest.dropWhile isFlag = ')' :: rest := h
  exact ⟨_, hall, hclose ▸ hsplit, rfl, rfl⟩

/-- What opens no group is flags between parentheses. -/
theorem opening?_none {t : GroupTable} {p : Opening} (h : c.opening? t o = .ok (some p))
    (hkind : p.kind = none) :
    ∃ flags, flags ≠ [] ∧ (∀ ch ∈ flags, isFlag ch = true) ∧
      c.rest = '?' :: (flags ++ ')' :: p.cursor.rest) ∧ p.cursor.pos = c.pos + (flags.length + 2) ∧
      p.options = flagged o flags := by
  obtain ⟨rest, hrest, hclosed, hmarked⟩ := opening?_marked h
  cases hmarked with
  | flags _ hflags hclose =>
    rcases hclose with ⟨rfl, _⟩ | ⟨_, rfl⟩
    · obtain ⟨flags, hall, htext, hpos, hoptions⟩ := flags_close o hflags
      simp only at htext hpos
      refine ⟨flags, ?_, hall, htext ▸ hrest, by simp only; omega, hoptions⟩
      rintro rfl
      exact hclosed _ htext
    · cases hkind
  | _ => cases hkind

theorem markedOpening_flags (t : GroupTable) (o : Options) (hflag : isFlag ch = true)
    (hc : c.rest = ch :: rest) : markedOpening t o c = flagGroup o c := by
  unfold markedOpening
  dsimp only
  rw [hc]
  split
  case h_9 => rfl
  all_goals
    rename_i heq
    cases heq
  all_goals exact absurd hflag (by decide)

/-- Parentheses that hold only flags open no group. -/
theorem AtFlags.opening? (h : c.AtFlags flags after) (t : GroupTable) (o : Options) :
    Cursor.opening? t o ⟨c.pos + 1, '?' :: (flags ++ ')' :: after.rest)⟩ =
      .ok (some { kind := none, options := flagged o flags, cursor := after }) := by
  obtain ⟨ch, rest, rfl⟩ := List.exists_cons_of_ne_nil h.nonempty
  have hch := h.all ch List.mem_cons_self
  have hclose : ch ≠ ')' := fun heq => by rw [heq] at hch; exact absurd hch (by decide)
  have hread : flags ⟨c.pos + 1 + 1, (ch :: rest) ++ ')' :: after.rest⟩ o = _ :=
    flags_append h.all (by simp; decide) rfl o
  have hafter : (⟨c.pos + 1 + 1 + (ch :: rest).length + 1, after.rest⟩ : Cursor) = after := by
    obtain ⟨pos, cs⟩ := after
    have hpos := h.pos
    simp only at hpos
    rw [hpos]
    congr 1
    omega
  unfold Cursor.opening?
  split
  · rename_i heq
    exact absurd (List.cons.inj (List.cons.inj heq).2).1 hclose
  · rename_i heq
    cases heq
    rw [markedOpening_flags t o hch rfl, flagGroup, hread]
    show Except.ok _ = _
    rw [hafter]
  · rename_i hno
    exact absurd rfl (hno _)

end Cursor

/-! ### One round -/

namespace Reader

variable {r r₁ r₂ r' : Reader} {e : Setting} {run flags rest : List Char} {c after : Cursor} {ch : Char}

/-- The next round takes the literal characters `run` and comes to what is ahead of `c`. -/
def Meets (r : Reader) (run : List Char) (c : Cursor) : Prop :=
  ∃ c₁, r.cursor.skipBlanks r.options = .ok c₁ ∧ (c₁.literalRun r.options).1 = run ∧
    (c₁.literalRun r.options).2.skipBlanks r.options = .ok c

/-- The reader behind the literal characters that a round begins with. -/
def taken (e : Setting) (r : Reader) (run : List Char) (c : Cursor) : Reader :=
  { r with cursor := c, afterQuantifier := false }.addRun e run

theorem taken_frame (e : Setting) (r : Reader) (run : List Char) (c : Cursor) :
    (r.taken e run c).frame = (r.addRun e run).frame := by
  rcases run with _ | ⟨_, _ | ⟨_, _⟩⟩ <;> rfl

theorem Meets.step_special (h : r.Meets run c) (hc : c.rest = ch :: rest)
    (hspecial : Cursor.isSpecial ch = true) (hquantifier : Cursor.isQuantifier ch = false) :
    r.step e = { r.taken e run c with cursor := ⟨c.pos + 1, rest⟩ }.special e ch
      (r.afterQuantifier && run.isEmpty) := by
  obtain ⟨c₁, hfirst, rfl, hsecond⟩ := h
  simp only [step, hfirst, hsecond, hc, bind, Except.bind, hspecial, hquantifier, if_true]
  rfl

/-- The groups that are open, the options that hold and those to return to are the same. -/
structure SameScope (r r' : Reader) : Prop where
  outer : r'.outer = r.outer
  saved : r'.saved = r.saved
  options : r'.options = r.options

theorem SameScope.trans (h : SameScope r r₁) (h' : SameScope r₁ r') : SameScope r r' :=
  ⟨h'.outer.trans h.outer, h'.saved.trans h.saved, h'.options.trans h.options⟩

theorem addRun_sameScope (e : Setting) (r : Reader) (run : List Char) : SameScope r (r.addRun e run) := by
  unfold addRun
  split <;> exact ⟨rfl, rfl, rfl⟩

theorem addRunQuantified_sameScope (e : Setting) (r : Reader) (run : List Char) :
    SameScope r (r.addRunQuantified e run) := by
  unfold addRunQuantified
  split
  · exact ⟨rfl, rfl, rfl⟩
  · obtain ⟨houter, hsaved, hoptions⟩ := addRun_sameScope e r run.dropLast
    exact ⟨houter, hsaved, hoptions⟩

theorem place_sameScope (r : Reader) : SameScope r r.place := by
  unfold place
  split <;> exact ⟨rfl, rfl, rfl⟩

theorem placeQuantified_sameScope (r : Reader) (lazy : Bool) (min max : Nat) :
    SameScope r (r.placeQuantified lazy min max) := by
  unfold placeQuantified
  split <;> exact ⟨rfl, rfl, rfl⟩

theorem quantifier_sameScope (h : r.quantifier = .ok r') : SameScope r r' := by
  obtain ⟨c, _, ⟨after, rfl⟩ | ⟨min, max, c₁, c₂, lazy, _, _, _, rfl⟩⟩ := quantifier_cases h
  · obtain ⟨houter, hsaved, hoptions⟩ := place_sameScope r
    exact ⟨houter, hsaved, hoptions⟩
  · obtain ⟨houter, hsaved, hoptions⟩ := placeQuantified_sameScope r lazy min max
    exact ⟨houter, hsaved, hoptions⟩

/-- What a round can do to the groups that are open and to the options. -/
inductive Scopes (r r' : Reader) : Prop where
  | stays (h : SameScope r r')
  | flags {run flags : List Char} {c after : Cursor} (hmeets : r.Meets run c)
      (hflags : c.AtFlags flags after) (houter : r'.outer = r.outer) (hsaved : r'.saved = r.saved)
      (hoptions : r'.options = Cursor.flagged r.options flags)
  | opens {run rest : List Char} {c : Cursor} {f : Frame} (hmeets : r.Meets run c)
      (hc : c.rest = '(' :: rest) (houter : r'.outer = f :: r.outer)
      (hsaved : r'.saved = r.options :: r.saved)
  | closes {run rest : List Char} {c : Cursor} {f : Frame} (hmeets : r.Meets run c)
      (hc : c.rest = ')' :: rest) (houter : r.outer = f :: r'.outer)
      (hrestored : ∀ o saved, r.saved = o :: saved → r'.options = o ∧ r'.saved = saved)

/-- An opening parenthesis, met in a state that has the scope of `r`. -/
theorem openGroup_scopes (hmeets : r.Meets run c) (hc : c.rest = '(' :: rest) (hsame : SameScope r r₁)
    (hcursor : r₁.cursor = ⟨c.pos + 1, rest⟩) (h : r₁.openGroup e = .ok r') : Scopes r r' := by
  obtain ⟨_, rfl⟩ | ⟨p, hopening, ⟨hkind, rfl⟩ | ⟨kind, _, rfl⟩⟩ := openGroup_cases h
  · refine .opens (f := r₁.frame) hmeets hc ?_ ?_
    · exact (unmarked_outer r₁).trans (congrArg _ hsame.outer)
    · show r₁.options :: r₁.saved = _
      rw [hsame.options, hsame.saved]
  · obtain ⟨flags, hnonempty, hall, htext, hpos, hoptions⟩ := Cursor.opening?_none hopening hkind
    rw [hcursor] at htext hpos
    refine .flags hmeets ⟨hnonempty, hall, hc.trans (congrArg _ htext), ?_⟩ hsame.outer hsame.saved ?_
    · simp only at hpos
      omega
    · rw [← hsame.options]
      exact hoptions
  · refine .opens (f := r₁.frame) hmeets hc (congrArg _ hsame.outer) ?_
    show r₁.options :: r₁.saved = _
    rw [hsame.options, hsame.saved]

theorem closeGroup_scopes (hmeets : r.Meets run c) (hc : c.rest = ')' :: rest) (hsame : SameScope r r₁)
    (h : r₁.closeGroup = .ok r₂) (hafter : SameScope r₂ r') : Scopes r r' := by
  obtain ⟨f, outer, n, houter, _, hclosed⟩ := closeGroup_cases h
  have hrestored : r₂.outer = outer ∧
      ∀ o saved, r₁.saved = o :: saved → r₂.options = o ∧ r₂.saved = saved := by
    obtain ⟨_, rfl⟩ | ⟨_, rfl⟩ := hclosed
    all_goals
      unfold restore
      refine ⟨by split <;> rfl, fun o saved hsaved => ?_⟩
      simp [hsaved]
  refine .closes (f := f) hmeets hc ?_ fun o saved hsaved => ?_
  · rw [← hsame.outer, houter, hafter.outer, hrestored.1]
  · obtain ⟨hoptions, hsaved'⟩ := hrestored.2 o saved (hsame.saved.trans hsaved)
    exact ⟨hafter.options.trans hoptions, hafter.saved.trans hsaved'⟩

/-- A construct that was met after literal characters. -/
theorem special_scopes (hmeets : r.Meets run c) (hc : c.rest = ch :: rest) (hsame : SameScope r r₁)
    (hcursor : r₁.cursor = ⟨c.pos + 1, rest⟩) {nested : Bool} (h : r₁.special e ch nested = .ok r') :
    Scopes r r' := by
  have hquantifier {q : Reader} (h : q.quantifier = .ok r') (hq : SameScope r q) : Scopes r r' :=
    .stays (hq.trans (quantifier_sameScope h))
  unfold special at h
  split at h
  · obtain ⟨⟨k, c'⟩, _, h⟩ := exists_ok_of_bind h
    exact hquantifier h ⟨hsame.outer, hsame.saved, hsame.options⟩
  · exact openGroup_scopes hmeets hc hsame hcursor h
  · cases h
    exact .stays ⟨hsame.outer, hsame.saved, hsame.options⟩
  · obtain ⟨r₂, hclose, h⟩ := exists_ok_of_bind h
    refine closeGroup_scopes hmeets hc hsame hclose ?_
    split at h
    · exact quantifier_sameScope h
    · cases h
      exact ⟨rfl, rfl, rfl⟩
  · obtain ⟨⟨l, c'⟩, _, h⟩ := exists_ok_of_bind h
    exact hquantifier h ⟨hsame.outer, hsame.saved, hsame.options⟩
  · exact hquantifier h ⟨hsame.outer, hsame.saved, hsame.options⟩
  · exact hquantifier h ⟨hsame.outer, hsame.saved, hsame.options⟩
  · exact hquantifier h ⟨hsame.outer, hsame.saved, hsame.options⟩
  · split at h
    · exact hquantifier h ⟨hsame.outer, hsame.saved, hsame.options⟩
    · split at h <;> cases h

/-- **A round opens a group, closes one, reads flags or leaves the options as they are.** -/
theorem step_scopes (h : r.step e = .ok r') : Scopes r r' := by
  obtain ⟨c₁, hfirst, h⟩ := exists_ok_of_bind h
  dsimp only at h
  obtain ⟨c, hsecond, h⟩ := exists_ok_of_bind h
  have hmeets : r.Meets (c₁.literalRun r.options).1 c := ⟨c₁, hfirst, rfl, hsecond⟩
  have hrun := addRun_sameScope e { r with cursor := c, afterQuantifier := false } (c₁.literalRun r.options).1
  split at h
  · cases h
    exact .stays ⟨hrun.outer, hrun.saved, hrun.options⟩
  rename_i ch rest hc
  split at h
  · refine special_scopes hmeets hc ?_ rfl h
    split
    · have hquantified :=
        addRunQuantified_sameScope e { r with cursor := c, afterQuantifier := false } (c₁.literalRun r.options).1
      exact ⟨hquantified.outer, hquantified.saved, hquantified.options⟩
    · exact ⟨hrun.outer, hrun.saved, hrun.options⟩
  · cases h
    exact .stays ⟨hrun.outer, hrun.saved, hrun.options⟩

/-- Flags between parentheses change the options, and nothing else but the place. -/
theorem Meets.step_flags (h : r.Meets run c) (hflags : c.AtFlags flags after) :
    r.step e = .ok { r.taken e run c with
      cursor := after, options := Cursor.flagged r.options flags, ignoreNext := false } := by
  have hoptions : (r.taken e run c).options = r.options := (addRun_sameScope e _ run).options
  have hopening := hflags.opening? e.table r.options
  rw [h.step_special hflags.text (by decide) (by decide)]
  show openGroup e _ = _
  simp only [openGroup, hoptions, hopening, bind, Except.bind]

/-! ### Whole groups -/

/-- Rounds none of which ends with as few as `depth` groups around the innermost one. -/
inductive Within (e : Setting) (depth : Nat) : Reader → Reader → Prop where
  | refl {r : Reader} (hdeep : depth < r.outer.length) : Within e depth r r
  | step {r r₁ r' : Reader} (hdeep : depth < r.outer.length) (hstep : r.step e = .ok r₁)
      (hwithin : Within e depth r₁ r') : Within e depth r r'

/-- The rounds from the one that opens a group to the one that closes it, which begins at `last`. -/
structure Encloses (e : Setting) (r last r' : Reader) : Prop where
  rounds : ∃ r₁, r.step e = .ok r₁ ∧ Within e r.outer.length r₁ last
  closing : last.step e = .ok r'
  back : r'.outer.length ≤ r.outer.length

/-- The first round that ends with no more than `depth` groups around the innermost one, looked for in as
many rounds: the states before and after it. -/
def leaving? (e : Setting) (depth : Nat) : (rounds : Nat) → Reader → Option (Reader × Reader)
  | 0, _ => none
  | rounds + 1, r =>
    match r.step e with
    | .error _ => none
    | .ok r' => if depth < r'.outer.length then leaving? e depth rounds r' else some (r, r')

/-- The round that closes the group which the next round opens. -/
def enclosed? (e : Setting) (rounds : Nat) (r : Reader) : Option (Reader × Reader) :=
  match r.step e with
  | .error _ => none
  | .ok r₁ => if r.outer.length < r₁.outer.length then leaving? e r.outer.length rounds r₁ else none

theorem within_of_leaving? {depth rounds : Nat} {last : Reader} (hdeep : depth < r.outer.length)
    (h : leaving? e depth rounds r = some (last, r')) :
    Within e depth r last ∧ last.step e = .ok r' ∧ r'.outer.length ≤ depth := by
  induction rounds generalizing r with
  | zero => cases h
  | succ rounds ih =>
    rw [leaving?] at h
    split at h
    · cases h
    rename_i r₁ hstep
    split at h
    · rename_i hdeep₁
      obtain ⟨hwithin, hlast⟩ := ih hdeep₁ h
      exact ⟨.step hdeep hstep hwithin, hlast⟩
    · rename_i hback
      cases h
      exact ⟨.refl hdeep, hstep, Nat.le_of_not_lt hback⟩

theorem encloses_of_enclosed? {rounds : Nat} {last : Reader} (h : r.enclosed? e rounds = some (last, r')) :
    Encloses e r last r' := by
  unfold enclosed? at h
  split at h
  · cases h
  rename_i r₁ hstep
  split at h
  · obtain ⟨hwithin, hclosing, hback⟩ := within_of_leaving? ‹_› h
    exact ⟨⟨r₁, hstep, hwithin⟩, hclosing, hback⟩
  · cases h

/-- What was saved at `r` lies below all that has been saved since. -/
def Above (r r' : Reader) : Prop :=
  ∃ outer f saved, r'.outer = outer ++ f :: r.outer ∧ r'.saved = saved ++ r.options :: r.saved ∧
    outer.length = saved.length

theorem Above.deep (h : r.Above r') : r.outer.length < r'.outer.length := by
  obtain ⟨outer, f, saved, houter, _⟩ := h
  rw [houter, List.length_append, List.length_cons]
  omega

/-- A round inside of a group stays there, or closes it and brings back what was saved. -/
theorem Above.step (h : r.Above r₁) (hstep : r₁.step e = .ok r') :
    r.Above r' ∨ (SameScope r r' ∧ ∃ run c rest, r₁.Meets run c ∧ c.rest = ')' :: rest) := by
  obtain ⟨outer, f, saved, houter, hsaved, hlength⟩ := h
  cases step_scopes hstep with
  | stays h => exact .inl ⟨outer, f, saved, h.outer.trans houter, h.saved.trans hsaved, hlength⟩
  | flags _ _ houter' hsaved' _ =>
    exact .inl ⟨outer, f, saved, houter'.trans houter, hsaved'.trans hsaved, hlength⟩
  | @opens _ _ _ g _ _ houter' hsaved' =>
    refine .inl ⟨g :: outer, f, r₁.options :: saved, ?_, ?_, congrArg Nat.succ hlength⟩
    · rw [houter', houter, List.cons_append]
    · rw [hsaved', hsaved, List.cons_append]
  | @closes run rest c g hmeets hc houter' hrestored =>
    rw [houter] at houter'
    cases outer with
    | nil =>
      obtain rfl : saved = [] := List.length_eq_zero_iff.mp hlength.symm
      obtain ⟨hoptions, hsaved'⟩ := hrestored _ _ hsaved
      exact .inr ⟨⟨(List.cons.inj houter').2.symm, hsaved', hoptions⟩, run, c, rest, hmeets, hc⟩
    | cons g' outer =>
      obtain ⟨o, saved, rfl⟩ := List.exists_cons_of_length_eq_add_one hlength.symm
      obtain ⟨_, hsaved'⟩ := hrestored _ _ hsaved
      exact .inl ⟨outer, f, saved, (List.cons.inj houter').2.symm, hsaved', Nat.succ.inj hlength⟩

theorem Above.within (h : r.Above r₁) (hwithin : Within e r.outer.length r₁ r') : r.Above r' := by
  induction hwithin with
  | refl => exact h
  | @step r₁ r₂ r' _ hstep hwithin ih =>
    rcases h.step hstep with habove | ⟨hsame, _⟩
    · exact ih habove
    · have hdeep : r.outer.length < r₂.outer.length := by cases hwithin <;> assumption
      rw [hsame.outer] at hdeep
      exact absurd hdeep (Nat.lt_irrefl _)

theorem above_of_step (hstep : r.step e = .ok r') (hdeep : r.outer.length < r'.outer.length) :
    r.Above r' ∧ ∃ run c rest, r.Meets run c ∧ c.rest = '(' :: rest := by
  cases step_scopes hstep with
  | stays h => exact absurd hdeep (by rw [h.outer]; exact Nat.lt_irrefl _)
  | flags _ _ houter _ _ => exact absurd hdeep (by rw [houter]; exact Nat.lt_irrefl _)
  | @opens run rest c f hmeets hc houter hsaved =>
    exact ⟨⟨[], f, [], houter, hsaved, rfl⟩, run, c, rest, hmeets, hc⟩
  | closes _ _ houter _ =>
    rw [houter, List.length_cons] at hdeep
    omega

/-- **A group gives back what held before it.** -/
theorem Encloses.sameScope {last : Reader} (h : Encloses e r last r') :
    SameScope r r' ∧ (∃ run c rest, r.Meets run c ∧ c.rest = '(' :: rest) ∧
      ∃ run c rest, last.Meets run c ∧ c.rest = ')' :: rest := by
  obtain ⟨r₁, hopen, hwithin⟩ := h.rounds
  have hdeep : r.outer.length < r₁.outer.length := by cases hwithin <;> assumption
  obtain ⟨habove, hparen⟩ := above_of_step hopen hdeep
  rcases (habove.within hwithin).step h.closing with habove' | ⟨hsame, hclose⟩
  · exact absurd habove'.deep (Nat.not_lt.mpr h.back)
  · exact ⟨hsame, hparen, hclose⟩

end Reader

namespace Pattern

open Reader (Encloses Scopes SameScope)

/-- **Options are scoped by parentheses.** Before each round there are as many options to return to as
groups around the innermost one. From the opening parenthesis of a group to its closing one, the options
and those to return to come back to what they were. Flags between parentheses only change the options, and
outside of parentheses nothing does. -/
theorem options_scoped {text : String} {o : Options} {e : Setting} {rounds : Nat} {r : Reader}
    (h : Reader.run e rounds (Reader.start text.toList o) = .ok r) :
    r.saved.length = r.outer.length ∧
    (∀ last r', Encloses e r last r' →
      (∃ run c rest, r.Meets run c ∧ c.rest = '(' :: rest) ∧
      (∃ run c rest, last.Meets run c ∧ c.rest = ')' :: rest) ∧
      r'.options = r.options ∧ r'.saved = r.saved ∧ r'.outer = r.outer) ∧
    (∀ run c flags after, r.Meets run c → c.AtFlags flags after → ∃ r', r.step e = .ok r' ∧
      r'.cursor = after ∧ r'.options = Cursor.flagged r.options flags ∧ r'.saved = r.saved ∧
      r'.outer = r.outer ∧ r'.frame = (r.addRun e run).frame) ∧
    (∀ r', r.step e = .ok r' → Scopes r r') := by
  refine ⟨(reader_onTrack h).1.saved, fun last r' hgroup => ?_, fun run c flags after hmeets hflags => ?_,
    fun r' => Reader.step_scopes⟩
  · obtain ⟨hsame, hopen, hclose⟩ := hgroup.sameScope
    exact ⟨hopen, hclose, hsame.options, hsame.saved, hsame.outer⟩
  · have hsame := Reader.addRun_sameScope e { r with cursor := c, afterQuantifier := false } run
    exact ⟨_, hmeets.step_flags hflags, rfl, rfl, hsame.saved, hsame.outer, Reader.taken_frame e r run c⟩

/-- The group is opened under `i`; the flag and the lookbehind in it are gone after it. -/
theorem options_scoped_lookbehind :
    ∃ r last r', Reader.run ⟨.invariant, {}⟩ 1 (Reader.start "(?i)(a(?m)(?<=b))".toList {}) = .ok r ∧
      Encloses ⟨.invariant, {}⟩ r last r' ∧ last.options = { ignoreCase := true, multiline := true } ∧
      r.options = { ignoreCase := true } ∧ r'.options = r.options ∧ r'.saved = r.saved ∧
      r'.outer = r.outer := by
  obtain ⟨r, hr, hcheck⟩ := exists_ok_of_check
    (Reader.run ⟨.invariant, {}⟩ 1 (Reader.start "(?i)(a(?m)(?<=b))".toList {}))
    (fun r => decide (r.options = { ignoreCase := true }) &&
      (r.enclosed? ⟨.invariant, {}⟩ 5).any fun ends =>
        ends.1.options == { ignoreCase := true, multiline := true }) (by decide +kernel)
  rw [Bool.and_eq_true, decide_eq_true_eq, Option.any_eq_true] at hcheck
  obtain ⟨hoptions, ⟨last, r'⟩, hfound, hlast⟩ := hcheck
  have hgroup := Reader.encloses_of_enclosed? hfound
  obtain ⟨_, hscoped, _⟩ := @options_scoped "(?i)(a(?m)(?<=b))" _ _ _ _ hr
  exact ⟨r, last, r', hr, hgroup, beq_iff_eq.mp hlast, hoptions, (hscoped last r' hgroup).2.2⟩

end Pattern

end PatternCompiler
