import PatternCompiler.Pattern.Parse
import PatternCompiler.Proofs.Passing

/-! Reading stays on the text.

Where a reading goes back, it goes back to a cursor that it had before; so whatever is
read, the cursor that comes out is at or after the one that went in, on the same text
(`Ahead`), and a problem is found no further than at its end. `Keeps` says both of the
outcome of a reading, and there is one lemma for each of the functions that read. The
survey is made of such readings; each of its rounds takes a character at least
(`Survey.construct_keeps`), so it comes to the end of the text (`Survey.run_keeps`).

Three readings count their rounds, and the count never decides: each round takes a
character, so that with one round more than there are characters the result is the
same as with any greater number (`skipBracketFrom_rounds`, `levelFrom_rounds`,
`levelsFrom_rounds`). -/
namespace PatternCompiler

namespace Cursor

/-! ### Being ahead -/

/-- `c'` is on the text of `c`, at it or further on. -/
def Ahead (c c' : Cursor) : Prop := Passes (fun _ => True) c c'

/-- Where the text ends. -/
def stop (c : Cursor) : Nat := c.pos + c.rest.length

variable {c c' c'' : Cursor} {ch : Char} {rest : List Char}

theorem Passes.ahead {P : Char → Prop} (h : Passes P c c') : Ahead c c' := h.imp fun _ _ => trivial

theorem Ahead.refl (c : Cursor) : Ahead c c := Passes.refl c

theorem Ahead.trans (h : Ahead c c') (h' : Ahead c' c'') : Ahead c c'' := Passes.trans h h'

theorem Ahead.one (hc : c.rest = ch :: rest) : Ahead c ⟨c.pos + 1, rest⟩ := Passes.one hc trivial

theorem Ahead.stop_eq (h : Ahead c c') : c'.stop = c.stop := by
  obtain ⟨run, _, hrest, hpos⟩ := h
  rw [stop, stop, hrest, hpos, List.length_append, Nat.add_assoc]

theorem Ahead.le (h : Ahead c c') : c.pos ≤ c'.pos := by
  obtain ⟨run, _, _, hpos⟩ := h
  omega

theorem Ahead.le_stop (h : Ahead c c') : c'.pos ≤ c.stop := h.stop_eq ▸ Nat.le_add_right ..

theorem Ahead.suffix (h : Ahead c c') : c'.rest <:+ c.rest := Passes.suffix h

/-- `c'` is on the text of `c`, further on. -/
structure Beyond (c c' : Cursor) : Prop where
  ahead : Ahead c c'
  lt : c.pos < c'.pos

theorem Beyond.of_one (hc : c.rest = ch :: rest) (h : Ahead ⟨c.pos + 1, rest⟩ c') : Beyond c c' :=
  ⟨(Ahead.one hc).trans h, h.le⟩

theorem Beyond.trans (h : Beyond c c') (h' : Ahead c' c'') : Beyond c c'' :=
  ⟨h.ahead.trans h', Nat.lt_of_lt_of_le h.lt h'.le⟩

theorem Ahead.trans_beyond (h : Ahead c c') (h' : Beyond c' c'') : Beyond c c'' :=
  ⟨h.trans h'.ahead, Nat.lt_of_le_of_lt h.le h'.lt⟩

theorem Beyond.suffix (h : Beyond c c') (hc : c.rest = ch :: rest) : c'.rest <:+ rest := by
  obtain ⟨run, _, hrest, hpos⟩ := h.ahead
  have hlt := h.lt
  cases run with
  | nil => exact absurd hpos (Nat.ne_of_gt hlt)
  | cons d run =>
    rw [hc] at hrest
    exact ⟨run, (List.cons.inj hrest).2.symm⟩

theorem Beyond.length_lt (h : Beyond c c') : c'.rest.length < c.rest.length := by
  have hstop := h.ahead.stop_eq
  have hlt := h.lt
  unfold stop at hstop
  omega

/-! ### Outcomes -/

/-- A reading from `c` gives what `P` asks for, or a problem that is on the text. -/
def Keeps {α : Type} (c : Cursor) (P : α → Prop) : Except Problem α → Prop
  | .ok a => P a
  | .error problem => problem.offset ≤ c.stop

section
variable {α β : Type} {P : α → Prop} {Q : β → Prop} {x : Except Problem α}

theorem Keeps.imp {P' : α → Prop} (h : Keeps c P x) (himp : ∀ a, P a → P' a) : Keeps c P' x := by
  cases x with
  | ok a => exact himp a h
  | error problem => exact h

theorem Keeps.bind {f : α → Except Problem β} (h : Keeps c P x) (hf : ∀ a, P a → Keeps c Q (f a)) :
    Keeps c Q (x >>= f) := by
  cases x with
  | ok a => exact hf a h
  | error problem => exact h

/-- What is read further on. -/
theorem Ahead.keeps (h : Ahead c c') (hx : Keeps c' P x) : Keeps c P x := by
  cases x with
  | ok a => exact hx
  | error problem =>
    show problem.offset ≤ c.stop
    rw [← h.stop_eq]
    exact hx

theorem Ahead.fail (h : Ahead c c') (cause : SyntaxError.Cause) : Keeps c P (c'.fail cause) := h.le_stop

theorem Keeps.of_ok (h : Keeps c P x) {a : α} (hx : x = .ok a) : P a := by
  subst hx
  exact h

theorem Keeps.of_error (h : Keeps c P x) {problem : Problem} (hx : x = .error problem) :
    problem.offset ≤ c.stop := by
  subst hx
  exact h

end

/-! ### Numerals, names and blanks -/

theorem skipOne_ahead (c : Cursor) : Ahead c c.skipOne := by
  unfold skipOne
  split
  · exact .refl c
  · exact .one ‹_›

theorem skipChar_ahead (c : Cursor) (ch : Char) : Ahead c (c.skipChar ch) := skipChar_passes trivial c

theorem takeWhile_ahead (c : Cursor) (p : Char → Bool) : Ahead c (c.takeWhile p).2 :=
  takeWhile_passes (fun _ _ => trivial) c

theorem word_ahead (c : Cursor) : Ahead c c.word.2 := takeWhile_ahead c _

theorem decimalFrom_keeps (n pos : Nat) (cs : List Char) :
    Keeps ⟨pos, cs⟩ (fun a => Ahead ⟨pos, cs⟩ a.2) (decimalFrom n pos cs) := by
  induction cs generalizing n pos with
  | nil => exact .refl _
  | cons d rest ih =>
    have hone : Ahead ⟨pos, d :: rest⟩ ⟨pos + 1, rest⟩ := .one rfl
    rw [decimalFrom]
    split
    · dsimp only
      split
      · exact hone.keeps ((ih ..).imp fun a ha => hone.trans ha)
      · exact hone.le_stop
    · exact .refl _

theorem decimal_keeps (c : Cursor) : Keeps c (fun a => Ahead c a.2) c.decimal := decimalFrom_keeps 0 c.pos c.rest

theorem skipBlanksFrom_keeps (spaces : Bool) (mode : Blank) (pos : Nat) (cs : List Char) :
    Keeps ⟨pos, cs⟩ (Ahead ⟨pos, cs⟩) (skipBlanksFrom spaces mode pos cs) := by
  induction cs generalizing mode pos with
  | nil =>
    cases mode with
    | paren => exact (Ahead.refl ⟨pos, []⟩).le_stop
    | _ => exact .refl _
  | cons ch rest ih =>
    have hone : Ahead ⟨pos, ch :: rest⟩ ⟨pos + 1, rest⟩ := .one rfl
    have hnext (mode : Blank) :
        Keeps ⟨pos, ch :: rest⟩ (Ahead ⟨pos, ch :: rest⟩) (skipBlanksFrom spaces mode (pos + 1) rest) :=
      hone.keeps ((ih mode (pos + 1)).imp fun _ h => hone.trans h)
    cases mode with
    | between =>
      rw [skipBlanksFrom]
      split
      · exact hnext _
      split
      · exact hnext _
      split
      · exact hnext _
      · exact .refl _
    | line | paren => exact hnext _

theorem skipBlanksFrom_line (pos : Nat) (rest : List Char) :
    skipBlanksFrom true .between pos ('#' :: rest) = skipBlanksFrom true .line (pos + 1) rest := rfl

theorem skipBlanksFrom_paren (spaces : Bool) (pos : Nat) {rest : List Char} (h : rest.take 2 = ['?', '#']) :
    skipBlanksFrom spaces .between pos ('(' :: rest) = skipBlanksFrom spaces .paren (pos + 1) rest := by
  rw [skipBlanksFrom, h]
  cases spaces <;> rfl

theorem skipBlanks_keeps (c : Cursor) (o : Options) : Keeps c (Ahead c) (c.skipBlanks o) :=
  skipBlanksFrom_keeps o.ignoreWhitespace .between c.pos c.rest

theorem flagsFrom_ahead (o : Options) (on : Bool) (pos : Nat) (cs : List Char) :
    Ahead ⟨pos, cs⟩ (flagsFrom o on pos cs).2 := by
  induction cs generalizing o on pos with
  | nil => exact .refl _
  | cons ch rest ih =>
    have hone : Ahead ⟨pos, ch :: rest⟩ ⟨pos + 1, rest⟩ := .one rfl
    rw [flagsFrom]
    split
    · exact hone.trans (ih ..)
    split
    · exact hone.trans (ih ..)
    split
    · exact hone.trans (ih ..)
    · exact .refl _

theorem flags_ahead (c : Cursor) (o : Options) : Ahead c (c.flags o).2 := flagsFrom_ahead o true c.pos c.rest

theorem literalRunFrom_initial (spaces : Bool) (cs : List Char) : literalRunFrom spaces cs <+: cs := by
  induction cs with
  | nil => exact List.prefix_refl _
  | cons ch rest ih =>
    rw [literalRunFrom]
    split
    · exact List.nil_prefix
    · exact (List.prefix_cons_inj ch).mpr ih

theorem literalRun_ahead (c : Cursor) (o : Options) : Ahead c (c.literalRun o).2 :=
  ⟨_, fun _ _ => trivial, (List.prefix_iff_eq_append.mp (literalRunFrom_initial _ c.rest)).symm, rfl⟩

/-! ### Escapes -/

theorem octal_ahead (c : Cursor) (ecma : Bool) : Ahead c (c.octal ecma).2 :=
  (octalFrom_passes ecma 3 0 c).ahead

theorem hexFrom_keeps (left n : Nat) (c : Cursor) : Keeps c (fun a => Ahead c a.2) (hexFrom left n c) := by
  induction left generalizing n c with
  | zero => exact .refl c
  | succ left ih =>
    rw [hexFrom]
    split
    · exact (Ahead.refl c).fail _
    rename_i d rest hrest
    have hone : Ahead c ⟨c.pos + 1, rest⟩ := .one hrest
    split
    · exact hone.fail _
    · exact hone.keeps ((ih ..).imp fun _ h => hone.trans h)

theorem hex_keeps (c : Cursor) (digits : Nat) : Keeps c (fun a => Ahead c a.2) (c.hex digits) := by
  unfold hex
  split
  · exact (Ahead.refl c).fail _
  · refine (hexFrom_keeps digits 0 c).bind fun ⟨n, c₁⟩ h => ?_
    dsimp only
    split
    · exact h
    · exact Ahead.fail h _

theorem control_keeps (c : Cursor) : Keeps c (fun a => Ahead c a.2) c.control := by
  unfold control
  split
  · exact (Ahead.refl c).fail _
  rename_i ch rest hrest
  have hone : Ahead c ⟨c.pos + 1, rest⟩ := .one hrest
  dsimp only
  split
  · exact hone
  · exact hone.fail _

theorem charEscape_keeps (c : Cursor) (ecma : Bool) : Keeps c (fun a => Ahead c a.2) (c.charEscape ecma) := by
  unfold charEscape
  split
  · exact (Ahead.refl c).fail _
  rename_i ch rest hrest
  have hone : Ahead c ⟨c.pos + 1, rest⟩ := .one hrest
  dsimp only
  split
  · exact octal_ahead c ecma
  split
  · exact hone.keeps ((hex_keeps ..).imp fun _ h => hone.trans h)
  · exact hone.keeps ((hex_keeps ..).imp fun _ h => hone.trans h)
  all_goals try exact hone
  · exact hone.keeps ((control_keeps _).imp fun _ h => hone.trans h)
  · split
    · exact hone.fail _
    · exact hone

theorem categoryName_keeps (c : Cursor) : Keeps c (fun a => Ahead c a.2) c.categoryName := by
  unfold categoryName
  split
  · exact (Ahead.refl c).fail _
  split
  · rename_i rest hrest
    have hname := (Ahead.one hrest).trans
      (takeWhile_ahead ⟨c.pos + 1, rest⟩ fun ch => Unicode.isWord ch || ch == '-')
    dsimp only
    split
    · exact hname.fail _
    · exact hname.trans (.one ‹_›)
    · exact (hname.trans (.one ‹_›)).fail _
  · exact (skipOne_ahead c).fail _

theorem category_keeps (c : Cursor) (ignoreCase : Bool) :
    Keeps c (fun a => Ahead c a.2) (c.category ignoreCase) := by
  refine (categoryName_keeps c).bind fun ⟨name, c₁⟩ h => ?_
  dsimp only
  split
  · exact h
  · exact Ahead.fail h _

/-! ### Brackets -/

theorem skipPosixName_ahead (c : Cursor) : Ahead c c.skipPosixName := by
  unfold skipPosixName
  split
  · rename_i rest hrest
    have hname := (Ahead.one hrest).trans (word_ahead ⟨c.pos + 1, rest⟩)
    dsimp only
    split
    · rename_i rest' hrest'
      exact hname.trans ⟨[':', ']'], fun _ _ => trivial, hrest', rfl⟩
    · exact .refl c
  · exact .refl c

theorem skipBracketFrom_keeps (rounds depth : Nat) (first dash : Bool) (c : Cursor) :
    Keeps c (Ahead c) (skipBracketFrom rounds depth first dash c) := by
  induction rounds generalizing depth first dash c with
  | zero => exact (Ahead.refl c).fail _
  | succ rounds ih =>
    rw [skipBracketFrom]
    split
    · exact (Ahead.refl c).fail _
    rename_i ch rest hrest
    have hone : Ahead c ⟨c.pos + 1, rest⟩ := .one hrest
    have hnext {depth : Nat} {first dash : Bool} {next : Cursor} (h : Ahead ⟨c.pos + 1, rest⟩ next) :
        Keeps c (Ahead c) (skipBracketFrom rounds depth first dash next) :=
      (hone.trans h).keeps ((ih ..).imp fun _ h' => (hone.trans h).trans h')
    dsimp only
    split
    · split
      · exact hone
      · exact hnext (.refl _)
    split
    · exact hnext (skipOne_ahead _)
    split
    · exact hnext (.refl _)
    split
    · split
      · exact hnext (skipChar_ahead _ _)
      · exact hnext (skipPosixName_ahead _)
    · exact hnext (.refl _)

theorem skipBracket_keeps (c : Cursor) : Keeps c (Ahead c) c.skipBracket := by
  have hskip := skipChar_ahead c '^'
  exact hskip.keeps ((skipBracketFrom_keeps ..).imp fun _ h => hskip.trans h)

theorem addRange_keeps (c : Cursor) (level : CharClass.Level) (lo hi : Char) :
    Keeps c (fun _ => True) (c.addRange level lo hi) := by
  unfold addRange
  split
  · exact (Ahead.refl c).fail _
  · trivial

theorem bracketEscape_keeps (m : BracketMode) (level : CharClass.Level) (pending : Option Char) (ch : Char)
    (h : Ahead c c') : Keeps c (fun a => Ahead c a.2) (bracketEscape m level pending c ch c') := by
  unfold bracketEscape
  split
  · split
    · exact h.fail _
    · exact h
  split
  · split
    · exact h.fail _
    · exact h.keeps ((category_keeps ..).bind fun a ha => h.trans ha)
  split
  · split
    · exact h.keeps ((addRange_keeps ..).bind fun _ _ => h)
    · exact h
  · exact (charEscape_keeps ..).bind fun a ha => ha

theorem member_keeps (m : BracketMode) (level : CharClass.Level) (pending : Option Char) (first : Bool)
    (ch : Char) (c : Cursor) : Keeps c (fun a => Ahead c a.2) (member m level pending first ch c) := by
  unfold member
  split
  · exact .refl c
  split
  · split
    · exact .refl c
    · rename_i e rest hrest
      exact bracketEscape_keeps m level pending e (.one hrest)
  split
  · exact skipPosixName_ahead c
  · exact .refl c

theorem levelFrom_keeps (m : BracketMode) (rounds : Nat) (level : CharClass.Level) (pending : Option Char)
    (first : Bool) (c : Cursor) :
    Keeps c (fun a => Beyond c a.2.2) (levelFrom m rounds level pending first c) := by
  induction rounds generalizing level pending first c with
  | zero => exact (Ahead.refl c).fail _
  | succ rounds ih =>
    rw [levelFrom]
    split
    · exact (Ahead.refl c).fail _
    rename_i ch rest hrest
    have hmember := member_keeps m level pending first ch ⟨c.pos + 1, rest⟩
    refine ((Ahead.one hrest).keeps hmember).bind fun ⟨found, next⟩ h => ?_
    have hbeyond : Beyond c next := .of_one hrest h
    have hnext {level : CharClass.Level} {pending : Option Char} {next' : Cursor} (h' : Ahead next next') :
        Keeps c (fun a => Beyond c a.2.2) (levelFrom m rounds level pending false next') :=
      (hbeyond.ahead.trans h').keeps ((ih ..).imp fun _ h'' => (hbeyond.trans h').trans h''.ahead)
    dsimp only
    split
    · exact hbeyond
    · exact hnext (.refl _)
    · split
      · split
        · exact hbeyond
        · exact (hbeyond.ahead.keeps (addRange_keeps ..)).bind fun _ _ => hnext (.refl _)
      · split
        · exact hnext (skipOne_ahead _)
        split
        · exact hbeyond.trans (skipOne_ahead _)
        · exact hnext (.refl _)

theorem level_keeps (m : BracketMode) (c : Cursor) : Keeps c (fun a => Beyond c a.2.2) (level m c) := by
  have hskip := skipChar_ahead c '^'
  exact (hskip.keeps (levelFrom_keeps ..)).bind fun a ha => hskip.trans_beyond ha

theorem levelsFrom_keeps (m : BracketMode) (rounds : Nat) (c : Cursor) :
    Keeps c (fun a => Ahead c a.2) (levelsFrom m rounds c) := by
  induction rounds generalizing c with
  | zero => exact (Ahead.refl c).fail _
  | succ rounds ih =>
    rw [levelsFrom]
    refine (level_keeps m c).bind fun ⟨l, stop, c₁⟩ h => ?_
    have hahead : Ahead c c₁ := h.ahead
    dsimp only
    split
    · exact hahead
    · exact (hahead.keeps (ih c₁)).bind fun a ha => hahead.trans ha

theorem closeLevels_keeps (count : Nat) (c : Cursor) : Keeps c (Ahead c) (closeLevels count c) := by
  induction count generalizing c with
  | zero => exact .refl c
  | succ count ih =>
    rw [closeLevels]
    split
    · exact (Ahead.refl c).fail _
    · rename_i rest hrest
      have hone : Ahead c ⟨c.pos + 1, rest⟩ := .one hrest
      exact hone.keeps ((ih _).imp fun _ h => hone.trans h)
    · exact (Ahead.refl c).fail _

theorem bracket_keeps (m : BracketMode) (c : Cursor) : Keeps c (fun a => Ahead c a.2) (c.bracket m) := by
  refine (levelsFrom_keeps m _ c).bind fun ⟨levels, c₁⟩ h => ?_
  have hahead : Ahead c c₁ := h
  exact (hahead.keeps (closeLevels_keeps ..)).bind fun a ha => hahead.trans ha

/-! ### Rounds -/

theorem skipBracketFrom_rounds {rounds rounds' depth : Nat} {first dash : Bool}
    (h : c.rest.length < rounds) (h' : c.rest.length < rounds') :
    skipBracketFrom rounds depth first dash c = skipBracketFrom rounds' depth first dash c := by
  induction rounds generalizing rounds' depth first dash c with
  | zero => exact absurd h (Nat.not_lt_zero _)
  | succ rounds ih =>
    cases rounds' with
    | zero => exact absurd h' (Nat.not_lt_zero _)
    | succ rounds' =>
      cases hrest : c.rest with
      | nil => simp only [skipBracketFrom, hrest]
      | cons ch rest =>
        have hnext {depth : Nat} {first dash : Bool} {next : Cursor} (hn : Ahead ⟨c.pos + 1, rest⟩ next) :
            skipBracketFrom rounds depth first dash next = skipBracketFrom rounds' depth first dash next := by
          have hlt := (Beyond.of_one hrest hn).length_lt
          exact ih (by omega) (by omega)
        simp only [skipBracketFrom, hrest]
        split
        · split
          · rfl
          · exact hnext (.refl _)
        split
        · exact hnext (skipOne_ahead _)
        split
        · exact hnext (.refl _)
        split
        · split
          · exact hnext (skipChar_ahead _ _)
          · exact hnext (skipPosixName_ahead _)
        · exact hnext (.refl _)

theorem levelFrom_rounds {m : BracketMode} {rounds rounds' : Nat} {level : CharClass.Level}
    {pending : Option Char} {first : Bool} (h : c.rest.length < rounds) (h' : c.rest.length < rounds') :
    levelFrom m rounds level pending first c = levelFrom m rounds' level pending first c := by
  induction rounds generalizing rounds' level pending first c with
  | zero => exact absurd h (Nat.not_lt_zero _)
  | succ rounds ih =>
    cases rounds' with
    | zero => exact absurd h' (Nat.not_lt_zero _)
    | succ rounds' =>
      cases hrest : c.rest with
      | nil => simp only [levelFrom, hrest]
      | cons ch rest =>
        simp only [levelFrom, hrest]
        cases hmember : member m level pending first ch ⟨c.pos + 1, rest⟩ with
        | error problem => rfl
        | ok a =>
          obtain ⟨found, next⟩ := a
          have hbeyond : Beyond c next :=
            .of_one hrest ((member_keeps m level pending first ch ⟨c.pos + 1, rest⟩).of_ok hmember)
          have hnext {level : CharClass.Level} {pending : Option Char} {next' : Cursor}
              (hn : Ahead next next') :
              levelFrom m rounds level pending false next' = levelFrom m rounds' level pending false next' := by
            have hlt := (hbeyond.trans hn).length_lt
            exact ih (by omega) (by omega)
          dsimp only [bind, Except.bind]
          split
          · rfl
          · exact hnext (.refl _)
          · split
            · split
              · rfl
              · split
                · rfl
                · exact hnext (.refl _)
            · split
              · exact hnext (skipOne_ahead _)
              split
              · rfl
              · exact hnext (.refl _)

theorem levelsFrom_rounds {m : BracketMode} {rounds rounds' : Nat} (h : c.rest.length < rounds)
    (h' : c.rest.length < rounds') : levelsFrom m rounds c = levelsFrom m rounds' c := by
  induction rounds generalizing rounds' c with
  | zero => exact absurd h (Nat.not_lt_zero _)
  | succ rounds ih =>
    cases rounds' with
    | zero => exact absurd h' (Nat.not_lt_zero _)
    | succ rounds' =>
      simp only [levelsFrom]
      cases hlevel : level m c with
      | error problem => rfl
      | ok a =>
        obtain ⟨l, stop, c₁⟩ := a
        have hlt := ((level_keeps m c).of_ok hlevel).length_lt
        dsimp only at hlt
        dsimp only [bind, Except.bind]
        split
        · rfl
        · rw [ih (by omega) (show c₁.rest.length < rounds' by omega)]

/-! ### References -/

theorem ecmaReferenceFrom_ahead (t : GroupTable) (backslash n : Nat) (found : Option Nat) (pos : Nat)
    (cs : List Char) : Ahead ⟨pos, cs⟩ (ecmaReferenceFrom t backslash n found pos cs).2 := by
  induction cs generalizing n found pos with
  | nil => exact .refl _
  | cons d rest ih =>
    have hone : Ahead ⟨pos, d :: rest⟩ ⟨pos + 1, rest⟩ := .one rfl
    rw [ecmaReferenceFrom]
    split
    · dsimp only
      split
      · split
        · exact hone.trans (ih ..)
        · exact hone
      · exact hone
    · exact .refl _

theorem ecmaReference_ahead (t : GroupTable) (c : Cursor) : Ahead c (ecmaReference t c).2 := by
  unfold ecmaReference
  split
  · exact .refl c
  · exact ecmaReferenceFrom_ahead ..

/-- A number that is read, if one is, comes with a cursor that is ahead. -/
abbrev SomeAhead (c : Cursor) (a : Option (Nat × Cursor)) : Prop := ∀ p ∈ a, Ahead c p.2

theorem enclosedReference?_keeps (t : GroupTable) (close : Char) (c : Cursor) :
    Keeps c (SomeAhead c) (enclosedReference? t close c) := by
  unfold enclosedReference?
  split
  · exact nofun
  split
  · refine (decimal_keeps c).bind fun ⟨n, c₁⟩ h => ?_
    dsimp only at h ⊢
    split
    · rename_i e rest hrest
      have hone : Ahead c ⟨c₁.pos + 1, rest⟩ := h.trans (.one hrest)
      split
      · exact nofun
      split
      · rintro p ⟨⟩
        exact hone
      · exact hone.fail _
    · exact nofun
  split
  · dsimp only
    split
    · rename_i e rest hrest
      have hone : Ahead c ⟨c.word.2.pos + 1, rest⟩ := (word_ahead c).trans (.one hrest)
      split
      · exact nofun
      split
      · rintro p ⟨⟩
        exact hone
      · exact hone.fail _
    · exact nofun
  · exact nofun

theorem numberedReference?_keeps (t : GroupTable) (ecma : Bool) (c : Cursor) :
    Keeps c (SomeAhead c) (numberedReference? t ecma c) := by
  unfold numberedReference?
  split
  · intro p hp
    obtain ⟨n, _, rfl⟩ := Option.map_eq_some_iff.mp hp
    exact ecmaReference_ahead t c
  · refine (decimal_keeps c).bind fun ⟨n, c₁⟩ h => ?_
    dsimp only at h ⊢
    split
    · rintro p ⟨⟩
      exact h
    split
    · exact h.fail _
    · exact nofun

theorem reference?_keeps (t : GroupTable) (ecma : Bool) (c : Cursor) :
    Keeps c (SomeAhead c) (reference? t ecma c) := by
  unfold reference?
  split
  · exact nofun
  · rename_i rest hrest
    split
    · exact (Ahead.refl c).fail _
    · rename_i ch rest
      have htwo : Ahead c ⟨c.pos + 2, rest⟩ := (Ahead.one hrest).trans (.one rfl)
      dsimp only
      split
      · exact htwo.fail _
      split
      · exact htwo.fail _
      · exact htwo.keeps ((enclosedReference?_keeps ..).imp fun _ h p hp => htwo.trans (h p hp))
  · rename_i ch rest _ hrest
    have hone : Ahead c ⟨c.pos + 1, rest⟩ := .one hrest
    split
    · split
      · exact nofun
      · exact hone.keeps ((enclosedReference?_keeps ..).imp fun _ h p hp => hone.trans (h p hp))
    split
    · exact numberedReference?_keeps t ecma c
    · exact nofun

theorem referenceOrChar_keeps (e : Setting) (o : Options) (c : Cursor) :
    Keeps c (fun a => Ahead c a.2) (referenceOrChar e o c) := by
  refine (reference?_keeps e.table o.ecmaScript c).bind fun found h => ?_
  split
  · exact h _ rfl
  · exact (charEscape_keeps c o.ecmaScript).bind fun a ha => ha

theorem backslash_keeps (e : Setting) (o : Options) (c : Cursor) :
    Keeps c (fun a => Ahead c a.2) (c.backslash e o) := by
  unfold backslash
  split
  · exact (Ahead.refl c).fail _
  rename_i ch rest hrest
  have hone : Ahead c ⟨c.pos + 1, rest⟩ := .one hrest
  dsimp only
  split
  · exact hone
  split
  · exact hone
  split
  · exact (hone.keeps (category_keeps ..)).bind fun a ha => hone.trans ha
  · exact referenceOrChar_keeps e o c

/-! ### Quantifiers -/

theorem countMax_keeps (start min : Nat) (c : Cursor) :
    Keeps c (fun a => Ahead c a.2) (countMax start min c) := by
  unfold countMax
  split
  · split
    · rename_i rest hrest
      have hone : Ahead c ⟨c.pos + 1, rest⟩ := .one hrest
      split
      · exact hone
      · exact hone
      · exact hone.keeps ((decimal_keeps _).imp fun _ h => hone.trans h)
    · exact .refl c
  · exact .refl c

theorem count?_keeps (c : Cursor) : Keeps c (fun a => ∀ p ∈ a, Ahead c p.2.2) c.count? := by
  refine (decimal_keeps c).bind fun ⟨min, c₁⟩ h => ?_
  have h₁ : Ahead c c₁ := h
  refine (h₁.keeps (countMax_keeps c.pos min c₁)).bind fun ⟨max, c₂⟩ h => ?_
  have h₂ : Ahead c c₂ := h₁.trans h
  dsimp only
  split
  · exact nofun
  split
  · rintro p ⟨⟩
    exact h₂.trans (.one ‹_›)
  · exact nofun

theorem bounds?_keeps (c : Cursor) : Keeps c (fun a => ∀ p ∈ a, Ahead c p.2.2) c.bounds? := by
  unfold bounds?
  split
  · rintro p ⟨⟩
    exact .one ‹_›
  · rintro p ⟨⟩
    exact .one ‹_›
  · rintro p ⟨⟩
    exact .one ‹_›
  · rename_i rest hrest
    have hone : Ahead c ⟨c.pos + 1, rest⟩ := .one hrest
    exact hone.keeps ((count?_keeps _).imp fun _ h p hp => hone.trans (h p hp))
  · exact nofun

/-! ### Openings -/

theorem ownName_keeps (t : GroupTable) (close : Char) (c : Cursor) :
    Keeps c (fun a => Ahead c a.2.2) (ownName t close c) := by
  unfold ownName
  split
  · exact (Ahead.refl c).fail _
  split
  · refine (decimal_keeps c).bind fun ⟨n, c₁⟩ h => ?_
    have h₁ : Ahead c c₁ := h
    dsimp only
    split
    · exact h₁.fail _
    split
    · exact h₁
    · exact h₁.fail _
  split
  · dsimp only
    split
    · exact word_ahead c
    · exact (word_ahead c).fail _
  split
  · exact .refl c
  · exact (Ahead.refl c).fail _

theorem takenNumber_keeps (t : GroupTable) (c : Cursor) :
    Keeps c (fun a => Ahead c a.2) (takenNumber t c) := by
  unfold takenNumber
  split
  · exact (Ahead.refl c).fail _
  split
  · refine (decimal_keeps c).bind fun ⟨n, c₁⟩ h => ?_
    have h₁ : Ahead c c₁ := h
    dsimp only
    split
    · exact h₁
    · exact h₁.fail _
  split
  · dsimp only
    split
    · exact word_ahead c
    · exact (word_ahead c).fail _
  · exact (Ahead.refl c).fail _

theorem takenBack_keeps (t : GroupTable) (close : Char) (c : Cursor) :
    Keeps c (fun a => Ahead c a.2) (takenBack t close c) := by
  refine (takenNumber_keeps t c).bind fun ⟨n, c₁⟩ h => ?_
  have h₁ : Ahead c c₁ := h
  dsimp only
  split
  · exact h₁
  split
  · exact h₁
  · exact h₁.fail _

theorem takenBack?_keeps (t : GroupTable) (close : Char) (allowed : Bool) (c : Cursor) :
    Keeps c (fun a => Ahead c a.2) (takenBack? t close allowed c) := by
  unfold takenBack?
  split
  · have hskip := skipOne_ahead c
    exact (hskip.keeps (takenBack_keeps ..)).bind fun a ha => hskip.trans ha
  · exact .refl c

theorem captureName_keeps (t : GroupTable) (close : Char) (c : Cursor) :
    Keeps c (fun a => Ahead c a.2) (captureName t close c) := by
  refine (ownName_keeps t close c).bind fun ⟨number, noName, c₁⟩ h => ?_
  have h₁ : Ahead c c₁ := h
  refine (h₁.keeps (takenBack?_keeps ..)).bind fun ⟨uncapture, c₂⟩ h => ?_
  have h₂ : Ahead c c₂ := h₁.trans h
  dsimp only
  split
  · split
    · exact h₂.fail _
    · rename_i ch rest hrest
      have hone : Ahead c ⟨c₂.pos + 1, rest⟩ := h₂.trans (.one hrest)
      split
      · exact hone
      · exact hone.fail _
  · exact h₂.fail _

theorem conditionReference?_keeps (t : GroupTable) (c : Cursor) :
    Keeps c (SomeAhead c) (conditionReference? t c) := by
  unfold conditionReference?
  split
  · exact nofun
  split
  · refine (decimal_keeps c).bind fun ⟨n, c₁⟩ h => ?_
    have h₁ : Ahead c c₁ := h
    dsimp only
    split
    · rename_i rest hrest
      have hone : Ahead c ⟨c₁.pos + 1, rest⟩ := h₁.trans (.one hrest)
      split
      · rintro p ⟨⟩
        exact hone
      · exact hone.fail _
    · exact (h₁.trans (skipOne_ahead c₁)).fail _
  split
  · dsimp only
    split
    · rintro p ⟨⟩
      exact (word_ahead c).trans (.one ‹_›)
    · exact nofun
  · exact nofun

theorem checkCondition_keeps (c : Cursor) : Keeps c (fun _ => True) c.checkCondition := by
  unfold checkCondition
  split
  · exact (Ahead.refl c).fail _
  · exact (Ahead.refl c).fail _
  · split
    · trivial
    · exact (Ahead.refl c).fail _
  · trivial

theorem condition_keeps (t : GroupTable) (o : Options) (c : Cursor) :
    Keeps c (fun p => Ahead c p.cursor) (condition t o c) := by
  have hskip := skipOne_ahead c
  refine (hskip.keeps (conditionReference?_keeps t c.skipOne)).bind fun found h => ?_
  split
  · exact hskip.trans (h _ rfl)
  · exact (checkCondition_keeps c).bind fun _ _ => Ahead.refl c

theorem flagGroup_keeps (o : Options) (c : Cursor) : Keeps c (fun p => Ahead c p.cursor) (flagGroup o c) := by
  have hflags := flags_ahead c o
  unfold flagGroup
  dsimp only
  split
  · exact hflags.fail _
  · exact hflags.trans (.one ‹_›)
  · exact hflags.trans (.one ‹_›)
  · exact (hflags.trans (.one ‹_›)).fail _

theorem markedOpening_keeps (t : GroupTable) (o : Options) (c : Cursor) :
    Keeps c (fun p => Ahead c p.cursor) (markedOpening t o c) := by
  have hnamed (close : Char) (c' : Cursor) (h : Ahead c c') :
      Keeps c (fun p => Ahead c p.cursor) (captureName t close c' >>= fun a =>
        .ok { kind := some a.1, options := o, cursor := a.2 } : Except Problem Opening) :=
    (h.keeps (captureName_keeps ..)).bind fun a ha => h.trans ha
  unfold markedOpening
  dsimp only
  split
  · exact (Ahead.refl c).fail _
  · exact .one ‹_›
  · exact .one ‹_›
  · exact .one ‹_›
  · exact .one ‹_›
  · rename_i rest hrest
    split
    · exact (Ahead.one hrest).fail _
    · exact (Ahead.one hrest).trans (.one rfl)
    · exact (Ahead.one hrest).trans (.one rfl)
    · exact hnamed _ _ (.one hrest)
  · rename_i rest hrest
    split
    · exact (Ahead.one hrest).fail _
    · exact hnamed _ _ (.one hrest)
  · exact condition_keeps t o c
  · exact flagGroup_keeps o c

theorem opening?_keeps (t : GroupTable) (o : Options) (c : Cursor) :
    Keeps c (fun a => ∀ p ∈ a, Ahead c p.cursor) (c.opening? t o) := by
  unfold opening?
  split
  · rintro p ⟨⟩
  · rename_i rest _ hrest
    have hone : Ahead c ⟨c.pos + 1, rest⟩ := .one hrest
    refine (hone.keeps (markedOpening_keeps ..)).bind fun p hp => ?_
    rintro p ⟨⟩
    exact hone.trans hp
  · rintro p ⟨⟩

end Cursor

/-! ### The survey -/

open Cursor (Ahead Beyond Keeps)

namespace Survey

variable {s : Survey}

theorem named_keeps (s : Survey) (offset : Nat) (c : Cursor) :
    Keeps c (fun s' => Ahead c s'.cursor) (s.named offset c) := by
  unfold named
  split
  · exact .refl c
  split
  · split
    · exact (Cursor.decimal_keeps c).bind fun a ha => ha
    · exact Cursor.word_ahead c
  · exact .refl c

theorem marked_keeps (s : Survey) (offset : Nat) (c : Cursor) :
    Keeps c (fun s' => Ahead c s'.cursor) (s.marked offset c) := by
  have hnamed (s : Survey) {ch : Char} {rest : List Char} (hrest : c.rest = ch :: rest) :
      Keeps c (fun s' => Ahead c s'.cursor) (s.named offset ⟨c.pos + 1, rest⟩) :=
    (Ahead.one hrest).keeps ((named_keeps ..).imp fun _ h => (Ahead.one hrest).trans h)
  unfold marked
  split
  · exact hnamed _ ‹_›
  · exact hnamed _ ‹_›
  · have hflags := Cursor.flags_ahead c s.options
    dsimp only
    split
    · exact hflags.trans (.one ‹_›)
    · exact hflags
    · exact hflags

theorem opened_keeps (s : Survey) (offset : Nat) (c : Cursor) :
    Keeps c (fun s' => Ahead c s'.cursor) (s.opened offset c) := by
  unfold opened
  dsimp only
  split
  · rename_i rest hrest
    exact (Ahead.one hrest).keeps ((marked_keeps ..).imp fun _ h => (Ahead.one hrest).trans h)
  · split <;> exact .refl c

/-- **Every round of the survey takes a character at least.** -/
theorem construct_keeps {ch : Char} {rest : List Char} (hs : s.cursor.rest = ch :: rest) :
    Keeps s.cursor (fun s' => Beyond s.cursor s'.cursor) (s.construct ch ⟨s.cursor.pos + 1, rest⟩) := by
  have hone : Ahead s.cursor ⟨s.cursor.pos + 1, rest⟩ := .one hs
  have hblanks (mode : Cursor.Blank) (spaces : Bool)
      (h : s.cursor.skipBlanks s.options = Cursor.skipBlanksFrom spaces mode (s.cursor.pos + 1) rest) :
      Keeps s.cursor (Beyond s.cursor) (s.cursor.skipBlanks s.options) := by
    rw [h]
    exact hone.keeps ((Cursor.skipBlanksFrom_keeps ..).imp fun _ h => .of_one hs h)
  unfold construct
  split
  · exact .of_one hs (Cursor.skipOne_ahead _)
  split
  · rename_i hch
    split
    · rename_i hspaces
      refine (hblanks .line true ?_).bind fun _ h => h
      rw [Cursor.skipBlanks, hs, hch, hspaces, Cursor.skipBlanksFrom_line]
    · exact .of_one hs (.refl _)
  split
  · exact (hone.keeps (Cursor.skipBracket_keeps _)).bind fun _ h => .of_one hs h
  split
  · exact .of_one hs (.refl _)
  split
  · rename_i hch
    split
    · rename_i htake
      refine (hblanks .paren s.options.ignoreWhitespace ?_).bind fun _ h => h
      rw [Cursor.skipBlanks, hs, hch, Cursor.skipBlanksFrom_paren _ _ htake]
    · exact hone.keeps ((opened_keeps ..).imp fun _ h => .of_one hs h)
  · exact .of_one hs (.refl _)

theorem run_keeps (rounds : Nat) (s : Survey) :
    Keeps s.cursor (fun s' => Ahead s.cursor s'.cursor ∧ (s.cursor.rest.length ≤ rounds → s'.cursor.rest = []))
      (run rounds s) := by
  induction rounds generalizing s with
  | zero => exact ⟨.refl _, fun h => List.length_eq_zero_iff.mp (Nat.le_zero.mp h)⟩
  | succ rounds ih =>
    rw [run]
    split
    · exact ⟨.refl _, fun _ => ‹_›⟩
    · rename_i ch rest hrest
      refine (construct_keeps hrest).bind fun s₁ h => h.ahead.keeps ((ih s₁).imp fun s' h' => ?_)
      have hlt := h.length_lt
      exact ⟨h.ahead.trans h'.1, fun hle => h'.2 (by omega)⟩

end Survey

end PatternCompiler
