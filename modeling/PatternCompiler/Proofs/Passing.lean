import PatternCompiler.Pattern.Opening
import PatternCompiler.Proofs.Groups

/-! What a reader passes over.

Most constructs hold only characters that begin and end nothing: digits, letters, the
marks of names and counts. A cursor `Passes` over them. The exceptions are six short
texts, `troubles`, which the survey takes for something else than the reader does. In
a text that is `Clear` of them an escape is one character and then plain ones
(`backslash_passes`). -/
namespace PatternCompiler

/-- The characters that may begin or end something, in brackets or outside. -/
def marks : List Char := ['\\', '#', '[', ']', '(', ')', '-']

/-- A character that begins and ends nothing, wherever it stands. -/
def Plain (ch : Char) : Prop := ch ∉ marks

/-- A plain character or a dash, which counts in brackets only. -/
def PlainOrDash (ch : Char) : Prop := Plain ch ∨ ch = '-'

instance : DecidablePred Plain := fun ch => inferInstanceAs (Decidable (ch ∉ marks))

instance : DecidablePred PlainOrDash := fun ch => inferInstanceAs (Decidable (Plain ch ∨ ch = '-'))

variable {ch : Char}

/-- A test that fails on all marks holds of plain characters only. -/
theorem plain_of_test {p : Char → Bool} (hp : marks.any p = false) (h : p ch = true) : Plain ch :=
  fun hmem => List.any_eq_false.mp hp ch hmem h

theorem plain_of_isDigit {ch : Char} (h : ch.isDigit = true) : Plain ch := plain_of_test (by decide) h

theorem plain_of_isWord {ch : Char} (h : Unicode.isWord ch = true) : Plain ch :=
  plain_of_test (by decide) h

theorem Plain.ne_mark {mark : Char} (h : Plain ch) (hm : mark ∈ marks) : ch ≠ mark :=
  fun heq => h (heq ▸ hm)

/-! ### Troublesome texts -/

/-- The escapes of a control character that is written with a mark, and a dash between a bracket
or another dash and a bracket. -/
def troubles : List (List Char) :=
  [['\\', 'c', '['], ['\\', 'c', '\\'], ['\\', 'c', ']'], ['[', '-', '['], ['[', '^', '-', '['],
    ['-', '-', '[']]

/-- None of the troublesome texts is in the text. -/
def Clear (cs : List Char) : Prop := ∀ t ∈ troubles, ¬ t <:+: cs

instance (cs : List Char) : Decidable (Clear cs) :=
  inferInstanceAs (Decidable (∀ t ∈ troubles, ¬ t <:+: cs))

theorem Clear.of_suffix {cs cs' : List Char} (h : Clear cs) (hs : cs' <:+ cs) : Clear cs' :=
  fun t ht hi => h t ht (hi.trans hs.isInfix)

theorem not_clear_append {t : List Char} (ht : t ∈ troubles) (rest : List Char) : ¬ Clear (t ++ rest) :=
  fun h => h t ht (List.prefix_append t rest).isInfix

namespace Cursor

/-! ### Passing -/

/-- The cursor goes over characters of one kind. -/
def Passes (P : Char → Prop) (c c' : Cursor) : Prop :=
  ∃ run, (∀ ch ∈ run, P ch) ∧ c.rest = run ++ c'.rest ∧ c'.pos = c.pos + run.length

variable {P Q : Char → Prop} {c c' c'' : Cursor} {ch : Char} {rest : List Char} {n : Nat} {ecma : Bool}
  {t : GroupTable} {close : Char}

theorem Passes.refl (c : Cursor) : Passes P c c := ⟨[], nofun, rfl, rfl⟩

theorem Passes.trans (h : Passes P c c') (h' : Passes P c' c'') : Passes P c c'' := by
  obtain ⟨run, hrun, hrest, hpos⟩ := h
  obtain ⟨run', hrun', hrest', hpos'⟩ := h'
  refine ⟨run ++ run', fun ch hch => ?_, ?_, ?_⟩
  · exact (List.mem_append.mp hch).elim (hrun ch) (hrun' ch)
  · rw [hrest, hrest', List.append_assoc]
  · rw [hpos', hpos, List.length_append, Nat.add_assoc]

theorem Passes.one (hc : c.rest = ch :: rest) (hch : P ch) : Passes P c ⟨c.pos + 1, rest⟩ :=
  ⟨[ch], fun d hd => by rwa [List.mem_singleton.mp hd], hc, rfl⟩

theorem Passes.imp (h : ∀ ch, P ch → Q ch) (hp : Passes P c c') : Passes Q c c' := by
  obtain ⟨run, hrun, hrest, hpos⟩ := hp
  exact ⟨run, fun ch hch => h ch (hrun ch hch), hrest, hpos⟩

/-- What goes over from the cursor past a character to the one before it goes over the whole way. -/
theorem Passes.backward {motive : Cursor → Prop} (h : Passes P c c') (last : motive c')
    (step : ∀ (c : Cursor) ch rest, c.rest = ch :: rest → P ch → motive ⟨c.pos + 1, rest⟩ → motive c) :
    motive c := by
  obtain ⟨run, hrun, hrest, hpos⟩ := h
  induction run generalizing c with
  | nil =>
    have heq : c = c' := by
      cases c
      cases c'
      simp_all
    rwa [heq]
  | cons ch run ih =>
    have hpos' : c'.pos = c.pos + 1 + run.length := by rw [hpos, List.length_cons]; omega
    exact step c ch (run ++ c'.rest) hrest (hrun ch (List.mem_cons_self ..))
      (ih (fun d hd => hrun d (List.mem_cons_of_mem ch hd)) rfl hpos')

theorem Passes.suffix (h : Passes P c c') : c'.rest <:+ c.rest := by
  obtain ⟨run, _, hrest, _⟩ := h
  exact ⟨run, hrest.symm⟩

theorem Passes.orDash (h : Passes Plain c c') : Passes PlainOrDash c c' := h.imp fun _ => .inl

/-! ### Numerals, names and marks -/

theorem decimalFrom_passes {m pos : Nat} {cs : List Char} (h : decimalFrom n pos cs = .ok (m, c')) :
    Passes Plain ⟨pos, cs⟩ c' := by
  induction cs generalizing n pos with
  | nil =>
    cases h
    exact .refl _
  | cons d rest ih =>
    rw [decimalFrom] at h
    split at h
    · dsimp only at h
      split at h
      · exact (Passes.one rfl (plain_of_isDigit ‹_›)).trans (ih h)
      · cases h
    · cases h
      exact .refl _

theorem decimal_passes {n : Nat} (h : c.decimal = .ok (n, c')) : Passes Plain c c' :=
  decimalFrom_passes h

theorem takeWhile_passes {p : Char → Bool} (hp : ∀ ch, p ch = true → P ch) (c : Cursor) :
    Passes P c (c.takeWhile p).2 := by
  refine ⟨c.rest.takeWhile p, fun ch hch => hp ch (List.all_eq_true.mp List.all_takeWhile ch hch), ?_, rfl⟩
  exact (List.prefix_iff_eq_append.mp (List.takeWhile_prefix p)).symm

theorem word_passes (c : Cursor) : Passes Plain c c.word.2 :=
  takeWhile_passes (fun _ => plain_of_isWord) c

theorem skipChar_passes (h : P ch) (c : Cursor) : Passes P c (c.skipChar ch) := by
  unfold skipChar
  split
  · exact .refl c
  · split
    · rename_i d rest hrest hd
      exact .one hrest (hd ▸ h)
    · exact .refl c

/-! ### Escapes -/

/-- Past one character, whatever it is, and then over characters of one kind. -/
def PassesAfterOne (P : Char → Prop) (c c' : Cursor) : Prop :=
  ∃ ch rest, c.rest = ch :: rest ∧ Passes P ⟨c.pos + 1, rest⟩ c'

theorem octalFrom_passes (ecma : Bool) (left n : Nat) (c : Cursor) :
    Passes Plain c (octalFrom ecma left n c).2 := by
  induction left generalizing n c with
  | zero => exact .refl c
  | succ left ih =>
    rw [octalFrom]
    split
    · exact .refl c
    rename_i d rest hrest
    split
    · exact .refl c
    rename_i v hv
    have hd : Plain d := plain_of_test (p := fun ch => (octalDigit? ch).isSome) (by decide) (by simp [hv])
    dsimp only
    split
    · exact .one hrest hd
    · exact (Passes.one hrest hd).trans (ih _ _)

theorem octal_passes (hc : c.rest = ch :: rest) (hch : (octalDigit? ch).isSome = true) :
    Passes Plain ⟨c.pos + 1, rest⟩ (c.octal ecma).2 := by
  obtain ⟨v, hv⟩ := Option.isSome_iff_exists.mp hch
  show Passes Plain ⟨c.pos + 1, rest⟩ (octalFrom ecma 3 0 c).2
  rw [octalFrom, hc]
  simp only [hv]
  split
  · exact .refl _
  · exact octalFrom_passes ecma 2 _ _

theorem hexFrom_passes {left n m : Nat} (h : hexFrom left n c = .ok (m, c')) : Passes Plain c c' := by
  induction left generalizing n c with
  | zero =>
    cases h
    exact .refl _
  | succ left ih =>
    rw [hexFrom] at h
    split at h
    · cases h
    rename_i d rest hrest
    split at h
    · cases h
    rename_i v hv
    have hd : Plain d := plain_of_test (p := fun ch => (hexDigit? ch).isSome) (by decide) (by simp [hv])
    exact (Passes.one hrest hd).trans (ih h)

theorem hex_passes {digits : Nat} (h : c.hex digits = .ok (ch, c')) : Passes Plain c c' := by
  unfold hex at h
  split at h
  · cases h
  · obtain ⟨⟨n, c₁⟩, hn, h⟩ := exists_ok_of_bind h
    dsimp only at h
    split at h
    · cases h
      exact hexFrom_passes hn
    · cases h

/-- The letter of a control character is plain or one of three marks. -/
theorem control_cases (h : c.control = .ok (ch, c')) :
    ∃ d rest, c.rest = d :: rest ∧ c' = ⟨c.pos + 1, rest⟩ ∧ (Plain d ∨ ['\\', 'c', d] ∈ troubles) := by
  unfold control at h
  split at h
  · cases h
  rename_i d rest hrest
  dsimp only at h
  split at h
  · rename_i hcode
    cases h
    refine ⟨d, rest, hrest, rfl, Decidable.or_iff_not_imp_left.mpr fun hplain => ?_⟩
    have hmarks : marks.all (fun m => m.toUpper.toNat < 64 || ['\\', 'c', m] ∈ troubles) = true := by
      decide
    have hd : d.toUpper.toNat < 64 ∨ ['\\', 'c', d] ∈ troubles := by
      simpa only [Bool.or_eq_true, decide_eq_true_eq] using
        List.all_eq_true.mp hmarks d (Decidable.not_not.mp hplain)
    exact hd.resolve_left (Nat.not_lt.mpr hcode.1)
  · cases h

/-- An escape is a character and then plain ones, but for the control characters of marks. -/
theorem charEscape_cases (h : c.charEscape ecma = .ok (ch, c')) :
    PassesAfterOne Plain c c' ∨
      ∃ d rest, c.rest = 'c' :: d :: rest ∧ c' = ⟨c.pos + 2, rest⟩ ∧ ['\\', 'c', d] ∈ troubles := by
  unfold charEscape at h
  split at h
  · cases h
  rename_i d rest hrest
  dsimp only at h
  split at h
  · cases h
    exact .inl ⟨d, rest, hrest, octal_passes hrest ‹_›⟩
  split at h
  · exact .inl ⟨_, rest, hrest, hex_passes h⟩
  · exact .inl ⟨_, rest, hrest, hex_passes h⟩
  all_goals try (cases h; exact .inl ⟨_, rest, hrest, .refl _⟩)
  · obtain ⟨d, rest', hrest', rfl, hplain | htrouble⟩ := control_cases h
    · exact .inl ⟨_, rest, hrest, .one hrest' hplain⟩
    · exact .inr ⟨d, rest', by rw [hrest, ← hrest'], rfl, htrouble⟩
  · split at h
    · cases h
    · cases h
      exact .inl ⟨_, rest, hrest, .refl _⟩

theorem charEscape_passes (hclear : Clear ('\\' :: c.rest))
    (h : c.charEscape ecma = .ok (ch, c')) : PassesAfterOne Plain c c' := by
  obtain hpass | ⟨d, rest, hrest, -, htrouble⟩ := charEscape_cases h
  · exact hpass
  · rw [hrest] at hclear
    exact absurd hclear (not_clear_append htrouble rest)

/-- The name of a category and its braces. -/
theorem category_passes {ignoreCase : Bool} {k : CharClass} (h : c.category ignoreCase = .ok (k, c')) :
    ∃ c₁ rest, Passes PlainOrDash c c₁ ∧ c₁.rest = '\x7d' :: rest ∧ c' = ⟨c₁.pos + 1, rest⟩ := by
  obtain ⟨⟨name, c₂⟩, hname, h⟩ := exists_ok_of_bind h
  have hc' : c₂ = c' := by
    dsimp only at h
    split at h <;> cases h
    rfl
  subst hc'
  unfold categoryName at hname
  split at hname
  · cases hname
  split at hname
  · rename_i rest hrest
    have hpass : Passes PlainOrDash ⟨c.pos + 1, rest⟩
        (takeWhile ⟨c.pos + 1, rest⟩ fun ch => Unicode.isWord ch || ch == '-').2 :=
      takeWhile_passes (fun ch hch => (Bool.or_eq_true _ _ ▸ hch).imp plain_of_isWord beq_iff_eq.mp) _
    dsimp only at hname
    split at hname
    · cases hname
    · cases hname
      exact ⟨_, _, (Passes.one hrest (by decide)).trans hpass, ‹_›, rfl⟩
    · cases hname
  · cases hname

/-! ### References -/

theorem closing?_plain {close : Char} (h : closing? ch = some close) : Plain ch ∧ Plain close := by
  unfold closing? at h
  split at h <;> cases h <;> decide

theorem enclosedReference?_passes (hclose : Plain close)
    (h : enclosedReference? t close c = .ok (some (n, c'))) : Passes Plain c c' := by
  unfold enclosedReference? at h
  split at h
  · cases h
  split at h
  · obtain ⟨⟨m, c₁⟩, hm, h⟩ := exists_ok_of_bind h
    dsimp only at h
    split at h
    · rename_i e rest hrest
      split at h
      · cases h
      rename_i he
      split at h
      · cases h
        exact (decimal_passes hm).trans (.one hrest (Decidable.not_not.mp he ▸ hclose))
      · cases h
    · cases h
  split at h
  · dsimp only at h
    split at h
    · rename_i e rest hrest
      split at h
      · cases h
      rename_i he
      split at h
      · cases h
        exact (word_passes c).trans (.one hrest (Decidable.not_not.mp he ▸ hclose))
      · cases h
    · cases h
  · cases h

theorem ecmaReferenceFrom_passes {backslash pos : Nat} {found : Option Nat}
    {cs : List Char} (hcs : ∀ d ∈ cs.head?, Plain d) :
    Passes Plain ⟨pos, cs⟩ (ecmaReferenceFrom t backslash n found pos cs).2 := by
  induction cs generalizing n pos found with
  | nil => exact .refl _
  | cons d rest ih =>
    have hd : Plain d := hcs d rfl
    rw [ecmaReferenceFrom]
    split
    · dsimp only
      split
      · split
        · rename_i e _ he
          refine (Passes.one rfl hd).trans (ih fun e' he' => ?_)
          cases he'
          exact plain_of_isDigit he
        · exact .one rfl hd
      · exact .one rfl hd
    · exact .refl _

theorem ecmaReference_passes (hn : (ecmaReference t c).1 = some n) :
    PassesAfterOne Plain c (ecmaReference t c).2 := by
  unfold ecmaReference at hn ⊢
  split at hn
  · cases hn
  rename_i d rest hrest
  refine ⟨d, rest, hrest, ?_⟩
  simp only [hrest] at hn ⊢
  rw [ecmaReferenceFrom] at hn ⊢
  split at hn
  · rename_i htop
    rw [if_pos htop]
    dsimp only
    split
    · split
      · rename_i e _ he
        refine ecmaReferenceFrom_passes fun e' he' => ?_
        cases he'
        exact plain_of_isDigit he
      · exact .refl _
    · exact .refl _
  · cases hn

theorem numberedReference?_passes (hc : c.rest = ch :: rest)
    (hch : '1' ≤ ch ∧ ch ≤ '9') (h : numberedReference? t ecma c = .ok (some (n, c'))) :
    PassesAfterOne Plain c c' := by
  unfold numberedReference? at h
  split at h
  · obtain ⟨k, hk, heq⟩ := Option.map_eq_some_iff.mp (Except.ok.inj h)
    cases heq
    exact ecmaReference_passes hk
  · obtain ⟨⟨m, c₁⟩, hm, h⟩ := exists_ok_of_bind h
    dsimp only at h
    split at h
    · cases h
      refine ⟨ch, rest, hc, ?_⟩
      have hdigit : ch.isDigit = true := by
        simp only [Char.isDigit, Bool.and_eq_true, decide_eq_true_eq]
        exact ⟨Nat.le_of_succ_le hch.1, hch.2⟩
      rw [decimal, hc, decimalFrom, if_pos hdigit] at hm
      dsimp only at hm
      split at hm
      · exact decimalFrom_passes hm
      · cases hm
    split at h <;> cases h

theorem reference?_passes (h : reference? t ecma c = .ok (some (n, c'))) : PassesAfterOne Plain c c' := by
  unfold reference? at h
  split at h
  · cases h
  · rename_i rest hrest
    refine ⟨'k', rest, hrest, ?_⟩
    split at h
    · cases h
    · dsimp only at h
      split at h
      · cases h
      rename_i close hclose
      split at h
      · cases h
      · exact (Passes.one rfl (closing?_plain hclose).1).trans
          (enclosedReference?_passes (closing?_plain hclose).2 h)
  · rename_i d rest _ hrest
    split at h
    · rename_i close hclose
      split at h
      · cases h
      · exact ⟨d, rest, hrest, enclosedReference?_passes (closing?_plain hclose).2 h⟩
    split at h
    · exact numberedReference?_passes hrest ‹_› h
    · cases h

/-- In a clear text an escape is a character and then plain ones. -/
theorem backslash_passes {e : Setting} {o : Options} {l : Leaf} (hclear : Clear ('\\' :: c.rest))
    (h : c.backslash e o = .ok (l, c')) : PassesAfterOne PlainOrDash c c' := by
  unfold backslash at h
  split at h
  · cases h
  rename_i d rest hrest
  dsimp only at h
  split at h
  · cases h
    exact ⟨d, rest, hrest, .refl _⟩
  split at h
  · cases h
    exact ⟨d, rest, hrest, .refl _⟩
  split at h
  · obtain ⟨⟨k, c₁⟩, hk, h⟩ := exists_ok_of_bind h
    cases h
    obtain ⟨c₂, rest', hpass, hrest', rfl⟩ := category_passes hk
    exact ⟨d, rest, hrest, hpass.trans (.one hrest' (by decide))⟩
  · have hplain : PassesAfterOne Plain c c' := by
      obtain ⟨found, hfound, h⟩ := exists_ok_of_bind h
      split at h
      · cases h
        exact reference?_passes hfound
      · obtain ⟨⟨ch, c₁⟩, hch, h⟩ := exists_ok_of_bind h
        cases h
        exact charEscape_passes hclear hch
    obtain ⟨d', rest', hrest', hpass⟩ := hplain
    exact ⟨d', rest', hrest', hpass.orDash⟩

/-! ### Names of groups -/

theorem ownName_passes {number : Option Nat} {noName : Bool}
    (h : ownName t close c = .ok (number, noName, c')) : Passes PlainOrDash c c' := by
  unfold ownName at h
  split at h
  · cases h
  split at h
  · obtain ⟨⟨m, c₁⟩, hm, h⟩ := exists_ok_of_bind h
    dsimp only at h
    split at h
    · cases h
    split at h
    · cases h
      exact (decimal_passes hm).orDash
    · cases h
  split at h
  · dsimp only at h
    split at h
    · cases h
      exact (word_passes c).orDash
    · cases h
  split at h
  · cases h
    exact .refl _
  · cases h

theorem takenNumber_passes (h : takenNumber t c = .ok (n, c')) : Passes PlainOrDash c c' := by
  unfold takenNumber at h
  split at h
  · cases h
  split at h
  · obtain ⟨⟨m, c₁⟩, hm, h⟩ := exists_ok_of_bind h
    dsimp only at h
    split at h
    · cases h
      exact (decimal_passes hm).orDash
    · cases h
  split at h
  · dsimp only at h
    split at h
    · cases h
      exact (word_passes c).orDash
    · cases h
  · cases h

theorem takenBack?_passes {allowed : Bool} {number : Option Nat}
    (h : takenBack? t close allowed c = .ok (number, c')) : Passes PlainOrDash c c' := by
  unfold takenBack? at h
  split at h
  · rename_i hdash
    obtain ⟨⟨m, c₁⟩, hm, h⟩ := exists_ok_of_bind h
    cases h
    obtain ⟨⟨k, c₂⟩, hk, hm⟩ := exists_ok_of_bind hm
    have hc₂ : c₂ = c' := by
      dsimp only at hm
      split at hm
      · cases hm
        rfl
      · split at hm <;> cases hm
        rfl
    obtain ⟨rest, hrest⟩ : ∃ rest, c.rest = '-' :: rest := by
      simp only [Bool.and_eq_true, beq_iff_eq] at hdash
      exact List.head?_eq_some_iff.mp hdash.2
    have hskip : c.skipOne = ⟨c.pos + 1, rest⟩ := by rw [skipOne, hrest]
    rw [hskip] at hk
    exact hc₂ ▸ (Passes.one hrest (by decide)).trans (takenNumber_passes hk)
  · cases h
    exact .refl _

/-- After the name of a group there may be a dash and another name, and then the closing mark. -/
theorem captureName_passes (hclose : Plain close) {kind : GroupKind}
    (h : captureName t close c = .ok (kind, c')) :
    ∃ number noName c₁, ownName t close c = .ok (number, noName, c₁) ∧ Passes PlainOrDash c₁ c' := by
  obtain ⟨⟨number, noName, c₁⟩, hown, h⟩ := exists_ok_of_bind h
  obtain ⟨⟨uncapture, c₂⟩, htaken, h⟩ := exists_ok_of_bind h
  refine ⟨number, noName, c₁, hown, (takenBack?_passes htaken).trans ?_⟩
  dsimp only at h
  split at h
  · split at h
    · cases h
    · rename_i e rest hrest
      split at h
      · rename_i he
        cases h
        exact .one hrest (.inl (he ▸ hclose))
      · cases h
  · cases h

/-! ### Quantifiers -/

theorem countMax_passes {start min max : Nat} (h : countMax start min c = .ok (max, c')) :
    Passes Plain c c' := by
  unfold countMax at h
  split at h
  · split at h
    · rename_i rest hrest
      split at h
      · cases h
        exact .one hrest (by decide)
      · cases h
        exact .one hrest (by decide)
      · exact (Passes.one hrest (by decide)).trans (decimal_passes h)
    · cases h
      exact .refl _
  · cases h
    exact .refl _

theorem bounds?_passes {min max : Nat} (h : c.bounds? = .ok (some (min, max, c'))) :
    Passes Plain c c' := by
  unfold bounds? at h
  split at h
  · cases h
    exact .one ‹_› (by decide)
  · cases h
    exact .one ‹_› (by decide)
  · cases h
    exact .one ‹_› (by decide)
  · rename_i rest hrest
    obtain ⟨⟨lo, c₁⟩, hlo, h⟩ := exists_ok_of_bind h
    obtain ⟨⟨hi, c₂⟩, hhi, h⟩ := exists_ok_of_bind h
    dsimp only at h
    split at h
    · cases h
    split at h
    · cases h
      exact (Passes.one hrest (by decide)).trans
        ((decimal_passes hlo).trans ((countMax_passes hhi).trans (.one ‹_› (by decide))))
    · cases h
  · cases h

end Cursor
end PatternCompiler
