import PatternCompiler.Pattern.Survey
import Mathlib

/-! What the survey of a pattern notes.

The survey gives numbers to groups without a name from 1 on and notes every number
it gives, so all numbers below the next one are in the table (`Survey.Noted`,
kept by every round). Names are numbered afterwards, with numbers that are in the
table too and are not 0. Group 0 stands first throughout. -/
namespace PatternCompiler

variable {ε α : Type}

/-- If two steps in a row succeed, the first one does, and the second one does on its result. -/
theorem exists_ok_of_bind {β : Type} {x : Except ε α} {f : α → Except ε β} {b : β}
    (h : x >>= f = .ok b) : ∃ a, x = .ok a ∧ f a = .ok b := by
  match x, h with
  | .ok a, h => exact ⟨a, rfl, h⟩

theorem exists_ok_of_map {β : Type} {x : Except ε α} {f : α → β} {b : β} (h : f <$> x = .ok b) :
    ∃ a, x = .ok a ∧ f a = b := by
  match x, h with
  | .ok a, h => exact ⟨a, rfl, Except.ok.inj h⟩

/-- A result that passes a test is one. -/
theorem exists_ok_of_check (x : Except ε α) (check : α → Bool)
    (h : x.toOption.any check = true) : ∃ a, x = .ok a ∧ check a = true := by
  match x, h with
  | .ok a, h => exact ⟨a, rfl, h⟩

/-! ### Tables -/

namespace GroupTable

theorem contains_iff {t : GroupTable} {n : Nat} : t.contains n = true ↔ n ∈ t.numbers := by
  simp [contains, numbers]

variable {n : Nat} {t : GroupTable}

theorem mem_place {offset m : Nat} {gs : List (Nat × Nat)} :
    m ∈ (place n offset gs).map (·.1) ↔ m = n ∨ m ∈ gs.map (·.1) := by
  induction gs with
  | nil => simp [place]
  | cons g rest ih =>
    rw [place]
    split
    · simp
    · rw [List.map_cons, List.mem_cons, ih, List.map_cons, List.mem_cons]
      exact or_left_comm

theorem mem_noteNumber {offset m : Nat} : m ∈ (t.noteNumber n offset).numbers ↔ m = n ∨ m ∈ t.numbers := by
  unfold noteNumber
  split
  · rename_i h
    exact ⟨.inr, fun hm => hm.elim (fun hm => hm ▸ contains_iff.mp h) id⟩
  · exact mem_place

theorem noteName_numbers (t : GroupTable) (name : String) (offset : Nat) :
    (t.noteName name offset).numbers = t.numbers := by
  unfold noteName
  split <;> rfl

/-- The whole match is the first group. -/
def Rooted (t : GroupTable) : Prop := ∃ rest, t.groups = (0, 0) :: rest

theorem Rooted.noteNumber (h : t.Rooted) (n offset : Nat) : (t.noteNumber n offset).Rooted := by
  obtain ⟨rest, hrest⟩ := h
  unfold GroupTable.noteNumber
  split
  · exact ⟨rest, hrest⟩
  · exact ⟨place n offset rest, by simp [hrest, place]⟩

theorem Rooted.noteName (h : t.Rooted) (name : String) (offset : Nat) : (t.noteName name offset).Rooted := by
  unfold GroupTable.noteName
  split <;> exact h

theorem Rooted.numbers (h : t.Rooted) : ∃ rest, t.numbers = 0 :: rest := by
  obtain ⟨rest, hrest⟩ := h
  exact ⟨rest.map (·.1), by rw [GroupTable.numbers, hrest]; rfl⟩

/-! ### Names -/

/-- Every name has a number that is in the table, and not 0. -/
def NamesNoted (t : GroupTable) : Prop := ∀ e ∈ t.names, e.2 ∈ t.numbers ∧ e.2 ≠ 0

theorem le_freeFrom (t : GroupTable) (rounds next : Nat) : next ≤ t.freeFrom rounds next := by
  induction rounds generalizing next with
  | zero => exact Nat.le_refl next
  | succ rounds ih =>
    rw [freeFrom]
    split
    · exact Nat.le_of_succ_le (ih (next + 1))
    · exact Nat.le_refl next

theorem noteNumber_names (t : GroupTable) (n offset : Nat) :
    (t.noteNumber n offset).names = t.names := by
  unfold noteNumber
  split <;> rfl

/-- Numbering names adds to the table, and every number that a name gets is in it. -/
theorem assignFrom_noted (pending : List (String × Nat)) (t : GroupTable) (next : Nat)
    (hnext : 0 < next) (hnames : t.NamesNoted) (hroot : t.Rooted) :
    t.numbers ⊆ (t.assignFrom next pending).numbers ∧ (t.assignFrom next pending).NamesNoted ∧
      (t.assignFrom next pending).Rooted := by
  induction pending generalizing t next with
  | nil => exact ⟨List.Subset.refl _, hnames, hroot⟩
  | cons e rest ih =>
    obtain ⟨name, offset⟩ := e
    rw [assignFrom]
    have hfree : next ≤ t.free next := le_freeFrom t _ next
    have hroot' : GroupTable.Rooted { t with names := t.names ++ [(name, t.free next)] } := hroot
    have hstep : GroupTable.NamesNoted
        ({ t with names := t.names ++ [(name, t.free next)] }.noteNumber (t.free next) offset) := by
      intro e he
      rw [noteNumber_names] at he
      rcases List.mem_append.mp he with he | he
      · exact ⟨mem_noteNumber.mpr (.inr (hnames e he).1), (hnames e he).2⟩
      · rw [List.mem_singleton.mp he]
        exact ⟨mem_noteNumber.mpr (.inl rfl), by show t.free next ≠ 0; omega⟩
    obtain ⟨hsub, hrest⟩ := ih _ (t.free next + 1) (Nat.succ_pos _) hstep (hroot'.noteNumber _ offset)
    exact ⟨fun n hn => hsub (mem_noteNumber.mpr (.inr hn)), hrest⟩

theorem numberOf?_mem (h : t.NamesNoted) {name : String}
    (hn : t.numberOf? name = some n) : n ∈ t.numbers ∧ n ≠ 0 := by
  obtain ⟨before, after, hnames, _⟩ := List.lookup_eq_some_iff.mp hn
  exact h (name, n) (by rw [hnames]; simp)

end GroupTable

/-! ### Notes -/

/-- What is noted of a group: its number or its name, with its offset. -/
inductive GroupNote where
  | number (n offset : Nat)
  | name (text : String) (offset : Nat)
deriving DecidableEq

/-- A name begins with a character that is no digit, unlike a number. -/
def GroupNote.Proper : GroupNote → Prop
  | .number _ _ => True
  | .name text _ => ∃ c rest, text.toList = c :: rest ∧ c.isDigit = false

def GroupTable.note (t : GroupTable) : GroupNote → GroupTable
  | .number n offset => t.noteNumber n offset
  | .name name offset => t.noteName name offset

/-! ### The survey -/

namespace Survey

/-- All numbers below the next one are in the table, the whole match first. -/
structure Noted (s : Survey) : Prop where
  rooted : s.table.Rooted
  names : s.table.names = []
  pos : 0 < s.autocap
  below : ∀ k, k < s.autocap → k ∈ s.table.numbers

/-- What the survey has noted stays, proper notes are added to it, and the next number does not go
down. -/
structure Later (s s' : Survey) : Prop where
  noted : s.Noted → s'.Noted
  notes : ∃ notes : List GroupNote, s'.table = notes.foldl GroupTable.note s.table ∧ ∀ x ∈ notes, x.Proper
  autocap : s.autocap ≤ s'.autocap

variable {s s' : Survey} {offset : Nat} {c : Cursor}

theorem Later.trans {s'' : Survey} (h : Later s s') (h' : Later s' s'') : Later s s'' := by
  obtain ⟨notes, htable, hproper⟩ := h.notes
  obtain ⟨notes', htable', hproper'⟩ := h'.notes
  refine ⟨fun hs => h'.noted (h.noted hs), ⟨notes ++ notes', ?_, ?_⟩, Nat.le_trans h.autocap h'.autocap⟩
  · rw [List.foldl_append, ← htable, htable']
  · exact List.forall_mem_append.mpr ⟨hproper, hproper'⟩

/-- Neither the table nor the next number is touched. -/
theorem later_of_eq (ht : s'.table = s.table) (ha : s'.autocap = s.autocap) : Later s s' :=
  ⟨fun h => ⟨ht ▸ h.rooted, ht ▸ h.names, ha ▸ h.pos, by rw [ht, ha]; exact h.below⟩,
    ⟨[], ht, List.forall_mem_nil _⟩, Nat.le_of_eq ha.symm⟩

theorem later_noteNumber {n : Nat}
    (ht : s'.table = s.table.noteNumber n offset) (ha : s'.autocap = s.autocap) : Later s s' := by
  refine ⟨fun h => ⟨?_, ?_, ha ▸ h.pos, fun k hk => ?_⟩, ⟨[.number n offset], ht, by simp [GroupNote.Proper]⟩,
    Nat.le_of_eq ha.symm⟩
  · rw [ht]
    exact h.rooted.noteNumber n offset
  · rw [ht, GroupTable.noteNumber_names, h.names]
  · rw [ht]
    exact GroupTable.mem_noteNumber.mpr (.inr (h.below k (ha ▸ hk)))

theorem later_noteName {name : String}
    (ht : s'.table = s.table.noteName name offset) (ha : s'.autocap = s.autocap)
    (hname : (GroupNote.name name offset).Proper) : Later s s' := by
  refine ⟨fun h => ⟨?_, ?_, ha ▸ h.pos, fun k hk => ?_⟩, ⟨[.name name offset], ht, by simpa using hname⟩,
    Nat.le_of_eq ha.symm⟩
  · rw [ht]
    exact h.rooted.noteName name offset
  · rw [ht, ← h.names, GroupTable.noteName]
    split <;> rfl
  · rw [ht, GroupTable.noteName_numbers]
    exact h.below k (ha ▸ hk)

theorem later_autocap
    (ht : s'.table = s.table.noteNumber s.autocap offset) (ha : s'.autocap = s.autocap + 1) : Later s s' := by
  refine ⟨fun h => ⟨?_, ?_, by omega, fun k hk => ?_⟩,
    ⟨[.number s.autocap offset], ht, by simp [GroupNote.Proper]⟩, by omega⟩
  · rw [ht]
    exact h.rooted.noteNumber _ offset
  · rw [ht, GroupTable.noteNumber_names, h.names]
  · rw [ht]
    rcases Nat.lt_or_ge k s.autocap with hlt | hge
    · exact GroupTable.mem_noteNumber.mpr (.inr (h.below k hlt))
    · exact GroupTable.mem_noteNumber.mpr (.inl (by omega))

/-- A run of word characters is a name if it does not begin with a digit. -/
theorem proper_word {ch : Char} {rest : List Char} (hrest : c.rest = ch :: rest)
    (hword : ch ≠ '0' ∧ Unicode.isWord ch = true) (hdigit : ¬ ('1' ≤ ch ∧ ch ≤ '9')) (offset : Nat) :
    (GroupNote.name c.word.1 offset).Proper := by
  refine ⟨ch, rest.takeWhile Unicode.isWord, ?_, ?_⟩
  · simp [Cursor.word, Cursor.takeWhile, hrest, hword.2]
  · have hzero : ch.toNat ≠ 48 := fun h => hword.1 (Char.toNat_inj.mp h)
    have hnot : ¬ (49 ≤ ch.toNat ∧ ch.toNat ≤ 57) := hdigit
    refine Bool.eq_false_iff.mpr fun h => ?_
    have hrange : 48 ≤ ch.toNat ∧ ch.toNat ≤ 57 := Char.isDigit_iff_toNat.mp h
    omega

theorem named_later (h : s.named offset c = .ok s') : Later s s' := by
  unfold named at h
  split at h
  · cases h
    exact later_of_eq rfl rfl
  · rename_i hrest
    split at h
    · rename_i hword
      split at h
      · obtain ⟨⟨n, c'⟩, _, h⟩ := exists_ok_of_bind h
        cases h
        exact later_noteNumber rfl rfl
      · rename_i hdigit
        cases h
        exact later_noteName rfl rfl (proper_word hrest hword hdigit offset)
    · cases h
      exact later_of_eq rfl rfl

theorem marked_later (h : s.marked offset c = .ok s') : Later s s' := by
  unfold marked at h
  split at h
  · exact (later_of_eq rfl rfl : Later s { s with ignoreNext := false }).trans (named_later h)
  · exact (later_of_eq rfl rfl : Later s { s with ignoreNext := false }).trans (named_later h)
  · dsimp only at h
    split at h <;> cases h <;> exact later_of_eq rfl rfl

theorem opened_later (h : s.opened offset c = .ok s') : Later s s' := by
  unfold opened at h
  dsimp only at h
  split at h
  · exact (later_of_eq rfl rfl : Later s { s with saved := s.options :: s.saved }).trans (marked_later h)
  · split at h <;> cases h
    · exact later_of_eq rfl rfl
    · exact later_autocap rfl rfl

theorem restore_later (s : Survey) : Later s s.restore := by
  unfold restore
  split <;> exact later_of_eq rfl rfl

theorem construct_later {ch : Char} (h : s.construct ch c = .ok s') : Later s s' := by
  unfold construct at h
  split at h
  · cases h
    exact later_of_eq rfl rfl
  split at h
  · split at h
    · obtain ⟨c', _, h⟩ := exists_ok_of_bind h
      cases h
      exact later_of_eq rfl rfl
    · cases h
      exact later_of_eq rfl rfl
  split at h
  · obtain ⟨c', _, h⟩ := exists_ok_of_bind h
    cases h
    exact later_of_eq rfl rfl
  split at h
  · cases h
    exact (restore_later s).trans (later_of_eq rfl rfl)
  split at h
  · split at h
    · obtain ⟨c', _, h⟩ := exists_ok_of_bind h
      cases h
      exact later_of_eq rfl rfl
    · exact opened_later h
  · cases h
    exact later_of_eq rfl rfl

theorem run_later {rounds : Nat} {s s' : Survey} (h : run rounds s = .ok s') : Later s s' := by
  induction rounds generalizing s with
  | zero =>
    cases h
    exact later_of_eq rfl rfl
  | succ rounds ih =>
    rw [run] at h
    split at h
    · cases h
      exact later_of_eq rfl rfl
    · obtain ⟨s₁, hstep, h⟩ := exists_ok_of_bind h
      exact (construct_later hstep).trans (ih h)

theorem start_noted (pattern : List Char) (o : Options) : (start pattern o).Noted :=
  ⟨⟨[], rfl⟩, rfl, Nat.one_pos, fun k hk => by
    have hk : k = 0 := Nat.lt_one_iff.mp hk
    rw [hk]
    exact List.mem_singleton_self 0⟩

end Survey

/-- **The table of a pattern**: the whole match comes first, every name has a number in it that is
not 0, and all numbers that the survey gave are in it. -/
theorem GroupTable.ofPattern_noted {pattern : List Char} {o : Options} {t : GroupTable}
    (h : GroupTable.ofPattern pattern o = .ok t) :
    t.Rooted ∧ t.NamesNoted ∧ ∃ s, Survey.run pattern.length (Survey.start pattern o) = .ok s ∧
      ∀ k, k < s.autocap → k ∈ t.numbers := by
  obtain ⟨s, hs, ht⟩ := exists_ok_of_bind h
  cases ht
  have hnoted := (Survey.run_later hs).noted (Survey.start_noted pattern o)
  have hnone : GroupTable.NamesNoted { s.table with pending := [] } := by
    intro e he
    rw [show GroupTable.names { s.table with pending := [] } = [] from hnoted.names] at he
    cases he
  obtain ⟨hsub, hnames, hroot⟩ := GroupTable.assignFrom_noted s.table.pending
    { s.table with pending := [] } s.autocap hnoted.pos hnone hnoted.rooted
  exact ⟨hroot, hnames, s, hs, fun k hk => hsub (hnoted.below k hk)⟩

end PatternCompiler
