import PatternCompiler.Proofs.Acceptance

/-! How groups get their numbers.

Numbers and names are noted in any order and as often as they are met. While they are noted,
the table has the numbers in order, each with its first offset, and the names in the order in
which they first appeared (`GroupTable.Noting`). Names are numbered at the end, one after the
other, and all that is free below the next number is already taken (`GroupTable.Assigning`), so
each gets the least number that is left.

`GroupTable.assignNames_numbering` says what the table is in the end, and that in the table of a
pattern no two groups are called the same: the survey takes nothing for a name that begins with
a digit (`Survey.Later.notes`). -/
namespace PatternCompiler

namespace GroupNote

def number? : GroupNote → Option (Nat × Nat)
  | .number n offset => some (n, offset)
  | .name _ _ => none

def name? : GroupNote → Option (String × Nat)
  | .number _ _ => none
  | .name text offset => some (text, offset)

/-- The noted numbers with their offsets, in the order of appearance. The whole match comes first. -/
def numbers (notes : List GroupNote) : List (Nat × Nat) := (0, 0) :: notes.filterMap number?

/-- The noted names with their offsets, in the order of appearance. -/
def names (notes : List GroupNote) : List (String × Nat) := notes.filterMap name?

end GroupNote

namespace GroupTable

variable {t : GroupTable} {n m offset next first : Nat} {noted : List Nat} {notes : List GroupNote}

/-- The table of a pattern in which the groups are declared as noted. -/
def ofNotes (notes : List GroupNote) (next : Nat) : GroupTable :=
  (notes.foldl note (noteNumber {} 0 0)).assignNames next

/-! ### Entries in order -/

theorem lookup_eq_some_iff_mem {entries : List (String × Nat)} {a : String} (h : (entries.map (·.1)).Nodup) :
    entries.lookup a = some n ↔ (a, n) ∈ entries := by
  constructor
  · intro hn
    obtain ⟨before, after, rfl, -⟩ := List.lookup_eq_some_iff.mp hn
    exact List.mem_append_right _ (List.mem_cons_self ..)
  · intro hn
    obtain ⟨before, after, rfl⟩ := List.append_of_mem hn
    refine List.lookup_eq_some_iff.mpr ⟨before, after, rfl, fun p hp => bne_iff_ne.mpr fun heq => ?_⟩
    rw [List.map_append, List.map_cons] at h
    exact (List.nodup_append.mp h).2.2 p.1 (List.mem_map_of_mem hp) a (List.mem_cons_self ..) heq.symm

/-- A later entry of the same key does not count. -/
theorem lookup_or_of_mem {α : Type} [BEq α] [LawfulBEq α] {entries : List (α × Nat)} {a : α}
    (h : a ∈ entries.map (·.1)) (offset : Nat) (b : α) :
    (entries.lookup b).or (List.lookup b [(a, offset)]) = entries.lookup b := by
  by_cases hb : b = a
  · subst hb
    rw [Option.or_of_isSome]
    simpa [List.lookup_isSome_iff] using h
  · have hb' : (b == a) = false := beq_false_of_ne hb
    simp [List.lookup_cons, hb']

theorem place_ascending {gs : List (Nat × Nat)} (h : (gs.map (·.1)).Pairwise (· < ·)) (hn : n ∉ gs.map (·.1))
    (offset : Nat) : ((place n offset gs).map (·.1)).Pairwise (· < ·) := by
  induction gs with
  | nil => exact List.pairwise_singleton _ _
  | cons g rest ih =>
    obtain ⟨hg, hrest⟩ := List.pairwise_cons.mp h
    obtain ⟨hne, hn⟩ := not_or.mp (mt List.mem_cons.mpr hn)
    rw [place]
    split
    · rename_i hlt
      refine List.pairwise_cons.mpr ⟨fun m hm => ?_, h⟩
      rcases List.mem_cons.mp hm with rfl | hm
      · exact hlt
      · exact Nat.lt_trans hlt (hg m hm)
    · rename_i hle
      refine List.pairwise_cons.mpr ⟨fun m hm => ?_, ih hrest hn⟩
      rcases mem_place.mp hm with rfl | hm
      · exact Nat.lt_of_le_of_ne (Nat.not_lt.mp hle) (Ne.symm hne)
      · exact hg m hm

theorem lookup_place {gs : List (Nat × Nat)} (hn : n ∉ gs.map (·.1)) (offset m : Nat) :
    (place n offset gs).lookup m = (gs.lookup m).or (List.lookup m [(n, offset)]) := by
  induction gs with
  | nil => rfl
  | cons g rest ih =>
    obtain ⟨hne, hn⟩ := not_or.mp (mt List.mem_cons.mpr hn)
    rw [place]
    split
    · by_cases hm : m = n
      · subst hm
        have hnone : List.lookup m (g :: rest) = none := by
          refine List.lookup_eq_none_iff.mpr fun p hp => bne_iff_ne.mpr fun heq => ?_
          rcases List.mem_cons.mp hp with rfl | hp
          · exact hne heq
          · exact hn (heq ▸ List.mem_map_of_mem hp)
        simp [hnone]
      · have hm' : (m == n) = false := beq_false_of_ne hm
        simp [List.lookup_cons, hm']
    · rw [List.lookup_cons, List.lookup_cons, ih hn]
      split <;> rfl

theorem noteNumber_ascending (h : t.numbers.Pairwise (· < ·)) (n offset : Nat) :
    (t.noteNumber n offset).numbers.Pairwise (· < ·) := by
  unfold noteNumber
  split
  · exact h
  · rename_i hn
    exact place_ascending h (mt contains_iff.mpr hn) offset

theorem offset?_isSome : (t.offset? n).isSome = true ↔ n ∈ t.numbers := by
  simp [offset?, numbers, List.lookup_isSome_iff]

/-- A number keeps the offset that it has. -/
theorem offset?_noteNumber (t : GroupTable) (n offset m : Nat) :
    (t.noteNumber n offset).offset? m = (t.offset? m).or (List.lookup m [(n, offset)]) := by
  unfold noteNumber
  split
  · rename_i hn
    exact (lookup_or_of_mem (contains_iff.mp hn) offset m).symm
  · rename_i hn
    exact lookup_place (mt contains_iff.mpr hn) offset m

/-! ### Noting -/

/-- The table after numbers and names have been noted, before any name is numbered. -/
structure Noting (t : GroupTable) (numbers : List (Nat × Nat)) (names : List (String × Nat)) : Prop where
  ascending : t.numbers.Pairwise (· < ·)
  offsets : ∀ n, t.offset? n = numbers.lookup n
  unnamed : t.names = []
  pending : t.pending.map (·.1) = (names.map (·.1)).eraseDups
  distinct : (t.pending.map (·.1)).Nodup
  places : ∀ a, t.pending.lookup a = names.lookup a

namespace Noting

variable {numbers : List (Nat × Nat)} {names : List (String × Nat)} {a : String}

theorem number (h : t.Noting numbers names) (n offset : Nat) :
    (t.noteNumber n offset).Noting (numbers ++ [(n, offset)]) names := by
  have hkeeps : (t.noteNumber n offset).pending = t.pending := by
    unfold noteNumber
    split <;> rfl
  refine ⟨noteNumber_ascending h.ascending n offset, fun m => ?_, ?_, ?_, ?_, ?_⟩
  · rw [offset?_noteNumber, h.offsets, List.lookup_append]
  · rw [noteNumber_names, h.unnamed]
  · rw [hkeeps, h.pending]
  · rw [hkeeps]
    exact h.distinct
  · rw [hkeeps]
    exact h.places

theorem mem_numbers (h : t.Noting numbers names) : n ∈ t.numbers ↔ n ∈ numbers.map (·.1) := by
  rw [← offset?_isSome, h.offsets]
  simp [List.lookup_isSome_iff]

theorem mem_pending (h : t.Noting numbers names) : t.pending.any (·.1 == a) = true ↔ a ∈ names.map (·.1) := by
  have hany : t.pending.any (·.1 == a) = true ↔ a ∈ t.pending.map (·.1) := by simp
  rw [hany, h.pending, List.mem_eraseDups]

theorem name (h : t.Noting numbers names) (a : String) (offset : Nat) :
    (t.noteName a offset).Noting numbers (names ++ [(a, offset)]) := by
  by_cases ha : a ∈ names.map (·.1)
  · -- The name is pending already.
    rw [noteName, if_pos (h.mem_pending.mpr ha)]
    refine ⟨h.ascending, h.offsets, h.unnamed, ?_, h.distinct, fun b => ?_⟩
    · rw [h.pending, List.map_append, List.eraseDups_append]
      simp [List.removeAll, ha]
    · rw [h.places, List.lookup_append, lookup_or_of_mem ha]
  · rw [noteName, if_neg (mt h.mem_pending.mp ha)]
    refine ⟨h.ascending, h.offsets, h.unnamed, ?_, ?_, fun b => ?_⟩
    · rw [List.map_append, h.pending, List.map_append, List.eraseDups_append]
      simp [List.removeAll, ha, List.eraseDups_cons]
    · have hout : a ∉ t.pending.map (·.1) := by rwa [h.pending, List.mem_eraseDups]
      rw [List.map_append]
      exact h.distinct.append (List.nodup_singleton _) (List.disjoint_singleton.mpr hout)
    · rw [List.lookup_append, List.lookup_append, h.places]

/-- Whatever is noted. -/
theorem noteAll (h : t.Noting numbers names) (notes : List GroupNote) :
    (notes.foldl note t).Noting (numbers ++ notes.filterMap GroupNote.number?)
      (names ++ notes.filterMap GroupNote.name?) := by
  induction notes generalizing t numbers names with
  | nil => simpa using h
  | cons x notes ih =>
    cases x with
    | number n offset =>
      have hrest := ih (h.number n offset)
      rw [List.append_assoc] at hrest
      exact hrest
    | name a offset =>
      have hrest := ih (h.name a offset)
      rw [List.append_assoc] at hrest
      exact hrest

end Noting

theorem noting_root : (noteNumber {} 0 0).Noting [(0, 0)] [] :=
  ⟨List.pairwise_singleton _ _, fun _ => rfl, rfl, rfl, .nil, fun _ => rfl⟩

/-! ### Free numbers -/

theorem freeFrom_skips (t : GroupTable) (rounds next : Nat) :
    (∀ k, next ≤ k → k < t.freeFrom rounds next → k ∈ t.numbers) ∧
      (t.freeFrom rounds next ∈ t.numbers → t.freeFrom rounds next = next + rounds) := by
  induction rounds generalizing next with
  | zero => exact ⟨fun k hk hlt => absurd hlt (Nat.not_lt.mpr hk), fun _ => rfl⟩
  | succ rounds ih =>
    rw [freeFrom]
    split
    · rename_i hnext
      obtain ⟨hskips, hlast⟩ := ih (next + 1)
      refine ⟨fun k hk hlt => ?_, fun hmem => (hlast hmem).trans (by omega)⟩
      rcases Nat.eq_or_lt_of_le hk with rfl | hk
      · exact contains_iff.mp hnext
      · exact hskips k hk hlt
    · rename_i hnext
      exact ⟨fun k hk hlt => absurd hlt (Nat.not_lt.mpr hk), fun hmem => absurd (contains_iff.mpr hmem) hnext⟩

/-- There are as many rounds as groups, so not all of the numbers tried are taken. -/
theorem free_isLeast (t : GroupTable) (next : Nat) : IsLeast {k | next ≤ k ∧ k ∉ t.numbers} (t.free next) := by
  obtain ⟨hskips, hlast⟩ := t.freeFrom_skips t.groups.length next
  refine ⟨⟨le_freeFrom t _ next, fun hmem => ?_⟩, fun k hk => ?_⟩
  · have hfree : t.free next = next + t.groups.length := hlast hmem
    have hall : List.range' next (t.groups.length + 1) ⊆ t.numbers := by
      intro k hk
      obtain ⟨hle, hlt⟩ := List.mem_range'_1.mp hk
      rcases Nat.eq_or_lt_of_le (Nat.le_of_lt_succ (Nat.add_assoc .. ▸ hlt : k < next + t.groups.length + 1)) with rfl | hk
      · exact hfree ▸ hmem
      · exact hskips k hle (hk.trans_eq hfree.symm)
    have hlength := (List.nodup_range' (s := next) (n := t.groups.length + 1)).length_le_of_subset hall
    rw [List.length_range', numbers, List.length_map] at hlength
    omega
  · by_contra hlt
    exact hk.2 (hskips k hk.1 (Nat.not_le.mp hlt))

/-! ### Numbering names -/

/-- A name that gets a number. -/
def give (t : GroupTable) (name : String) (number offset : Nat) : GroupTable :=
  { t with names := t.names ++ [(name, number)] }.noteNumber number offset

theorem give_names (t : GroupTable) (name : String) (number offset : Nat) :
    (t.give name number offset).names = t.names ++ [(name, number)] := noteNumber_names _ _ _

theorem give_ascending (h : t.numbers.Pairwise (· < ·)) (name : String) (number offset : Nat) :
    (t.give name number offset).numbers.Pairwise (· < ·) :=
  noteNumber_ascending (t := { t with names := t.names ++ [(name, number)] }) h number offset

theorem mem_give {name : String} : m ∈ (t.give name n offset).numbers ↔ m = n ∨ m ∈ t.numbers := mem_noteNumber

/-- While names are numbered: besides the noted numbers the table has those of the names so far, each
the least that was left, and from `first` on nothing is left below `next`. -/
structure Assigning (t : GroupTable) (noted : List Nat) (first next : Nat) : Prop where
  ascending : t.numbers.Pairwise (· < ·)
  numbers : ∀ n, n ∈ t.numbers ↔ n ∈ noted ∨ n ∈ t.names.map (·.2)
  increasing : (t.names.map (·.2)).Pairwise (· < ·)
  below : ∀ n ∈ t.names.map (·.2), n < next
  start : first ≤ next
  filled : ∀ k, first ≤ k → k < next → k ∈ t.numbers
  least : ∀ before e after, t.names = before ++ e :: after →
    IsLeast {k | first ≤ k ∧ k ∉ noted ∧ k ∉ before.map (·.2)} e.2

namespace Assigning

/-- The least number from `next` on is the least of all that are left. -/
theorem free_isLeast (h : t.Assigning noted first next) :
    IsLeast {k | first ≤ k ∧ k ∉ noted ∧ k ∉ t.names.map (·.2)} (t.free next) := by
  obtain ⟨⟨hnext, hfree⟩, hleast⟩ := t.free_isLeast next
  obtain ⟨hnoted, hnames⟩ := not_or.mp (mt (h.numbers _).mpr hfree)
  refine ⟨⟨Nat.le_trans h.start hnext, hnoted, hnames⟩, fun k ⟨hk, hnoted, hnames⟩ => ?_⟩
  have hout : k ∉ t.numbers := fun hmem => ((h.numbers k).mp hmem).elim hnoted hnames
  exact hleast ⟨Nat.not_lt.mp fun hlt => hout (h.filled k hk hlt), hout⟩

theorem give (h : t.Assigning noted first next) (name : String) (offset : Nat) :
    (t.give name (t.free next) offset).Assigning noted first (t.free next + 1) := by
  obtain ⟨⟨hnext, hfree⟩, hleast⟩ := t.free_isLeast next
  have hnumbers : (t.give name (t.free next) offset).names.map (·.2) = t.names.map (·.2) ++ [t.free next] := by
    rw [give_names, List.map_append]
    rfl
  have hbelow : ∀ n ∈ t.names.map (·.2), n < t.free next := fun n hn => Nat.lt_of_lt_of_le (h.below n hn) hnext
  refine ⟨give_ascending h.ascending _ _ _, fun n => ?_, ?_, fun n hn => ?_, ?_, fun k hk hlt => ?_,
    fun before e after hnames => ?_⟩
  · rw [mem_give, h.numbers, hnumbers, List.mem_append, List.mem_singleton, or_comm, or_assoc]
  · rw [hnumbers]
    exact List.pairwise_append.mpr ⟨h.increasing, List.pairwise_singleton _ _,
      fun n hn m hm => List.mem_singleton.mp hm ▸ hbelow n hn⟩
  · rw [hnumbers] at hn
    rcases List.mem_append.mp hn with hn | hn
    · exact Nat.lt_succ_of_lt (hbelow n hn)
    · exact List.mem_singleton.mp hn ▸ Nat.lt_succ_self _
  · exact Nat.le_succ_of_le (Nat.le_trans h.start hnext)
  · rcases Nat.eq_or_lt_of_le (Nat.le_of_lt_succ hlt) with rfl | hlt
    · exact mem_give.mpr (.inl rfl)
    · refine mem_give.mpr (.inr ?_)
      by_contra hout
      exact absurd (h.free_isLeast.2 ⟨hk, fun hn => hout ((h.numbers k).mpr (.inl hn)),
        fun hn => hout ((h.numbers k).mpr (.inr hn))⟩) (Nat.not_le.mpr hlt)
  · rw [give_names] at hnames
    -- The last name is the new one.
    rcases List.eq_nil_or_concat after with rfl | ⟨after, e', rfl⟩
    · obtain ⟨rfl, he⟩ := List.append_inj' hnames rfl
      rw [← List.singleton_inj.mp he]
      exact h.free_isLeast
    · rw [List.concat_eq_append, ← List.cons_append, ← List.append_assoc] at hnames
      exact h.least before e after (List.append_inj' hnames rfl).1

/-- All names get a number and keep their offset, and what had an offset keeps it. -/
theorem assignFrom (h : t.Assigning noted first next) (pending : List (String × Nat)) :
    ∃ given next', (t.assignFrom next pending).Assigning noted first next' ∧
      (t.assignFrom next pending).names = t.names ++ given ∧
      (∀ n ∈ t.numbers, (t.assignFrom next pending).offset? n = t.offset? n) ∧
      given.map (·.1) = pending.map (·.1) ∧
      ∀ e ∈ given, ∃ offset, (e.1, offset) ∈ pending ∧ (t.assignFrom next pending).offset? e.2 = some offset := by
  induction pending generalizing t next with
  | nil => exact ⟨[], next, h, (List.append_nil _).symm, fun _ _ => rfl, rfl, List.forall_mem_nil _⟩
  | cons p pending ih =>
    obtain ⟨name, offset⟩ := p
    have hstep : t.assignFrom next ((name, offset) :: pending) =
        (t.give name (t.free next) offset).assignFrom (t.free next + 1) pending := rfl
    obtain ⟨given, next', hassigning, hnames, hoffsets, horder, hgiven⟩ := ih (h.give name offset)
    rw [hstep]
    have hfree : t.offset? (t.free next) = none := by
      rw [← Option.not_isSome_iff_eq_none, offset?_isSome]
      exact (t.free_isLeast next).1.2
    refine ⟨(name, t.free next) :: given, next', hassigning, ?_, fun n hn => ?_, by rw [List.map_cons, horder]; rfl,
      List.forall_mem_cons.mpr ⟨⟨offset, List.mem_cons_self .., ?_⟩, fun e he => ?_⟩⟩
    · rw [hnames, give_names, List.append_assoc, List.singleton_append]
    · rw [hoffsets n (mem_give.mpr (.inr hn)), GroupTable.give, offset?_noteNumber]
      exact Option.or_of_isSome (offset?_isSome.mpr hn)
    · rw [hoffsets _ (mem_give.mpr (.inl rfl)), GroupTable.give, offset?_noteNumber]
      rw [show offset? { t with names := t.names ++ [(name, t.free next)] } (t.free next) = none from hfree]
      simp
    · obtain ⟨offset', hmem, hoffset⟩ := hgiven e he
      exact ⟨offset', List.mem_cons_of_mem _ hmem, hoffset⟩

end Assigning

/-- Before the first name is numbered. -/
theorem Noting.assigning {numbers : List (Nat × Nat)} {names : List (String × Nat)} (h : t.Noting numbers names)
    (next : Nat) : Assigning { t with pending := [] } (numbers.map (·.1)) next next := by
  have hnone : ({ t with pending := [] } : GroupTable).names = [] := h.unnamed
  refine ⟨h.ascending, fun n => ?_, ?_, ?_, Nat.le_refl _, fun k hk hlt => by omega, fun before e after hnames => ?_⟩
  · rw [hnone, List.map_nil]
    exact h.mem_numbers.trans (by simp)
  · rw [hnone]
    exact .nil
  · rw [hnone]
    exact List.forall_mem_nil _
  · rw [hnone] at hnames
    cases List.append_ne_nil_of_right_ne_nil before (List.cons_ne_nil e after) hnames.symm

/-! ### The greatest number -/

theorem foldl_top (numbers : List Nat) (start : Nat) :
    start ≤ numbers.foldl (fun n number => max n (number + 1)) start ∧
      (∀ n ∈ numbers, n + 1 ≤ numbers.foldl (fun n number => max n (number + 1)) start) ∧
      (numbers.foldl (fun n number => max n (number + 1)) start = start ∨
        ∃ n ∈ numbers, numbers.foldl (fun n number => max n (number + 1)) start = n + 1) := by
  induction numbers generalizing start with
  | nil => exact ⟨Nat.le_refl _, List.forall_mem_nil _, .inl rfl⟩
  | cons number numbers ih =>
    rw [List.foldl_cons]
    obtain ⟨hstart, hall, hend⟩ := ih (max start (number + 1))
    refine ⟨by omega, List.forall_mem_cons.mpr ⟨by omega, hall⟩, ?_⟩
    rcases hend with hend | ⟨n, hn, hend⟩
    · rcases Nat.le_total (number + 1) start with hle | hle
      · exact .inl (hend.trans (max_eq_left hle))
      · exact .inr ⟨number, List.mem_cons_self .., hend.trans (max_eq_right hle)⟩
    · exact .inr ⟨n, List.mem_cons_of_mem _ hn, hend⟩

theorem top_isGreatest (h : t.numbers ≠ []) : ∃ g, IsGreatest {n | n ∈ t.numbers} g ∧ t.top = g + 1 := by
  obtain ⟨-, hall, hend⟩ := foldl_top t.numbers 0
  obtain ⟨n, hn⟩ := List.exists_mem_of_ne_nil _ h
  have hpos := hall n hn
  rcases hend with hend | ⟨g, hg, hend⟩
  · omega
  · refine ⟨g, ⟨hg, fun m hm => ?_⟩, hend⟩
    have := hall m hm
    omega

/-- As many different numbers below a bound as there are, in order, are all of them. -/
theorem isDense_iff (hascending : t.numbers.Pairwise (· < ·)) (h : t.numbers ≠ []) :
    t.isDense = true ↔ t.numbers = List.range t.size := by
  obtain ⟨g, ⟨hg, hgreatest⟩, htop⟩ := top_isGreatest h
  have hsize : t.numbers.length = t.size := List.length_map ..
  rw [isDense, beq_iff_eq, htop]
  constructor
  · intro hdense
    have hsubset : t.numbers ⊆ List.range t.size := fun n hn =>
      List.mem_range.mpr (by have := hgreatest hn; omega)
    have hperm : t.numbers.Perm (List.range t.size) :=
      (List.subperm_of_subset (hascending.imp Nat.ne_of_lt) hsubset).perm_of_length_le
        (by rw [List.length_range, hsize])
    exact hperm.eq_of_pairwise (fun a b _ _ hab hba => by omega) hascending List.pairwise_lt_range
  · intro hrange
    have hlt : g < t.size := List.mem_range.mp (hrange ▸ hg)
    have hlast : t.size - 1 ∈ t.numbers := hrange ▸ List.mem_range.mpr (by omega)
    have := hgreatest hlast
    omega

/-! ### The table in the end -/

/-- What the table is once all notes are made and the names are numbered from `next` on. -/
structure Numbering (t : GroupTable) (notes : List GroupNote) (next : Nat) : Prop where
  /-- Every name has one number. -/
  unique : ∀ a ∈ (GroupNote.names notes).map (·.1), ∃! n, (a, n) ∈ t.names
  numberOf : ∀ a n, t.numberOf? a = some n ↔ (a, n) ∈ t.names
  apart : ∀ a b n, (a, n) ∈ t.names → (b, n) ∈ t.names → a = b
  fresh : ∀ e ∈ t.names, e.2 ∉ (GroupNote.numbers notes).map (·.1)
  /-- The names stand in the order of their first appearance. -/
  names : t.names.map (·.1) = ((GroupNote.names notes).map (·.1)).eraseDups
  increasing : (t.names.map (·.2)).Pairwise (· < ·)
  least : ∀ before e after, t.names = before ++ e :: after →
    IsLeast {k | next ≤ k ∧ k ∉ (GroupNote.numbers notes).map (·.1) ∧ k ∉ before.map (·.2)} e.2
  numbers : ∀ n, n ∈ t.numbers ↔ n ∈ (GroupNote.numbers notes).map (·.1) ∨ n ∈ t.names.map (·.2)
  ascending : t.numbers.Pairwise (· < ·)
  /-- The first offset of each is kept. -/
  numberOffset : ∀ n ∈ (GroupNote.numbers notes).map (·.1), t.offset? n = (GroupNote.numbers notes).lookup n
  nameOffset : ∀ e ∈ t.names, t.offset? e.2 = (GroupNote.names notes).lookup e.1
  top : ∃ g, IsGreatest {n | n ∈ t.numbers} g ∧ t.top = g + 1
  dense : t.isDense = true ↔ t.numbers = List.range t.size

theorem ofNotes_numbering (notes : List GroupNote) (next : Nat) : (ofNotes notes next).Numbering notes next := by
  obtain ⟨s, hs⟩ : ∃ s, s = notes.foldl note (noteNumber {} 0 0) := ⟨_, rfl⟩
  have hnoting : s.Noting (GroupNote.numbers notes) (GroupNote.names notes) := hs ▸ noting_root.noteAll notes
  obtain ⟨given, next', ht, hnames, hoffsets, horder, hgiven⟩ := (hnoting.assigning next).assignFrom s.pending
  obtain ⟨t, htable⟩ : ∃ t, t = ofNotes notes next := ⟨_, rfl⟩
  have hdef : assignFrom { s with pending := [] } next s.pending = t := by
    rw [htable, hs]
    rfl
  rw [hdef] at ht hnames hoffsets hgiven
  rw [show ({ s with pending := [] } : GroupTable).names = [] from hnoting.unnamed, List.nil_append] at hnames
  subst hnames
  rw [← htable]
  have hnodup : (t.names.map (·.1)).Nodup := horder ▸ hnoting.distinct
  have hordered := horder.trans hnoting.pending
  have hzero : t.numbers ≠ [] := List.ne_nil_of_mem ((ht.numbers 0).mpr (.inl (List.mem_cons_self ..)))
  refine ⟨fun a ha => ?_, fun a n => lookup_eq_some_iff_mem hnodup, fun a b n ha hb => ?_, fun e he => ?_, hordered,
    ht.increasing, ht.least, ht.numbers, ht.ascending, fun n hn => ?_, fun e he => ?_, top_isGreatest hzero,
    isDense_iff ht.ascending hzero⟩
  · rw [← List.mem_eraseDups, ← hordered] at ha
    obtain ⟨⟨b, n⟩, he, rfl⟩ := List.mem_map.mp ha
    exact ⟨n, he, fun m hm => congrArg Prod.snd (List.inj_on_of_nodup_map hnodup hm he rfl)⟩
  · have hdistinct : (t.names.map (·.2)).Nodup := ht.increasing.imp Nat.ne_of_lt
    exact congrArg Prod.fst (List.inj_on_of_nodup_map hdistinct ha hb rfl)
  · obtain ⟨before, after, hnames⟩ := List.append_of_mem he
    exact (ht.least before e after hnames).1.2.1
  · rw [hoffsets n (hnoting.mem_numbers.mpr hn)]
    exact hnoting.offsets n
  · obtain ⟨offset, hpending, hoffset⟩ := hgiven e he
    rw [hoffset, ← hnoting.places, (lookup_eq_some_iff_mem hnoting.distinct).mpr hpending]

/-! ### What groups are called -/

theorem mem_names_of_nameOf? {a : String} (h : t.nameOf? n = some a) : (a, n) ∈ t.names := by
  obtain ⟨e, he, rfl⟩ := Option.map_eq_some_iff.mp h
  have heq : (e.2 == n) = true := List.find?_some (p := fun e : String × Nat => e.2 == n) he
  exact eq_of_beq heq ▸ List.mem_of_find?_eq_some he

/-- A proper name is no number. -/
theorem toString_ne_of_proper {a : String} (h : (GroupNote.name a offset).Proper) (n : Nat) : toString n ≠ a := by
  obtain ⟨c, rest, ha, hc⟩ := h
  rintro rfl
  have hdigits : (toString n).toList = Nat.toDigits 10 n := by simp [toString, Nat.repr]
  have hmem : c ∈ Nat.toDigits 10 n := by
    rw [← hdigits, ha]
    exact List.mem_cons_self ..
  rw [Nat.isDigit_of_mem_toDigits (by decide) (by decide) hmem] at hc
  cases hc

/-- Different groups are called differently. -/
theorem Numbering.groupNames_nodup (h : t.Numbering notes next) (hproper : ∀ x ∈ notes, x.Proper) :
    t.groupNames.Nodup := by
  have hnamed : ∀ {a : String} {n : Nat}, t.nameOf? n = some a → ∀ m : Nat, toString m ≠ a := by
    intro a n hname
    have ha : a ∈ (GroupNote.names notes).map (·.1) := by
      rw [← List.mem_eraseDups, ← h.names]
      exact List.mem_map_of_mem (mem_names_of_nameOf? hname)
    obtain ⟨⟨b, offset⟩, he, rfl⟩ := List.mem_map.mp ha
    obtain ⟨x, hx, hxb⟩ := List.mem_filterMap.mp he
    cases x with
    | number => cases hxb
    | name text offset =>
      cases hxb
      exact toString_ne_of_proper (hproper _ hx)
  refine List.Nodup.map_on (fun m hm n hn heq => ?_) (h.ascending.imp Nat.ne_of_lt)
  cases hm' : t.nameOf? m with
  | none =>
    cases hn' : t.nameOf? n with
    | none =>
      rw [hm', hn'] at heq
      exact Nat.repr_injective heq
    | some b =>
      rw [hm', hn'] at heq
      exact absurd heq (hnamed hn' m)
  | some a =>
    cases hn' : t.nameOf? n with
    | none =>
      rw [hm', hn'] at heq
      exact absurd heq.symm (hnamed hm' n)
    | some b =>
      rw [hm', hn'] at heq
      obtain rfl : a = b := heq
      exact Option.some.inj (((h.numberOf a m).mpr (mem_names_of_nameOf? hm')).symm.trans
        ((h.numberOf a n).mpr (mem_names_of_nameOf? hn')))

/-- The survey only notes what is proper. -/
theorem ofPattern_notes {pattern : List Char} {o : Options} (h : ofPattern pattern o = .ok t) :
    ∃ notes next, t = ofNotes notes next ∧ ∀ x ∈ notes, x.Proper := by
  obtain ⟨s, hs, ht⟩ := exists_ok_of_bind h
  obtain ⟨notes, htable, hproper⟩ := (Survey.run_later hs).notes
  cases ht
  exact ⟨notes, s.autocap, by rw [ofNotes, htable]; rfl, hproper⟩

/-- **Groups are numbered without gaps or clashes.** Whatever numbers and names are noted, and in
which order: every name gets one number, which no other group has, and which is the least one from
`next` on that is neither noted nor the number of an earlier name. The first offsets are kept; the
top is one more than the greatest number, and the table is dense if there are no gaps. In the table of
a pattern no two groups are called the same, and its program calls them so too. -/
theorem assignNames_numbering :
    (∀ (notes : List GroupNote) (next : Nat),
      ((notes.foldl note (noteNumber {} 0 0)).assignNames next).Numbering notes next) ∧
    ∀ (text : String) (o : Options) (culture : Culture) (p : Pattern), Pattern.parse text o culture = .ok p →
      p.table.groupNames.Nodup ∧ ∀ program, p.program = .ok program → program.groupNames = p.table.groupNames := by
  refine ⟨ofNotes_numbering, fun text o culture p hp => ⟨?_, fun program hprogram => ?_⟩⟩
  · obtain ⟨culture', hread⟩ := Pattern.parse_read hp
    obtain ⟨table, htable, hread⟩ := exists_ok_of_bind hread
    obtain ⟨r, -, hread⟩ := exists_ok_of_bind hread
    obtain ⟨root, -, hread⟩ := exists_ok_of_bind hread
    cases hread
    obtain ⟨notes, next, rfl, hproper⟩ := ofPattern_notes htable
    exact (ofNotes_numbering notes next).groupNames_nodup hproper
  · obtain ⟨ops, -, rfl⟩ := exists_ok_of_map hprogram
    refine List.map_congr_left fun n _ => ?_
    simp only [nameOf?, Pattern.code]
    cases p.table.names.find? (·.2 == n) <;> rfl

/-- Two names take the numbers around one that is declared, in the order in which they first appear. -/
theorem assignNames_numbering_filled :
    ∃ p program, Pattern.parse "(?<b>x)(?<3>y)(z)(?<a>w)(?<b>v)" {} .invariant = .ok p ∧
      p.program = .ok program ∧ p.table.groupNames = ["0", "1", "b", "3", "a"] ∧ p.table.groupNames.Nodup ∧
      program.groupNames = p.table.groupNames := by
  obtain ⟨p, hp, hcheck⟩ := exists_ok_of_check
    (Pattern.parse "(?<b>x)(?<3>y)(z)(?<a>w)(?<b>v)" {} .invariant)
    (fun p => p.program.toOption.isSome && p.table.groupNames == ["0", "1", "b", "3", "a"]) (by decide +kernel)
  obtain ⟨hsome, hnames⟩ := Bool.and_eq_true_iff.mp hcheck
  obtain ⟨hnodup, hagree⟩ := assignNames_numbering.2 _ _ _ p hp
  cases hprogram : p.program with
  | error e =>
    rw [hprogram] at hsome
    cases hsome
  | ok program => exact ⟨p, program, hp, hprogram, eq_of_beq hnames, hnodup, hagree program hprogram⟩

end GroupTable

end PatternCompiler
