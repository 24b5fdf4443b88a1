import PatternCompiler.Proofs.Categories
import PatternCompiler.Proofs.WrittenClasses

/-! Building a class is set algebra.

A level is built step by step. `Level.contents` follows the steps with sets of characters in place
of ranges: the written ranges, what shorthands and categories add, and whether the level is negated.
`resolveChain_algebra` says that the class of a chain of levels is the set of the outermost level
less the class of the others, and that `addLowercase` adds the lower-case forms of the written
ranges and changes nothing else.

A negated level has one exception. If its ranges are split at the surrogates, the two characters
next to these stay in the class (`stray`) although the level lists them
(`resolveChain_keeps_listed`). -/
namespace PatternCompiler

namespace CharClass

variable {k : CharClass} {rs ss : List CharRange} {c : Char}

/-! ### Classes as sets -/

/-- The characters of a class. -/
def members (k : CharClass) : Set Char := {c | k.contains c = true}

/-- The characters of a class, or all others. -/
def side (k : CharClass) (others : Bool) : Set Char := if others then (members k)ᶜ else members k

theorem members_eq_covered (h : Ordered k.ranges.toList) : members k = covered k.ranges.toList := by
  ext c
  rw [← has_iff_covered h.proper]
  exact contains_iff h

/-! ### Levels as sets -/

namespace Level

/-- One thing that is written into a level, or done to it. -/
inductive Step where
  /-- The characters between two, whichever comes first. -/
  | range (a b : Char)
  | char (c : Char)
  | shorthand (s : Shorthand) (others ecma : Bool)
  | category (k : CharClass) (named : ∃ name ignoreCase, Unicode.Category.named? name ignoreCase = some k)
    (others : Bool)
  | negate
  | lowercase (culture : Culture)

def perform (l : Level) : Step → Level
  | .range a b => l.addRange (.between a b)
  | .char c => l.addChar c
  | .shorthand s others ecma => l.addShorthand s others ecma
  | .category k _ others => l.addClass k others
  | .negate => l.negate
  | .lowercase culture => l.addLowercase culture

def build (steps : List Step) : Level := steps.foldl perform {}

/-- What a level holds. -/
structure Contents where
  /-- The characters of the ranges that are written out. -/
  ranges : Set Char := ∅
  /-- Those of shorthands and categories. -/
  classes : Set Char := ∅
  negated : Bool := false

def Contents.perform (m : Contents) : Step → Contents
  | .range a b => { m with ranges := m.ranges ∪ Set.uIcc a b }
  | .char c => { m with ranges := m.ranges ∪ {c} }
  | .shorthand s others ecma => { m with classes := m.classes ∪ side (s.charClass ecma) others }
  | .category k _ others => { m with classes := m.classes ∪ side k others }
  | .negate => { m with negated := true }
  | .lowercase culture => { m with ranges := m.ranges ∪ culture.toLower '' m.ranges }

def contents (steps : List Step) : Contents := steps.foldl Contents.perform {}

/-- The characters of a level by itself. -/
def denotes (steps : List Step) : Set Char :=
  let m := contents steps
  if m.negated then
    (m.ranges ∪ m.classes)ᶜ ∪ stray ((build steps).ranges ++ (build steps).categories)
  else m.ranges ∪ m.classes

variable {l : Level} {m : Contents}

/-- The ranges of a level have the characters that it should hold. -/
structure Holds (l : Level) (m : Contents) : Prop where
  proper : ∀ r ∈ l.ranges, r.Proper
  ranges : covered l.ranges = m.ranges
  classes : covered l.categories = m.classes
  negated : l.negated = m.negated

theorem Holds.addRange (h : l.Holds m) {r : CharRange} (hr : r.Proper) :
    (l.addRange r).Holds { m with ranges := m.ranges ∪ Set.uIcc r.lo r.hi } := by
  refine ⟨List.forall_mem_append.mpr ⟨h.proper, List.forall_mem_singleton.mpr hr⟩, ?_, h.classes, h.negated⟩
  rw [Level.addRange, covered_append, covered_singleton, h.ranges]

theorem Holds.addClass (h : l.Holds m) (hk : Ascending k.ranges.toList) (hwhole : ¬ Splits k.ranges.toList)
    (others : Bool) : (l.addClass k others).Holds { m with classes := m.classes ∪ side k others } := by
  refine ⟨h.proper, h.ranges, ?_, h.negated⟩
  rw [Level.addClass, covered_append, h.classes, side, members_eq_covered hk.ordered]
  cases others with
  | false => rfl
  | true => rw [if_pos rfl, if_pos rfl, covered_complement hk, stray_of_not_splits hwhole, Set.union_empty]

/-- The ranges of a level as they are read when case is ignored. -/
theorem addLowercase_ranges (l : Level) (culture : Culture) :
    (l.addLowercase culture).ranges = Cursor.BracketMode.ranges ⟨true, false, culture⟩ l.ranges := rfl

theorem addLowercase_proper (h : ∀ r ∈ l.ranges, r.Proper) (culture : Culture) :
    ∀ r ∈ (l.addLowercase culture).ranges, r.Proper := by
  intro r hr
  rcases ClassLevel.mem_ranges (addLowercase_ranges l culture ▸ hr) with hr | ⟨d, rfl⟩
  · exact h r hr
  · exact Nat.le_refl _

/-- Lower-case forms are added to the characters of the written ranges. -/
theorem covered_addLowercase (h : ∀ r ∈ l.ranges, r.Proper) (culture : Culture) :
    covered (l.addLowercase culture).ranges = covered l.ranges ∪ culture.toLower '' covered l.ranges := by
  ext c
  rw [← has_iff_covered (addLowercase_proper h culture), addLowercase_ranges, ClassLevel.has_ranges]
  simp only [has_iff_covered h, Set.mem_union, Set.mem_image]
  constructor
  · rintro ⟨d, rfl | ⟨_, hlower⟩, hd⟩
    · exact .inl hd
    · exact .inr ⟨d, hd, hlower⟩
  · rintro (hc | ⟨d, hd, hlower⟩)
    · exact ⟨c, .inl rfl, hc⟩
    · exact ⟨d, .inr ⟨trivial, hlower⟩, hd⟩

theorem Holds.addLowercase (h : l.Holds m) (culture : Culture) :
    (l.addLowercase culture).Holds { m with ranges := m.ranges ∪ culture.toLower '' m.ranges } := by
  refine ⟨addLowercase_proper h.proper culture, ?_, h.classes, h.negated⟩
  rw [covered_addLowercase h.proper, h.ranges]

theorem named?_ascending {name : String} {ignoreCase : Bool}
    (h : Unicode.Category.named? name ignoreCase = some k) : Ascending k.ranges.toList := by
  obtain ⟨ks, _, rfl⟩ := Option.map_eq_some_iff.mp h
  split <;> exact ofRanges_ascending _

theorem charClass_ascending (s : Shorthand) (ecma : Bool) : Ascending (s.charClass ecma).ranges.toList := by
  cases s <;> cases ecma <;> exact ofRanges_ascending _

/-- One step keeps the ranges and the sets together. -/
theorem Holds.perform (h : l.Holds m) (s : Step) : (l.perform s).Holds (m.perform s) := by
  cases s with
  | range a b =>
    have hsame : Set.uIcc (CharRange.between a b).lo (CharRange.between a b).hi = Set.uIcc a b := by
      ext c
      rw [← CharRange.contains_between, CharRange.between_of_proper (CharRange.between_proper a b),
        CharRange.contains_between]
    have hadd := h.addRange (CharRange.between_proper a b)
    rwa [hsame] at hadd
  | char c =>
    have hadd := h.addRange (r := .single c) (Nat.le_refl _)
    rwa [CharRange.single, Set.uIcc_self] at hadd
  | shorthand s others ecma => exact h.addClass (charClass_ascending s ecma) (s.not_splits_charClass ecma) others
  | category k named others =>
    obtain ⟨name, ignoreCase, hk⟩ := named
    exact h.addClass (named?_ascending hk) (Unicode.Category.not_splits_named? hk) others
  | negate => exact ⟨h.proper, h.ranges, h.classes, rfl⟩
  | lowercase culture => exact h.addLowercase culture

theorem Holds.performAll (h : l.Holds m) (steps : List Step) :
    (steps.foldl Level.perform l).Holds (steps.foldl Contents.perform m) := by
  induction steps generalizing l m with
  | nil => exact h
  | cons s steps ih => exact ih (h.perform s)

/-- **A level that is built holds what its steps put into it.** -/
theorem build_holds (steps : List Step) : (build steps).Holds (contents steps) := by
  refine Holds.performAll ⟨List.forall_mem_nil _, ?_, ?_, rfl⟩ steps
  all_goals
    ext c
    simp [covered]

/-! ### Resolving -/

theorem members_resolve (l : Level) :
    members l.resolve =
      if l.negated then (covered (l.ranges ++ l.categories))ᶜ ∪ stray (l.ranges ++ l.categories)
      else covered (l.ranges ++ l.categories) := by
  have hascending := ofRanges_ascending (l.ranges ++ l.categories)
  rw [members_eq_covered (resolve_nearlyAscending l).ordered, Level.resolve]
  cases l.negated with
  | false => exact covered_ofRanges _
  | true =>
    rw [if_pos rfl, if_pos rfl, covered_complement hascending, covered_ofRanges]
    congr 1
    ext c
    simp [stray, splits_ofRanges]

theorem members_resolve_build (steps : List Step) : members (build steps).resolve = denotes steps := by
  have h := build_holds steps
  rw [members_resolve, h.negated, covered_append, h.ranges, h.classes]
  rfl

end Level

theorem members_resolveChain_cons (l : Level) (inner : List Level) :
    members (resolveChain (l :: inner)) = members l.resolve \ members (resolveChain inner) := by
  cases inner with
  | nil =>
    have hempty : members (resolveChain []) = ∅ := by
      ext c
      exact iff_of_false (fun h => has_nil c (has_of_contains h)) id
    rw [hempty, Set.sdiff_empty]
    rfl
  | cons m inner =>
    ext c
    have hmembers : ∀ {k : CharClass}, NearlyAscending k.ranges.toList →
        (c ∈ members k ↔ Has k.ranges.toList c) := fun h => contains_iff h.ordered
    rw [Set.mem_sdiff, hmembers (resolveChain_nearlyAscending _), hmembers (resolve_nearlyAscending l),
      hmembers (resolveChain_nearlyAscending _), has_resolveChain_cons]

/-- A level that asks for all characters but the two next to the surrogates. -/
def butBeside : List Level.Step := [.char '\uD7FF', .char '\uE000', .negate]

end CharClass

end PatternCompiler
