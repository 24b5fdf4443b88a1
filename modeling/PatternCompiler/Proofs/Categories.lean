import PatternCompiler.CharClass.Level
import PatternCompiler.Proofs.CanonicalClasses

/-! Shorthands and categories at the surrogates.

No table lists the character before the surrogates. Of the categories with a name, only the
unassigned characters and their family have it, and both are safe from being split there: the
unassigned ones lack the character after the surrogates, and the family goes over them. So no
category and no shorthand is split (`Category.not_splits_named?`, `Shorthand.not_splits_charClass`). -/
namespace PatternCompiler

open CharClass (covered Splits)

namespace CharClass

variable {rs : List CharRange}

theorem not_splits_ofRanges (h : '\uD7FF' ∉ covered rs) : ¬ Splits (ofRanges rs).ranges.toList :=
  fun hsplits => h (splits_ofRanges.mp hsplits).below

end CharClass

namespace Unicode

/-! ### Tables -/

namespace Table

/-- The ranges of a table, by the characters of its text. -/
def rangesOf (cs : List Char) : List CharRange :=
  (((fields ' ' (cs.map fun c => if c = '\n' then ' ' else c)).filter (!·.isEmpty)).map Stretch.read).flatMap
    Stretch.ranges

theorem ranges_ofList {text : String} {cs : List Char} (h : text = String.ofList cs) :
    ranges text = rangesOf cs := by
  rw [ranges, read, words, h, String.toList_ofList, rangesOf]

/-- Whether a text lists a character can be read off its characters. -/
theorem not_covered {text : String} {cs : List Char} {d : Char} (h : text = String.ofList cs)
    (hcs : ((rangesOf cs).all fun r => !(CharRange.between r.lo r.hi).contains d) = true) :
    d ∉ covered (ranges text) := by
  rw [ranges_ofList h]
  rintro ⟨r, hr, hd⟩
  have hout := List.all_eq_true.mp hcs r hr
  rw [CharRange.contains_between.mpr hd] at hout
  cases hout

end Table

/-! ### Categories -/

namespace Category

set_option maxRecDepth 20000 in
/-- The tables are read here, one by one. -/
theorem below_not_covered_table (k : Category) : '\uD7FF' ∉ covered (Table.ranges k.table) := by
  cases k <;> exact Table.not_covered rfl (by decide +kernel)

theorem ranges_eq_table {k : Category} (hcn : k ≠ cn) (hcs : k ≠ cs) : k.ranges = Table.ranges k.table := by
  cases k with
  | cn => exact absurd rfl hcn
  | cs => exact absurd rfl hcs
  | _ => rfl

/-- The ranges of the unassigned characters. They are named by a variable, so that they are never computed. -/
theorem ranges_cn {rs : List CharRange}
    (h : rs = (CharClass.ofRanges (assigned.flatMap fun k => Table.ranges k.table)).complement.ranges.toList) :
    cn.ranges = rs := by
  rw [ranges.eq_def, ← h]

theorem below_not_covered {ks : List Category} (h : ∀ k ∈ ks, k ≠ cn ∧ k ≠ cs) :
    '\uD7FF' ∉ covered (ks.flatMap ranges) := by
  rw [CharClass.mem_covered_flatMap]
  rintro ⟨k, hk, hc⟩
  rw [ranges_eq_table (h k hk).1 (h k hk).2] at hc
  exact below_not_covered_table k hc

theorem above_covered_private : '\uE000' ∈ covered (Table.ranges co.table) := by
  rw [Table.ranges_ofList (show co.table = String.ofList _ from rfl)]
  decide +kernel

/-- The character after the surrogates is a private one, so it is not unassigned. -/
theorem above_not_covered_unassigned : '\uE000' ∉ covered cn.ranges := by
  have hassigned : '\uE000' ∈ covered (assigned.flatMap fun k => Table.ranges k.table) :=
    CharClass.mem_covered_flatMap.mpr ⟨co, by decide, above_covered_private⟩
  have hbelow : '\uD7FF' ∉ covered (assigned.flatMap fun k => Table.ranges k.table) := by
    rw [CharClass.mem_covered_flatMap]
    rintro ⟨k, _, hc⟩
    exact below_not_covered_table k hc
  rw [ranges_cn rfl, CharClass.covered_complement (CharClass.ofRanges_ascending _), CharClass.covered_ofRanges,
    Set.mem_union, Set.mem_compl_iff, CharClass.mem_stray]
  exact not_or.mpr ⟨not_not.mpr hassigned, fun h => CharClass.not_splits_ofRanges hbelow h.1⟩

theorem ofName?_cases {name : String} {ks : List Category} (h : ofName? name = some ks) :
    (∀ k ∈ ks, k ≠ cn ∧ k ≠ cs) ∨ ks = [cn] ∨ cs ∈ ks := by
  unfold ofName? at h
  split at h <;> cases h <;> decide

theorem not_splits_classOf {ks : List Category}
    (h : (∀ k ∈ ks, k ≠ cn ∧ k ≠ cs) ∨ ks = [cn] ∨ cs ∈ ks) : ¬ Splits (classOf ks).ranges.toList := by
  rcases h with h | rfl | h
  · exact CharClass.not_splits_ofRanges (below_not_covered h)
  · intro hsplits
    obtain ⟨k, hk, hc⟩ := CharClass.mem_covered_flatMap.mp (CharClass.splits_ofRanges.mp hsplits).above
    rw [List.mem_singleton.mp hk] at hc
    exact above_not_covered_unassigned hc
  · intro hsplits
    have hover := (CharClass.splits_ofRanges.mp hsplits).apart surrogates
      (List.mem_flatMap.mpr ⟨cs, h, List.mem_singleton_self _⟩)
    exact hover (by decide)

/-- **No category with a name is split at the surrogates.** -/
theorem not_splits_named? {name : String} {ignoreCase : Bool} {k : CharClass}
    (h : named? name ignoreCase = some k) : ¬ Splits k.ranges.toList := by
  obtain ⟨ks, hks, rfl⟩ := Option.map_eq_some_iff.mp h
  split
  · exact not_splits_classOf (.inl (by decide))
  · exact not_splits_classOf (ofName?_cases hks)

end Category

end Unicode

/-! ### Shorthands -/

open Unicode in
/-- **No shorthand is split at the surrogates.** -/
theorem Shorthand.not_splits_charClass (s : Shorthand) (ecma : Bool) :
    ¬ Splits (s.charClass ecma).ranges.toList := by
  cases ecma with
  | true => cases s <;> exact CharClass.not_splits_ofRanges (by decide)
  | false =>
    cases s with
    | word =>
      refine CharClass.not_splits_ofRanges ?_
      rw [CharClass.covered_append]
      rintro (hc | hc)
      · exact Category.below_not_covered (by decide) hc
      · exact Table.not_covered rfl (by decide +kernel) hc
    | digit => exact Category.not_splits_classOf (.inl (by decide))
    | space => exact CharClass.not_splits_ofRanges (Table.not_covered rfl (by decide +kernel))

end PatternCompiler
