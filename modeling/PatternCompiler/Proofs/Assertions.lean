import PatternCompiler.Proofs.Outcomes
import PatternCompiler.Search.Machine

/-! Tests of a position.

A runner is `On` a text when the text and its bounds are those of the runner, and it stands
within them. Then it can read the characters around it, and its test of an assertion tells
whether the assertion holds there (`On.holds`). -/
namespace PatternCompiler.Runner

/-- The runner stands within the bounds of the text. -/
structure On (r : Runner) (x : Subject) : Prop where
  text : r.text = x.text
  beg : r.beg = x.beg
  finish : r.finish = x.finish
  start : r.start = x.start
  inside : x.Inside r.pos

variable {x : Subject} {r : Runner}

theorem On.before (hr : r.On x) :
    (∃ c, r.beg < r.pos ∧ x.before? r.pos = some c ∧ r.charAt (r.pos - 1) = .ok c) ∨
      (¬ r.beg < r.pos ∧ x.before? r.pos = none) := by
  by_cases hbeg : r.beg < r.pos
  · have hlt : r.pos - 1 < x.text.size := by
      have := hr.inside.2
      have := x.finish_le_size
      omega
    refine .inl ⟨x.text[r.pos - 1], hbeg, ?_, ?_⟩
    · rw [Subject.before?, ← hr.beg, if_pos hbeg, Array.getElem?_eq_getElem hlt]
    · rw [Runner.charAt, hr.text, Array.getElem?_eq_getElem hlt]
  · exact .inr ⟨hbeg, by rw [Subject.before?, ← hr.beg, if_neg hbeg]⟩

theorem On.after (hr : r.On x) :
    (∃ c, r.pos < r.finish ∧ x.after? r.pos = some c ∧ r.charAt r.pos = .ok c) ∨
      (¬ r.pos < r.finish ∧ x.after? r.pos = none) := by
  by_cases hfinish : r.pos < r.finish
  · have hlt : r.pos < x.text.size := by
      have := x.finish_le_size
      have := hr.finish
      omega
    refine .inl ⟨x.text[r.pos], hfinish, ?_, ?_⟩
    · rw [Subject.after?, ← hr.finish, if_pos hfinish, Array.getElem?_eq_getElem hlt]
    · rw [Runner.charAt, hr.text, Array.getElem?_eq_getElem hlt]
  · exact .inr ⟨hfinish, by rw [Subject.after?, ← hr.finish, if_neg hfinish]⟩

theorem On.boundary (hr : r.On x) (isWord : Char → Bool) :
    r.boundary isWord r.pos = .ok (x.boundary isWord r.pos) := by
  have hbefore : r.wordAt isWord (r.beg < r.pos) (r.pos - 1) =
      .ok ((x.before? r.pos).any isWord) := by
    rcases hr.before with ⟨c, hlt, hbefore, hc⟩ | ⟨hlt, hbefore⟩
    · simp [Runner.wordAt, hlt, hbefore, hc]
    · simp [Runner.wordAt, hlt, hbefore]
  have hafter : r.wordAt isWord (r.pos < r.finish) r.pos = .ok ((x.after? r.pos).any isWord) := by
    rcases hr.after with ⟨c, hlt, hafter, hc⟩ | ⟨hlt, hafter⟩
    · simp [Runner.wordAt, hlt, hafter, hc]
    · simp [Runner.wordAt, hlt, hafter]
  rw [Runner.boundary, hbefore, hafter]
  rfl

theorem On.holds_endZ (hr : r.On x) : r.holds .endZ = .ok (x.holds r.pos .endZ) := by
  have hfinish : r.pos ≤ x.finish := hr.inside.2
  have hnext : Word.after r.pos 1 = .ok (r.pos + 1) := by
    have := x.double_lt_modulus hr.inside
    exact Word.after_of_lt (by simp only [Word.modulus] at *; omega)
  rw [Runner.holds, Subject.holds, hnext, hr.finish]
  simp only [bind, Except.bind]
  rcases Nat.lt_trichotomy (r.pos + 1) x.finish with hlt | heq | hgt
  · have hne : r.pos ≠ x.finish := by omega
    simp [hlt, hne, Nat.ne_of_lt hlt]
  · have hlt : r.pos < r.finish := by
      rw [hr.finish]
      omega
    rcases hr.after with ⟨c, -, hafter, hc⟩ | ⟨hge, -⟩
    · have hne : r.pos ≠ x.finish := by omega
      simp [heq, hafter, hc, hne]
    · exact absurd hlt hge
  · have heq : r.pos = x.finish := by omega
    simp [heq]

theorem On.holds (hr : r.On x) (a : Assertion) : r.holds a = .ok (x.holds r.pos a) := by
  have hbeg : x.beg ≤ r.pos := hr.inside.1
  have hfinish : r.pos ≤ x.finish := hr.inside.2
  cases a with
  | bol =>
    rw [Runner.holds, Subject.holds]
    rcases hr.before with ⟨c, hlt, hbefore, hc⟩ | ⟨hlt, hbefore⟩
    · simp [hlt, hbefore, hc]
    · simp [hlt, hbefore]
  | eol =>
    rw [Runner.holds, Subject.holds]
    rcases hr.after with ⟨c, hlt, hafter, hc⟩ | ⟨hlt, hafter⟩
    · simp [hlt, hafter, hc]
    · simp [hlt, hafter]
  | boundary => exact hr.boundary _
  | nonboundary =>
    rw [Runner.holds, Runner.isBoundary, hr.boundary]
    rfl
  | ecmaBoundary => exact hr.boundary _
  | nonEcmaBoundary =>
    rw [Runner.holds, Runner.isEcmaBoundary, hr.boundary]
    rfl
  | beginning =>
    rw [Runner.holds, Subject.holds, hr.beg]
    refine congrArg Except.ok (Bool.eq_iff_iff.mpr ?_)
    simp only [decide_eq_true_eq, beq_iff_eq]
    omega
  | start => rw [Runner.holds, Subject.holds, hr.start]
  | endZ => exact hr.holds_endZ
  | finish =>
    rw [Runner.holds, Subject.holds, hr.finish]
    refine congrArg Except.ok (Bool.eq_iff_iff.mpr ?_)
    simp only [decide_eq_true_eq, beq_iff_eq]
    omega

end PatternCompiler.Runner
