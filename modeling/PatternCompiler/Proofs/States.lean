import PatternCompiler.Builder
import PatternCompiler.Proofs.Accepted
import PatternCompiler.Proofs.Templates

/-! The match routine is a closed state machine.

Operations are cut into segments before each at which a state begins (`Segmented`), and every
segment is an arm. `Routine.Closed` says what that makes of the routine: its arms are the
states, all operations are written, each in the arm of the nearest state before it, and no
statement sets a state that has no arm. It holds of every routine whose program ends with the end
of the match, so of that of every pattern that builds (`Builder.build_closed`). -/
namespace PatternCompiler

open Source

namespace Routine

/-! ### Segments -/

/-- Segments that each hold at most one operation at which a state begins, and begin with it. Only
before the first one there may be none. -/
inductive Segmented (isLabel : Nat → Bool) : List (List Operation) → Prop where
  | nil : Segmented isLabel []
  | cons {o : Operation} {seg : List Operation} {rest : List (List Operation)}
      (inner : ∀ x ∈ seg, isLabel x.id = false) (next : ∀ k ∈ firstLabel? rest, isLabel k = true)
      (tail : Segmented isLabel rest) : Segmented isLabel ((o :: seg) :: rest)

theorem segments_segmented (isLabel : Nat → Bool) (ops : List Operation) :
    Segmented isLabel (segments isLabel ops) ∧ (segments isLabel ops).flatten = ops := by
  induction ops with
  | nil => exact ⟨.nil, rfl⟩
  | cons o rest ih =>
    obtain ⟨hsegmented, hflatten⟩ := ih
    rw [segments]
    cases hrest : segments isLabel rest with
    | nil =>
      rw [hrest] at hflatten
      exact ⟨.cons (by simp) (by simp [firstLabel?]) .nil, by simpa using hflatten⟩
    | cons seg more =>
      rw [hrest] at hsegmented hflatten
      cases hsegmented with
      | @cons next seg _ hinner hnext htail =>
        by_cases hlabel : isLabel next.id = true
        · simp only [if_pos hlabel]
          refine ⟨.cons (by simp) ?_ (.cons hinner hnext htail), by simpa using hflatten⟩
          simpa [firstLabel?] using hlabel
        · simp only [if_neg hlabel]
          refine ⟨.cons ?_ hnext htail, by simpa using hflatten⟩
          exact List.forall_mem_cons.mpr ⟨by simpa using hlabel, hinner⟩

variable {m : Routine} {isLabel : Nat → Bool} {segs : List (List Operation)}

/-- The states of the arms are the operations at which one begins. -/
theorem Segmented.labels (h : Segmented isLabel segs) (hfirst : ∀ k ∈ firstLabel? segs, isLabel k = true) :
    (m.armsOf segs).map Arm.label = (segs.flatten.map (·.id)).filter isLabel := by
  induction h with
  | nil => rfl
  | @cons o seg rest hinner hnext htail ih =>
    have hlabel : isLabel o.id = true := hfirst o.id (by simp [firstLabel?])
    have hseg : (seg.map (·.id)).filter isLabel = [] := by
      rw [List.filter_eq_nil_iff]
      intro k hk
      obtain ⟨x, hx, rfl⟩ := List.mem_map.mp hk
      simp [hinner x hx]
    rw [armsOf, List.map_cons, ih hnext, List.flatten_cons, List.cons_append, List.map_cons,
      List.filter_cons_of_pos hlabel, List.map_append, List.filter_append, hseg, List.nil_append]

/-- An operation at which a state begins, and those up to the next such one. -/
structure IsSegment (isLabel : Nat → Bool) (ops before : List Operation) (o : Operation)
    (seg after : List Operation) : Prop where
  split : ops = before ++ (o :: seg ++ after)
  first : isLabel o.id = true
  inner : ∀ x ∈ seg, isLabel x.id = false
  next : ∀ x ∈ after.head?, isLabel x.id = true

theorem IsSegment.mem {ops before after seg : List Operation} {o x : Operation}
    (h : IsSegment isLabel ops before o seg after) (hx : x ∈ o :: seg) : x ∈ ops := by
  rw [h.split]
  exact List.mem_append_right _ (List.mem_append_left _ hx)

theorem Segmented.firstLabel?_eq (h : Segmented isLabel segs) :
    firstLabel? segs = segs.flatten.head?.map (·.id) := by
  cases h <;> rfl

theorem Segmented.isSegment (h : Segmented isLabel segs) (hfirst : ∀ k ∈ firstLabel? segs, isLabel k = true)
    {pre post : List (List Operation)} {o : Operation} {seg : List Operation}
    (hsplit : segs = pre ++ (o :: seg) :: post) :
    IsSegment isLabel segs.flatten pre.flatten o seg post.flatten ∧
      firstLabel? post = post.flatten.head?.map (·.id) := by
  induction h generalizing pre with
  | nil => simp at hsplit
  | @cons o' seg' rest hinner hnext htail ih =>
    cases pre with
    | nil =>
      obtain ⟨hhead, rfl⟩ := List.cons.inj hsplit
      obtain ⟨rfl, rfl⟩ := List.cons.inj hhead
      have hrest := htail.firstLabel?_eq
      refine ⟨⟨rfl, hfirst _ (by simp [firstLabel?]), hinner, fun x hx => hnext x.id ?_⟩, hrest⟩
      rw [hrest, Option.mem_def.mp hx]
      rfl
    | cons s pre =>
      obtain ⟨rfl, hrest⟩ := List.cons.inj hsplit
      obtain ⟨hsegment, hlast⟩ := ih hnext hrest
      refine ⟨⟨?_, hsegment.first, hsegment.inner, hsegment.next⟩, hlast⟩
      rw [List.flatten_cons, hsegment.split, List.flatten_cons, List.append_assoc]

/-- Where an arm comes from. -/
theorem Segmented.exists_of_mem_armsOf (h : Segmented isLabel segs) {a : Arm} (ha : a ∈ m.armsOf segs) :
    ∃ pre o seg post, segs = pre ++ (o :: seg) :: post ∧ a.label = o.id ∧
      a.body = m.operationsCode (o :: seg) ++ armEnd ((o :: seg).getLast?.getD o) (firstLabel? post) := by
  induction h with
  | nil => cases ha
  | @cons o seg rest _ _ _ ih =>
    rw [armsOf] at ha
    rcases List.mem_cons.mp ha with rfl | ha
    · exact ⟨[], o, seg, rest, rfl, rfl, rfl⟩
    · obtain ⟨pre, o', seg', post, rfl, hrest⟩ := ih ha
      exact ⟨(o :: seg) :: pre, o', seg', post, rfl, hrest⟩

theorem Segmented.flatMap_labels (h : Segmented isLabel segs) (f : Nat → List Operation)
    (hf : ∀ o seg, o :: seg ∈ segs → f o.id = o :: seg) :
    ((m.armsOf segs).map Arm.label).flatMap f = segs.flatten := by
  induction h with
  | nil => rfl
  | @cons o seg rest _ _ _ ih =>
    rw [armsOf, List.map_cons, List.flatMap_cons, hf o seg (List.mem_cons_self ..),
      ih fun o seg hmem => hf o seg (List.mem_cons_of_mem _ hmem), List.flatten_cons]

/-! ### States -/

/-- The operations of the state that begins at `k`: no other state begins after `k` and up to them. -/
def operationsFrom (m : Routine) (labels : List Nat) (k : Nat) : List Operation :=
  m.operations.toList.filter fun o => Nat.findGreatest (· ∈ labels) o.id = k

/-- Control that comes to the end of the operations of a state goes on to the next one. -/
def Continues (m : Routine) (labels : List Nat) (a : Arm) : Prop :=
  (Stmt.anyLeaves (m.operationsCode (m.operationsFrom labels a.label)) = true ∧
      a.body = m.operationsCode (m.operationsFrom labels a.label)) ∨
    ∃ next ∈ labels, a.label < next ∧ (∀ k ∈ labels, a.label < k → next ≤ k) ∧
      a.body = m.operationsCode (m.operationsFrom labels a.label) ++ [.setState next]

/-- The routine is a state machine with the given states. -/
structure Closed (m : Routine) (labels : List Nat) : Prop where
  ascending : labels.Pairwise (· < ·)
  entry : labels.head? = some 0
  inside : ∀ k ∈ labels, k < m.operations.size
  /-- Besides the arms of the states there is only the one that takes a tag. -/
  written : .block "match state" (m.arms.map (fun a => .block (toString a.label ++ " =>") a.body) ++
    [m.dispatchCode, .code "_ => unreachable!(\"unknown state\"),"]) ∈ Stmt.statementsOf m.code
  arms : m.arms.map Arm.label = labels
  /-- Every operation is written once, in the order of the numbers. -/
  ids : m.operations.toList.map (·.id) = List.range m.operations.size
  complete : labels.flatMap (m.operationsFrom labels) = m.operations.toList
  bodies : ∀ a ∈ m.arms, m.Continues labels a
  /-- A state is set only by its number or to the one that takes a tag. -/
  jumps : ∀ k, .setState k ∈ Stmt.statementsOf m.code → k ∈ labels
  lines : ∀ p, .line p ∈ Stmt.statementsOf m.code → ¬ "state = ".toList <+: p.toText.toList

end Routine

namespace Program

variable {p : Program}

theorem mem_labels {k : Nat} : k ∈ p.labels ↔ k < p.operations.size ∧ p.isLabel k = true := by
  simp [labels]

theorem labels_ascending (p : Program) : p.labels.Pairwise (· < ·) :=
  List.pairwise_lt_range.filter _

namespace Numbered

theorem labels_entry (h : p.Numbered) : p.labels.head? = some 0 := by
  obtain ⟨n, hn⟩ := Nat.exists_eq_succ_of_ne_zero (Nat.ne_of_gt h.nonempty)
  rw [labels, hn, List.range_succ_eq_map, List.filter_cons_of_pos (by simp [isLabel])]
  rfl

theorem ascending (h : p.Numbered) : p.operations.toList.Pairwise (·.id < ·.id) := by
  have hids := h.ids ▸ List.pairwise_lt_range (n := p.operations.size)
  exact List.pairwise_map.mp hids

theorem exists_of_lt (h : p.Numbered) {k : Nat} (hk : k < p.operations.size) :
    ∃ o ∈ p.operations.toList, o.id = k := by
  have hmem : k ∈ p.operations.toList.map (·.id) := by rw [h.ids]; exact List.mem_range.mpr hk
  exact List.mem_map.mp hmem

section Segment

variable {before seg after : List Operation} {o : Operation}

/-- The numbers before a segment, in it and after it. -/
theorem segment_ascending (h : p.Numbered)
    (hs : Routine.IsSegment p.isLabel p.operations.toList before o seg after) :
    (∀ x ∈ before, x.id < o.id) ∧ (∀ x ∈ seg, o.id < x.id) ∧ (∀ x ∈ o :: seg, ∀ y ∈ after, x.id < y.id) ∧
      ∀ y ∈ after.head?, ∀ x ∈ after, y.id ≤ x.id := by
  have hascending := h.ascending
  rw [hs.split] at hascending
  obtain ⟨_, hsegment, hbefore⟩ := List.pairwise_append.mp hascending
  obtain ⟨hseg, hafter, hcross⟩ := List.pairwise_append.mp hsegment
  refine ⟨fun x hx => hbefore x hx o (by simp), fun x hx => List.rel_of_pairwise_cons hseg hx, hcross, ?_⟩
  intro y hy x hx
  obtain ⟨rest, rfl⟩ := List.head?_eq_some_iff.mp hy
  rcases List.mem_cons.mp hx with rfl | hx
  · exact Nat.le_refl _
  · exact Nat.le_of_lt (List.rel_of_pairwise_cons hafter hx)

/-- After a segment a state begins. -/
theorem next_mem_labels (h : p.Numbered)
    (hs : Routine.IsSegment p.isLabel p.operations.toList before o seg after) {x : Operation}
    (hx : x ∈ after.head?) : x.id ∈ p.labels := by
  refine mem_labels.mpr ⟨h.id_lt ?_, hs.next x hx⟩
  rw [hs.split]
  exact List.mem_append_right _ (List.mem_append_right _ (List.mem_of_mem_head? hx))

/-- A state that begins after a segment has begun does not begin before the segment ends. -/
theorem exists_next (h : p.Numbered)
    (hs : Routine.IsSegment p.isLabel p.operations.toList before o seg after) {k : Nat} (hk : k ∈ p.labels)
    (hlt : o.id < k) : ∃ x ∈ after.head?, x.id ≤ k := by
  obtain ⟨hsize, hlabel⟩ := mem_labels.mp hk
  obtain ⟨y, hy, rfl⟩ := h.exists_of_lt hsize
  obtain ⟨hbefore, _, _, hafter⟩ := h.segment_ascending hs
  rw [hs.split, List.mem_append, List.mem_append] at hy
  rcases hy with hy | hy | hy
  · exact absurd (hbefore y hy) (Nat.not_lt_of_lt hlt)
  · rcases List.mem_cons.mp hy with rfl | hy
    · exact absurd hlt (Nat.lt_irrefl _)
    · simp [hs.inner y hy] at hlabel
  · obtain ⟨x, rest, rfl⟩ := List.exists_cons_of_ne_nil (List.ne_nil_of_mem hy)
    exact ⟨x, rfl, hafter x rfl y hy⟩

/-- A segment is what is nearest to its first operation. -/
theorem filter_nearest (h : p.Numbered)
    (hs : Routine.IsSegment p.isLabel p.operations.toList before o seg after) :
    (p.operations.toList.filter fun x => Nat.findGreatest (· ∈ p.labels) x.id = o.id) = o :: seg := by
  obtain ⟨hbefore, hseg, hcross, hafter⟩ := h.segment_ascending hs
  have hmem : o.id ∈ p.labels :=
    mem_labels.mpr ⟨h.id_lt (hs.mem (List.mem_cons_self ..)), hs.first⟩
  have hnone : before.filter (fun x => Nat.findGreatest (· ∈ p.labels) x.id = o.id) = [] := by
    rw [List.filter_eq_nil_iff]
    intro x hx
    have hlt := hbefore x hx
    have hle := Nat.findGreatest_le (P := (· ∈ p.labels)) x.id
    simp only [decide_eq_true_eq]
    omega
  have hall : (o :: seg).filter (fun x => Nat.findGreatest (· ∈ p.labels) x.id = o.id) = o :: seg := by
    rw [List.filter_eq_self]
    intro x hx
    rw [decide_eq_true_eq, Nat.findGreatest_eq_iff]
    refine ⟨?_, fun _ => hmem, fun k hlt hle hk => ?_⟩
    · rcases List.mem_cons.mp hx with rfl | hx
      · exact Nat.le_refl _
      · exact Nat.le_of_lt (hseg x hx)
    · obtain ⟨y, hy, hyk⟩ := h.exists_next hs hk hlt
      have := hcross x hx y (List.mem_of_mem_head? hy)
      omega
  have hnone' : after.filter (fun x => Nat.findGreatest (· ∈ p.labels) x.id = o.id) = [] := by
    rw [List.filter_eq_nil_iff]
    intro x hx
    obtain ⟨y, rest, rfl⟩ := List.exists_cons_of_ne_nil (List.ne_nil_of_mem hx)
    have hlt := hcross o (List.mem_cons_self ..) y (List.mem_cons_self ..)
    have hge := Nat.le_findGreatest (P := (· ∈ p.labels)) (hafter y rfl x hx) (h.next_mem_labels hs rfl)
    simp only [decide_eq_true_eq]
    omega
  rw [hs.split, List.filter_append, List.filter_append, hnone, hall, hnone', List.nil_append, List.append_nil]

end Segment

end Numbered

end Program

/-! ### What stands in the routine -/

/-- A statement that neither sets a state nor leaves a tag. -/
def Source.Stmt.Passive : Stmt → Prop
  | .setState _ => False
  | .pushTag _ => False
  | .line p => Inert p.toText
  | _ => True

namespace Routine

variable {m : Routine} {s : Stmt}

theorem mem_operationsCode {ops : List Operation} (h : s ∈ Stmt.statementsOf (m.operationsCode ops)) :
    s.Passive ∨ ∃ o ∈ ops, s ∈ Stmt.statementsOf (m.forwardCode o) := by
  rw [operationsCode, Stmt.statementsOf_flatMap] at h
  obtain ⟨o, ho, h⟩ := List.mem_flatMap.mp h
  rcases List.mem_cons.mp h with rfl | h
  · exact .inl trivial
  · exact .inr ⟨o, ho, h⟩

theorem mem_armEnd {last : Operation} {next : Option Nat} (h : s ∈ Stmt.statementsOf (armEnd last next)) :
    s.Passive ∨ ∃ k ∈ next, s = .setState k := by
  cases next with
  | some k =>
    simp only [armEnd] at h
    split at h
    · cases h
    · exact .inr ⟨k, rfl, by simpa using h⟩
  | none =>
    simp only [armEnd] at h
    split at h
    · cases h
    · simp only [Source.stop, Stmt.code, Stmt.statementsOf, Stmt.statements, List.cons_append,
        List.nil_append, List.mem_cons, List.not_mem_nil, or_false] at h
      rcases h with rfl | rfl <;> exact .inl ⟨by decide, by decide⟩

theorem mem_blocks {α : Type} {xs : List α} {header : α → String} {body : α → List Stmt}
    (h : s ∈ Stmt.statementsOf (xs.map fun x => .block (header x) (body x))) :
    s.Passive ∨ ∃ x ∈ xs, s ∈ Stmt.statementsOf (body x) := by
  obtain ⟨t, ht, h⟩ := Stmt.mem_statementsOf.mp h
  obtain ⟨x, hx, rfl⟩ := List.mem_map.mp ht
  rcases List.mem_cons.mp h with rfl | h
  · exact .inl trivial
  · exact .inr ⟨x, hx, h⟩

theorem mem_dispatchCode (h : s ∈ m.dispatchCode.statements) :
    s.Passive ∨ ∃ c ∈ m.cases, s ∈ Stmt.statementsOf c.body := by
  simp only [dispatchCode, Stmt.statements, Stmt.statementsOf_append, List.mem_cons, List.mem_append] at h
  rcases h with rfl | h | h
  · exact .inl trivial
  · exact mem_blocks h
  · obtain rfl : s = .code "_ => unreachable!(\"unknown backtrack tag\")," := by simpa [Stmt.code] using h
    exact .inl ⟨by decide, by decide⟩

theorem mem_loopCode (h : s ∈ m.loopCode.statements) :
    s.Passive ∨ (∃ a ∈ m.arms, s ∈ Stmt.statementsOf a.body) ∨
      ∃ c ∈ m.cases, s ∈ Stmt.statementsOf c.body := by
  simp only [loopCode, Stmt.block, Stmt.statements, Stmt.statementsOf, Stmt.statementsOf_append,
    List.append_nil, List.mem_cons, List.mem_append] at h
  rcases h with rfl | rfl | h | h | h
  · exact .inl trivial
  · exact .inl trivial
  · exact (mem_blocks h).imp_right .inl
  · exact (mem_dispatchCode h).imp_right .inr
  · obtain rfl : s = .code "_ => unreachable!(\"unknown state\")," := by simpa [Stmt.code] using h
    exact .inl ⟨by decide, by decide⟩

/-- Only arms and cases can do more than declare. -/
theorem mem_code (h : s ∈ Stmt.statementsOf m.code) :
    s.Passive ∨ (∃ a ∈ m.arms, s ∈ Stmt.statementsOf a.body) ∨
      ∃ c ∈ m.cases, s ∈ Stmt.statementsOf c.body := by
  obtain ⟨t, ht, h⟩ := Stmt.mem_statementsOf.mp h
  simp only [code, List.mem_cons, List.not_mem_nil, or_false] at ht
  rcases ht with rfl | rfl | rfl | rfl | rfl | rfl | rfl
  case inr.inr.inr.inr.inr.inr => exact mem_loopCode h
  all_goals
    left
    obtain rfl := List.mem_singleton.mp h
    exact ⟨by decide, by decide⟩

/-- The code of a resumption. -/
def resumptionCode (m : Routine) (s : Resumption) : List Stmt :=
  (m.operations[s.id]?).elim [] (m.resumeCode · s.secondary)

theorem casesFrom_eq (m : Routine) (tag : Nat) (rs : List Resumption) :
    m.casesFrom tag rs = rs.mapIdx fun i s => ⟨tag + i, m.resumptionCode s⟩ := by
  induction rs generalizing tag with
  | nil => rfl
  | cons s rest ih =>
    have hcode : m.casesFrom tag (s :: rest) = ⟨tag, m.resumptionCode s⟩ :: m.casesFrom (tag + 1) rest := by
      rw [casesFrom, resumptionCode]
      cases m.operations[s.id]? <;> rfl
    rw [hcode, ih, List.mapIdx_cons]
    simp [Nat.add_assoc, Nat.add_comm 1]

theorem mem_resumptionCode {r : Resumption} (h : s ∈ Stmt.statementsOf (m.resumptionCode r)) :
    ∃ o, m.operations[r.id]? = some o ∧ s ∈ Stmt.statementsOf (m.resumeCode o r.secondary) := by
  rw [resumptionCode] at h
  cases ho : m.operations[r.id]? with
  | none =>
    rw [ho] at h
    cases h
  | some o =>
    rw [ho] at h
    exact ⟨o, rfl, h⟩

/-! ### The routine of a program -/

variable {p : Program}

theorem segments_first (h : p.Numbered) :
    ∀ k ∈ firstLabel? (segments p.isLabel p.operations.toList), p.isLabel k = true := by
  obtain ⟨hsegmented, hflatten⟩ := segments_segmented p.isLabel p.operations.toList
  intro k hk
  rw [hsegmented.firstLabel?_eq, hflatten, ← List.head?_map, h.ids] at hk
  obtain rfl : 0 = k := by simpa [List.head?_range, Nat.ne_of_gt h.nonempty] using hk
  simp [Program.isLabel]

/-- The segment of an arm, and how the arm ends. -/
theorem arm_segment (h : p.Numbered) {a : Arm} (ha : a ∈ (ofProgram p).arms) :
    ∃ before o seg after, IsSegment p.isLabel p.operations.toList before o seg after ∧ a.label = o.id ∧
      a.body = (ofProgram p).operationsCode (o :: seg) ++
        armEnd ((o :: seg).getLast?.getD o) (after.head?.map (·.id)) := by
  obtain ⟨hsegmented, hflatten⟩ := segments_segmented p.isLabel p.operations.toList
  obtain ⟨pre, o, seg, post, hsplit, hlabel, hbody⟩ := hsegmented.exists_of_mem_armsOf ha
  obtain ⟨hsegment, hpost⟩ := hsegmented.isSegment (segments_first h) hsplit
  rw [hflatten] at hsegment
  exact ⟨_, o, seg, _, hsegment, hlabel, hpost ▸ hbody⟩

theorem arms_label (h : p.Numbered) : (ofProgram p).arms.map Arm.label = p.labels := by
  obtain ⟨hsegmented, hflatten⟩ := segments_segmented p.isLabel p.operations.toList
  have hlabels := hsegmented.labels (m := ofProgram p) (segments_first h)
  rwa [hflatten, h.ids] at hlabels

theorem flatMap_operationsFrom (h : p.Numbered) :
    p.labels.flatMap ((ofProgram p).operationsFrom p.labels) = p.operations.toList := by
  obtain ⟨hsegmented, hflatten⟩ := segments_segmented p.isLabel p.operations.toList
  rw [← arms_label h, ← hflatten]
  refine hsegmented.flatMap_labels _ fun o seg hseg => ?_
  obtain ⟨pre, post, hsplit⟩ := List.append_of_mem hseg
  have hsegment := (hsegmented.isSegment (segments_first h) hsplit).1
  rw [hflatten] at hsegment
  rw [arms_label h]
  exact h.filter_nearest hsegment

/-- What stands in an arm. -/
theorem mem_arm (h : p.Numbered) {a : Arm} (ha : a ∈ (ofProgram p).arms) (hs : s ∈ Stmt.statementsOf a.body) :
    s.Passive ∨ (∃ o ∈ p.operations.toList, s ∈ Stmt.statementsOf ((ofProgram p).forwardCode o)) ∨
      ∃ k ∈ p.labels, s = .setState k := by
  obtain ⟨before, o, seg, after, hsegment, _, hbody⟩ := arm_segment h ha
  rw [hbody, Stmt.statementsOf_append] at hs
  rcases List.mem_append.mp hs with hs | hs
  · rcases mem_operationsCode hs with hs | ⟨x, hx, hs⟩
    · exact .inl hs
    · exact .inr (.inl ⟨x, hsegment.mem hx, hs⟩)
  · rcases mem_armEnd hs with hs | ⟨k, hk, hs⟩
    · exact .inl hs
    · obtain ⟨x, hx, rfl⟩ := Option.map_eq_some_iff.mp hk
      exact .inr (.inr ⟨x.id, h.next_mem_labels hsegment hx, hs⟩)

/-- All that sets a state or leaves a tag is the code of some operation, or the end of an arm. -/
theorem allows_of_mem_code (h : p.Numbered) (hs : s ∈ Stmt.statementsOf (ofProgram p).code) :
    s.Passive ∨ (∃ o ∈ p.operations.toList, (ofProgram p).Allows o s) ∨
      ∃ k ∈ p.labels, s = .setState k := by
  rcases mem_code hs with hs | ⟨a, ha, hs⟩ | ⟨c, hc, hs⟩
  · exact .inl hs
  · rcases mem_arm h ha hs with hs | ⟨o, ho, hs⟩ | hs
    · exact .inl hs
    · exact .inr (.inl ⟨o, ho, forwardCode_obeys _ o s hs⟩)
    · exact .inr (.inr hs)
  · rw [cases, casesFrom_eq] at hc
    obtain ⟨i, hi, rfl⟩ := List.mem_mapIdx.mp hc
    obtain ⟨o, ho, hs⟩ := mem_resumptionCode hs
    have hmem := Array.mem_toList_iff.mpr (Array.mem_of_getElem? ho)
    exact .inr (.inl ⟨o, hmem, resumeCode_obeys _ o _ s hs⟩)

theorem inert_of_mem_code (h : p.Numbered) {l : Phrase} (hl : .line l ∈ Stmt.statementsOf (ofProgram p).code) :
    Inert l.toText := by
  rcases allows_of_mem_code h hl with hl | ⟨o, _, hl⟩ | ⟨k, _, hl⟩
  · exact hl
  · exact hl
  · cases hl

theorem anyLeaves_operationsCode {before : List Operation} {last : Operation}
    (h : last.op.terminates = true) : Stmt.anyLeaves (m.operationsCode (before ++ [last])) = true := by
  simp [operationsCode, Stmt.anyLeaves_append, Stmt.anyLeaves, anyLeaves_forwardCode m h]

theorem arm_continues (h : p.Numbered) (hstops : p.Stops) {a : Arm} (ha : a ∈ (ofProgram p).arms) :
    (ofProgram p).Continues p.labels a := by
  obtain ⟨before, o, seg, after, hsegment, hlabel, hbody⟩ := arm_segment h ha
  have hoperations : (ofProgram p).operationsFrom p.labels a.label = o :: seg := by
    rw [hlabel]
    exact h.filter_nearest hsegment
  obtain ⟨init, last, hlast⟩ : ∃ init last, o :: seg = init ++ [last] :=
    ⟨_, _, (List.dropLast_append_getLast (List.cons_ne_nil o seg)).symm⟩
  have hend : (o :: seg).getLast?.getD o = last := by simp [hlast]
  rw [Continues, hoperations, hbody, hend]
  by_cases hterminates : last.op.terminates = true
  · left
    rw [hlast]
    refine ⟨anyLeaves_operationsCode hterminates, ?_⟩
    cases after.head? <;> simp [armEnd, hterminates]
  · right
    cases after with
    | nil =>
      -- The last segment ends with the end of the match.
      obtain ⟨_, final, hfinal, hstop⟩ := hstops
      have hsame := hsegment.split
      rw [List.append_nil, hlast, hfinal, ← List.append_assoc] at hsame
      obtain ⟨_, hsame⟩ := List.append_inj' hsame rfl
      obtain rfl := (List.cons.inj hsame).1
      exact absurd (by rw [hstop]; rfl) hterminates
    | cons x after =>
      obtain ⟨_, _, hcross, _⟩ := h.segment_ascending hsegment
      have hlt : o.id < x.id := hcross o (List.mem_cons_self ..) x (List.mem_cons_self ..)
      refine ⟨x.id, h.next_mem_labels hsegment rfl, hlabel ▸ hlt, fun k hk hak => ?_,
        by simp [armEnd, hterminates]⟩
      obtain ⟨y, hy, hle⟩ := h.exists_next hsegment hk (hlabel ▸ hak)
      rwa [← Option.some_inj.mp hy] at hle

/-- Where an operation leads to, a state begins, unless it is the last one and is resumed past it. -/
theorem leadsTo_inside_or_past (h : p.Numbered) {before : List Operation} {last o : Operation}
    (hlast : p.operations.toList = before ++ [last]) (ho : o ∈ p.operations.toList) {k : Nat} (hk : o.leadsTo k = true) :
    k ∈ p.labels ∨ k = p.operations.size ∧ o = last ∧ last.op.resumesAtNext = true := by
  have hlabel : p.isLabel k = true := by
    simp only [Program.isLabel, Bool.or_eq_true, Array.any_eq_true']
    exact .inr ⟨o, Array.mem_toList_iff.mp ho, hk⟩
  rw [Operation.leadsTo, Bool.or_eq_true, Bool.and_eq_true, beq_iff_eq, beq_iff_eq] at hk
  rcases hk with htarget | ⟨hresumes, rfl⟩
  · exact .inl (Program.mem_labels.mpr ⟨h.targets o ho k htarget, hlabel⟩)
  · have hsize : p.operations.size = before.length + 1 := by
      rw [← Array.length_toList, hlast, List.length_append, List.length_singleton]
    have hid := h.id_lt ho
    rw [hlast] at ho
    rcases List.mem_append.mp ho with ho | ho
    · obtain ⟨front, back, rfl⟩ := List.append_of_mem ho
      have hid : o.id = front.length := h.id_eq_length (hlast.trans (List.append_assoc _ _ _))
      refine .inl (Program.mem_labels.mpr ⟨?_, hlabel⟩)
      rw [hsize, hid]
      simp
    · obtain rfl := List.mem_singleton.mp ho
      exact .inr ⟨by rw [h.id_eq_length hlast, hsize], rfl, hresumes⟩

/-- The end of the match leads nowhere. -/
theorem leadsTo_mem_labels (h : p.Numbered) (hstops : p.Stops) {o : Operation}
    (ho : o ∈ p.operations.toList) {k : Nat} (hk : o.leadsTo k = true) : k ∈ p.labels := by
  obtain ⟨before, last, hsplit, hstop⟩ := hstops
  rcases leadsTo_inside_or_past h hsplit ho hk with hinside | ⟨_, _, hresumes⟩
  · exact hinside
  · rw [hstop] at hresumes
    cases hresumes

/-- **The routine of a program that ends with the end of the match is closed.** -/
theorem closed (h : p.Numbered) (hstops : p.Stops) : (ofProgram p).Closed p.labels where
  ascending := p.labels_ascending
  entry := h.labels_entry
  inside _ hk := (Program.mem_labels.mp hk).1
  written := by
    refine Stmt.mem_statementsOf.mpr ⟨(ofProgram p).loopCode, by simp [code], ?_⟩
    exact List.mem_cons_of_mem _ (List.mem_append_left _ (List.mem_cons_self ..))
  arms := arms_label h
  ids := h.ids
  complete := flatMap_operationsFrom h
  bodies _ ha := arm_continues h hstops ha
  jumps k hk := by
    rcases allows_of_mem_code h hk with hk | ⟨o, ho, hk⟩ | ⟨k', hk', hk⟩
    · cases hk
    · exact leadsTo_mem_labels h hstops ho hk
    · cases hk
      exact hk'
  lines l hl := by
    have hstate := (inert_of_mem_code h hl).state
    rwa [Bool.eq_false_iff, Ne, List.isPrefixOf_iff_prefix] at hstate

end Routine

namespace Builder

variable {b : Builder} {pattern : String} {e : Emitted}

theorem ok_of_mapError {α ε ε' : Type} {x : Except ε α} {f : ε → ε'} {a : α} (h : x.mapError f = .ok a) :
    x = .ok a := by
  cases x with
  | error e => cases h
  | ok a' =>
    cases h
    rfl

/-- What was built, step by step. -/
theorem build_steps (h : b.build pattern = .ok e) :
    ∃ p, Pattern.parse pattern b.pattern.getOptions b.pattern.getCulture = .ok p ∧
      p.program = .ok e.program ∧ e.program.compile b.source = .ok e.compiled := by
  simp only [build] at h
  split at h
  · cases h
  · obtain ⟨p, hp, h⟩ := exists_ok_of_bind h
    obtain ⟨program, hprogram, h⟩ := exists_ok_of_bind h
    obtain ⟨compiled, hcompiled, h⟩ := exists_ok_of_bind h
    cases h
    exact ⟨p, ok_of_mapError hp, ok_of_mapError hprogram, ok_of_mapError hcompiled⟩

/-- **The match routine of every pattern that builds is a closed state machine**, with the states that
are told along with its source. -/
theorem build_closed (h : b.build pattern = .ok e) :
    e.program.compile b.source = .ok e.compiled ∧
      .block "fn go(&self, r: &mut Runner)" (Routine.ofProgram e.program).code ∈
        Stmt.statementsOf (e.program.itemsCode b.source) ∧
      (Routine.ofProgram e.program).Closed e.compiled.labels := by
  obtain ⟨p, hparse, hprogram, hcompile⟩ := build_steps h
  obtain ⟨k, hk, hlabels, _⟩ := e.program.compile_ok b.source
  obtain rfl := Except.ok.inj (hk.symm.trans hcompile)
  have hclosed := Routine.closed (Code.program_numbered hprogram) (Pattern.program_stops hparse hprogram)
  refine ⟨hcompile, ?_, hlabels ▸ hclosed⟩
  simp [Program.itemsCode, Program.implCode, Stmt.block]

/-- A pattern with a program builds, as no source fails to be written. -/
theorem build_ok {p : Pattern} {q : Program} (hoptions : b.pattern.getOptions.conflict? = none)
    (hparse : Pattern.parse pattern b.pattern.getOptions b.pattern.getCulture = .ok p)
    (hprogram : p.program = .ok q) : ∃ k, b.build pattern = .ok ⟨pattern, q, k⟩ ∧ k.labels = q.labels := by
  obtain ⟨k, hk, hlabels, _⟩ := q.compile_ok b.source
  refine ⟨k, ?_, hlabels⟩
  simp [build, hoptions, hparse, hprogram, hk, Except.mapError, bind, Except.bind]

/-- A state begins at each branch of the loop, at its end and after it. -/
theorem build_closed_alternation :
    ∃ e, ({} : Builder).build "(?:ab|c)*d" = .ok e ∧ e.compiled.labels = [0, 4, 7, 8, 9, 11] ∧
      (Routine.ofProgram e.program).Closed e.compiled.labels := by
  obtain ⟨p, hparse, hcheck⟩ := exists_ok_of_check (Pattern.parse "(?:ab|c)*d" .none .invariant)
    (fun p => p.program.toOption.any fun q => q.labels == [0, 4, 7, 8, 9, 11]) (by decide +kernel)
  obtain ⟨q, hprogram, hlabels⟩ := exists_ok_of_check p.program _ hcheck
  obtain ⟨k, hbuild, hk⟩ := build_ok (b := {}) (by decide) hparse hprogram
  exact ⟨_, hbuild, hk.trans (eq_of_beq hlabels), (build_closed hbuild).2.2⟩

end Builder

end PatternCompiler
