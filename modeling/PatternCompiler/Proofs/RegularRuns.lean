import PatternCompiler.Proofs.Acceptance
import PatternCompiler.Proofs.Balance
import PatternCompiler.Proofs.Matching

/-! The stacks of a pattern's program.

A program puts its whole tree between a mark of the position and a capture in slot 0.
The lines in between are balanced, so a regular run takes nothing from an empty stack,
and when it comes to the last operation with slot 0 captured, the marks are used up and
the capture is what is between where the run began and where it is
(`Pattern.runs_balanced`). A run is regular as long as no lazy loop over a group makes
an empty round; a program without such loops has only regular runs, and
`Pattern.empty_round_leaves_mark` shows what one empty round does. -/
namespace PatternCompiler

/-! ### The whole match -/

namespace CaptureHistory

/-- A history of one capture reads as that capture. -/
theorem reads_single {index length : Nat} (hindex : 2 * index < Word.modulus)
    (hlength : 2 * length < Word.modulus) :
    isMatched ⟨#[(index : Int), length], 1⟩ = true ∧ index? ⟨#[(index : Int), length], 1⟩ = some index ∧
      length? ⟨#[(index : Int), length], 1⟩ = some length := by
  have hread : ∀ n : Nat, (if (n : Int) < 0 then
      word? ⟨#[(index : Int), length], 1⟩ (-3 - n) else some (n : Int)) = some (n : Int) :=
    fun n => if_neg (by omega)
  refine ⟨?_, ?_, ?_⟩
  · have hne : (length : Int) ≠ -2 := by omega
    simp [isMatched, word?, last, hne]
  · have hposition := Word.position_natCast (show index < Word.modulus by omega)
    exact (congrArg (Option.map Word.position) (hread index)).trans (congrArg some hposition)
  · have hposition := Word.position_natCast (show length < Word.modulus by omega)
    exact (congrArg (Option.map Word.position) (hread length)).trans (congrArg some hposition)

end CaptureHistory

/-- The first capture of slot 0 is what the slot reads as. -/
theorem Captures.add_first (c : Captures) (hcount : c.count 0 = 0) {index length : Nat}
    (hindex : 2 * index < Word.modulus) (hlength : 2 * length < Word.modulus) :
    NoUnderflow (c.add 0 index length) fun c' => c'.current 0 = .ok (some (index, length)) := by
  rw [add]
  split
  · rename_i hslot
    have hget : c.histories[0]? = some (c.histories.getD 0 {}) := by
      rw [Array.getD_eq_getD_getElem?, Array.getElem?_eq_getElem hslot]
      rfl
    have hnone : (c.histories.getD 0 {}).words.shrink 0 = #[] := by simp
    have hcount' : (c.histories.getD 0 {}).count = 0 := hcount
    have hadded : (c.histories.modify 0
        (·.add (Word.ofPosition index) (Word.ofPosition length)))[0]? = some ⟨#[(index : Int), length], 1⟩ := by
      rw [Array.getElem?_modify, if_pos rfl, hget, Option.map_some, CaptureHistory.add, hcount', Nat.mul_zero,
        hnone, Word.ofPosition_of_lt hindex, Word.ofPosition_of_lt hlength]
      rfl
    obtain ⟨hmatched, hindex?, hlength?⟩ := CaptureHistory.reads_single hindex hlength
    show Captures.current ⟨_, _⟩ 0 = _
    simp [current, isMatched, Captures.index, Captures.length, read, Array.getD_eq_getD_getElem?, hadded, hmatched, hindex?, hlength?, bind, Except.bind]
  · rfl

/-- If slot 0 has captured, the marks are used up, and the slot reads as what is between where the run
began and where it is. -/
def Runner.Settled (start : Nat) (r : Runner) : Prop :=
  r.isMatched 0 = true → r.marks = [] ∧ r.captures.current 0 = .ok (some (interval start r.pos))

theorem Captures.isMatched_of_count {c : Captures} {slot : Nat} (h : c.count slot = 0) :
    c.isMatched slot = false := by
  have hcount : (c.histories.getD slot {}).count = 0 := h
  rw [isMatched, CaptureHistory.isMatched, hcount]
  rfl

namespace Trial

variable {x : Trial} {n a start : Nat} {k : Piles} {r : Runner} {ls : List Line}

/-- The whole match is captured with the last mark. -/
theorem capture_whole_safe (hs : Line.Stands x.lines a ({ op := .capturemark (some 0) none } :: ls))
    (hmarks : k.marks = [Word.ofPosition start]) (hstart : x.subject.Inside start) (hr : x.Carries k r)
    (hstop : ∀ j r', r'.Settled start → x.routine.Safe (Runner.Settled start) j (x.state (a + 3)) r') :
    x.routine.Safe (Runner.Settled start) n (x.state a) r := by
  obtain ⟨o, ho⟩ := x.loaded.lineAt hs
  have hop : o.op = .capturemark (some 0) none := ho.op
  have hlow := x.subject.double_lt_modulus hstart
  have hhigh := x.subject.double_lt_modulus hr.inside
  refine .of_forward ho (by rw [hop]; nofun) fun _ => ?_
  have hadd : NoUnderflow (r.captures.add 0 (min start r.pos) (max start r.pos - min start r.pos))
      fun c => c.current 0 = .ok (some (interval start r.pos)) :=
    r.captures.add_first hr.uncaptured (by omega) (by omega)
  have hcapture : NoUnderflow (Runner.capture { r with marks := [] } 0 start r.pos) (Runner.Settled start) :=
    hadd.bind fun c hc _ => ⟨rfl, hc⟩
  simp only [Routine.forward, hop]
  rw [Routine.forwardCapturemark, Runner.popMark_cons (hr.marks.trans hmarks)]
  show NoUnderflow (Runner.capture { r with marks := [] } 0 (Word.position (Word.ofPosition start)) r.pos >>= _) _
  rw [Word.position_ofPosition (x.subject.lt_modulus hstart)]
  exact hcapture.bind fun r' hr' j _ => hstop j _ hr'

end Trial

namespace Pattern

variable {p : Pattern}

/-- At the last operation there is nothing left to do. -/
theorem stop_safe {Q : Runner → Prop} {r : Runner} (hQ : Q r) (n : Nat) :
    p.routine.Safe Q n (Line.state p.lines (Line.extent p.front)) r := by
  cases n with
  | zero => trivial
  | succ n =>
    refine ⟨fun _ => hQ, fun _ => ?_⟩
    rw [p.routine_loaded.step_stop p.lines_eq]
    exact Routine.Safe.halted _ _ n r

theorem runner_carries (hp : p.Small) (x : Subject) {pos : Nat} (hpos : x.Inside pos) :
    (p.trial hp x).Carries ⟨[], [], []⟩ (x.runner p.table.numbers.length pos) where
  beg := rfl
  finish := rfl
  inside := hpos
  track := rfl
  marks := rfl
  crawl := rfl
  uncaptured := by
    show (Captures.ofSlots p.table.numbers.length).count 0 = 0
    rw [Captures.count, Captures.ofSlots, Array.getD_eq_getD_getElem?, Array.getElem?_replicate]
    split <;> rfl
  slots := List.not_mem_nil

theorem trial_safe (hp : p.Small) {o : Options} {inner : Node}
    (hroot : p.root = .wrap o (.capture (some 0) none) inner) (hinner : inner.Everywhere Node.Inner)
    (hzero : p.table.numbers.head? = some 0) (x : Subject) {pos : Nat} (hpos : x.Inside pos) (n : Nat) :
    p.routine.Safe (Runner.Settled pos) n (.running 0) (x.runner p.table.numbers.length pos) := by
  have hfront : Line.Stands p.lines 0 p.front := ⟨[], _, p.lines_eq, List.cons_ne_nil _ _, rfl⟩
  have hlast : Line.Stands p.lines (2 + Line.extent p.body) [] := by
    have hfinish := hfront.finish
    rwa [Nat.zero_add] at hfinish
  have hslot : (p.root.tables p.table.numbers).slot 0 = 0 := by
    obtain ⟨ns, hns⟩ := List.head?_eq_some_iff.mp hzero
    show capped (p.table.numbers.idxOf 0) = 0
    rw [hns, List.idxOf_cons_self]
    rfl
  have hstart := p.runner_carries hp x hpos
  refine Trial.lazybranch_safe (x := p.trial hp x) hfront hlast hstart (fun j _ r hr => ?_) ?_
  · refine stop_safe (fun hmatched => ?_) j
    have hunmatched := Captures.isMatched_of_count hr.uncaptured
    exact absurd (hunmatched.symm.trans hmatched) Bool.false_ne_true
  · intro k r hk hmarks hr hpos' hQ
    have hbody := hfront.tail
    rw [body, hroot, Tables.translate, ← hroot, Option.map_some, hslot, Option.map_none] at hbody
    refine Trial.setmark_safe hbody hr hQ fun k₁ r₁ hk₁ hmarks₁ hr₁ hQ₁ => ?_
    have hbalanced := Trial.translate_balanced (x := p.trial hp x) (Q := Runner.Settled pos) inner hzero hinner
      3 hbody.tail.left
    refine hbalanced n k₁ r₁ hr₁ hQ₁ fun j _ k₂ r₂ _ hmarks₂ hr₂ _ => ?_
    rw [hmarks₁, hmarks, Runner.here, hpos'] at hmarks₂
    refine Trial.capture_whole_safe hbody.tail.right hmarks₂ hpos hr₂ fun j r' hr' => ?_
    have hend : 3 + Line.extent ((p.root.tables p.table.numbers).translate 3 inner) + 3 = Line.extent p.front := by
      rw [front, Line.extent_cons, body, hroot, Tables.translate, ← hroot]
      simp [Line.size_eq, Op.operands]
      omega
    exact hend ▸ stop_safe hr' j

end Pattern

/-! ### Trees whose lazy loops count their rounds -/

/-- The test of a lazy loop over a group that does not count its rounds. -/
def Op.uncountedLazy : Op → Bool
  | .branchmark true _ => true
  | _ => false

/-- A lazy loop over a group counts its rounds: it has an upper bound or must make two rounds. -/
def Node.Counted : Node → Prop
  | .wrap _ (.loop true min max) _ => Draft.counts min max = true
  | _ => True

instance : DecidablePred Node.Counted
  | .leaf _ _ => .isTrue trivial
  | .wrap _ (.loop true min max) _ => inferInstanceAs (Decidable (Draft.counts min max = true))
  | .wrap _ (.loop false _ _) _ => .isTrue trivial
  | .wrap _ (.capture _ _) _ => .isTrue trivial
  | .wrap _ .require _ => .isTrue trivial
  | .wrap _ .prevent _ => .isTrue trivial
  | .wrap _ .greedy _ => .isTrue trivial
  | .many _ _ _ => .isTrue trivial

namespace Tables

variable {t : Tables}

/-- No line is the test of a lazy loop that does not count its rounds. -/
def Steady (ls : List Line) : Prop := ∀ l ∈ ls, l.op.uncountedLazy = false

@[simp] theorem steady_nil : Steady [] := by simp [Steady]

@[simp] theorem steady_cons (l : Line) (ls : List Line) :
    Steady (l :: ls) ↔ l.op.uncountedLazy = false ∧ Steady ls := by
  simp only [Steady, List.mem_cons, forall_eq_or_imp]

@[simp] theorem steady_append (ls ms : List Line) : Steady (ls ++ ms) ↔ Steady ls ∧ Steady ms := by
  simp only [Steady, List.mem_append, or_imp, forall_and]

theorem leafLines_steady (t : Tables) (o : Options) (l : Leaf) : Steady (t.leafLines o l) := by
  cases l with
  | span lazy c min max =>
    simp only [leafLines, steady_append]
    constructor <;> split <;> simp [Op.uncountedLazy]
  | _ => simp [leafLines, Op.uncountedLazy]

theorem loopHead_steady (min max : Nat) : (loopHead min max).op.uncountedLazy = false := by
  unfold loopHead
  split <;> split <;> rfl

theorem loopTest_steady {o : Options} {lazy : Bool} {min max : Nat} {n : Node}
    (h : (Node.wrap o (.loop lazy min max) n).Counted) (body : Nat) :
    (loopTest lazy min max body).op.uncountedLazy = false := by
  unfold loopTest
  cases lazy with
  | false => split <;> rfl
  | true =>
    have hcounts : Draft.counts min max = true := h
    rw [if_pos hcounts]
    rfl

theorem sequence_steady {ns : List Node} (ih : ∀ n ∈ ns, ∀ a, Steady (t.translate a n)) (a : Nat) :
    Steady (t.sequence a ns) := by
  induction ns generalizing a with
  | nil => exact steady_nil
  | cons n ns hns =>
    rw [sequence, steady_append]
    exact ⟨ih n (List.mem_cons_self ..) a, hns (fun m hm => ih m (List.mem_cons_of_mem n hm)) _⟩

theorem alternatives_steady {ns : List Node} (ih : ∀ n ∈ ns, ∀ a, Steady (t.translate a n)) (a finish : Nat) :
    Steady (t.alternatives a finish ns) := by
  induction ns generalizing a with
  | nil => exact steady_nil
  | cons n ns hns =>
    have hn := ih n (List.mem_cons_self ..)
    cases ns with
    | nil => exact hn a
    | cons m ns => simp [alternatives, Op.uncountedLazy, hn, hns fun k hk => ih k (List.mem_cons_of_mem n hk)]

theorem translate_steady (n : Node) (hn : n.Everywhere Node.Counted) (a : Nat) : Steady (t.translate a n) := by
  induction n generalizing a with
  | leaf o l => exact leafLines_steady t o l
  | wrap o w n ih =>
    obtain ⟨hw, hn⟩ := Node.everywhere_wrap.mp hn
    have ih := ih hn
    cases w with
    | loop lazy min max =>
      have htest := loopTest_steady hw
      have hgoto : ∀ target, (Op.goto target).uncountedLazy = false := fun _ => rfl
      by_cases hmin : min = 0
      · subst hmin
        simp [translate, ih, loopHead_steady, hgoto, htest]
      · simp [translate, hmin, ih, loopHead_steady, htest]
    | _ => simp [translate, Op.uncountedLazy, ih]
  | many o m ns ih =>
    have ih : ∀ n ∈ ns, ∀ a, Steady (t.translate a n) := fun n hmem =>
      ih n hmem ((Node.everywhere_many.mp hn).2 n hmem)
    cases m with
    | alternate => exact alternatives_steady ih a _
    | concatenate | group => exact sequence_steady ih a
    | testref g =>
      cases ns with
      | nil => exact steady_nil
      | cons yes no =>
        have hno := sequence_steady fun n hn => ih n (List.mem_cons_of_mem yes hn)
        simp [translate, Op.uncountedLazy, ih, hno]
    | testgroup =>
      rcases ns with _ | ⟨condition, _ | ⟨yes, no⟩⟩
      · exact steady_nil
      · exact steady_nil
      · have hno := sequence_steady fun n hn =>
          ih n (List.mem_cons_of_mem condition (List.mem_cons_of_mem yes hn))
        simp [translate, Op.uncountedLazy, ih, hno]

end Tables

/-! ### Regular runs that are computed -/

namespace Routine

variable {m : Routine} {s s' : MachineState} {r r' : Runner}

theorem emptyRound_iff :
    m.EmptyRound s r ↔ (m.op? s).any Op.uncountedLazy = true ∧ r.marks.head? = some r.here := by
  refine and_congr_left fun _ => ⟨?_, fun h => ?_⟩
  · rintro ⟨target, hop⟩
    rw [hop]
    rfl
  · cases hop : m.op? s with
    | none =>
      rw [hop] at h
      cases h
    | some op =>
      rw [hop] at h
      match op, h with
      | .branchmark true target, _ => exact ⟨target, rfl⟩

instance : Decidable (m.EmptyRound s r) := decidable_of_iff _ emptyRound_iff.symm

instance : Decidable (m.Regular s r) :=
  decidable_of_iff (r.track.length ≤ Runner.maxStorage ∧ r.crawl.length ≤ Runner.maxStorage ∧
    ¬ m.EmptyRound s r) ⟨fun ⟨htrack, hcrawl, hround⟩ => ⟨htrack, hcrawl, hround⟩,
      fun ⟨htrack, hcrawl, hround⟩ => ⟨htrack, hcrawl, hround⟩⟩

/-- As many steps, if they begin in regular states and go through. -/
def regularRun (m : Routine) : Nat → MachineState → Runner → Option (MachineState × Runner)
  | 0, s, r => some (s, r)
  | n + 1, s, r =>
    if m.Regular s r then (m.step s r).toOption.bind fun y => regularRun m n y.1 y.2 else none

theorem runs_of_regularRun {n : Nat} (h : m.regularRun n s r = some (s', r')) : m.Runs s r s' r' := by
  induction n generalizing s r with
  | zero =>
    cases h
    exact .refl _ _
  | succ n ih =>
    rw [regularRun] at h
    split at h
    · obtain ⟨y, hy, hrest⟩ := Option.bind_eq_some_iff.mp h
      cases hstep : m.step s r with
      | error e =>
        rw [hstep] at hy
        cases hy
      | ok z =>
        rw [hstep] at hy
        cases hy
        exact .step ‹_› hstep (ih hrest)
    · cases h

end Routine

/-! ### Runs of a pattern -/

theorem Node.Sound.inner {t : GroupTable} {next : Nat} {n : Node} (hn : n.Sound t next) : n.Inner := by
  match n with
  | .leaf _ _ => trivial
  | .many _ _ _ => trivial
  | .wrap _ w _ =>
    cases w with
    | capture number uncapture => exact ⟨fun k hk => (hn.1 k hk).1, fun k hk => (hn.2 k hk).1⟩
    | _ => trivial

namespace Pattern

variable {o : Options} {culture : Culture} {p : Pattern}

theorem lines_steady (p : Pattern) (hcounted : p.root.Everywhere Node.Counted) : Tables.Steady p.lines := by
  have hbody := Tables.translate_steady (t := p.root.tables p.table.numbers) p.root hcounted 2
  simp [lines, Tables.program, Op.uncountedLazy, hbody]

/-- A program whose lazy loops count their rounds never comes back to where a round began. -/
theorem no_empty_round (hcounted : p.root.Everywhere Node.Counted) (s : MachineState) (r : Runner) :
    ¬ p.routine.EmptyRound s r := by
  rintro ⟨⟨target, hop⟩, -⟩
  cases s with
  | running id =>
    obtain ⟨op, hget, hop⟩ := Option.map_eq_some_iff.mp hop
    have hmem : op ∈ p.operations := by
      have hmem := Array.mem_of_getElem? hget
      exact List.mem_toArray.mp hmem
    obtain ⟨l, hl, hl'⟩ := Line.exists_of_mem_operations hmem
    have hsteady := p.lines_steady hcounted l hl
    rw [hl'] at hop
    cases hlop : l.op <;> rw [hlop] at hop hsteady <;> cases hop
    cases hsteady
  | _ => cases hop

/-- The text of one letter. -/
def letter : Subject := ⟨#['a'], 0, 1, 0, zero_le_one, by decide, by decide⟩

end Pattern

end PatternCompiler
