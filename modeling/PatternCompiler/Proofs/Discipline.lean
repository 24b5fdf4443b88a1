import PatternCompiler.Proofs.Generation

/-! Runs that take nothing from an empty stack.

`Routine.Safe Q n s r` says of the next `n` steps that they take nothing from an empty
stack, and that the runner has the property `Q` whenever the program has come to its
last operation. It asks nothing of a run that comes to a state that is not `Regular`.
One kind of state is not: a lazy loop over a group that comes back to where its last
round began leaves its mark behind (`forward_lazyBranchmark_empty`).

A stretch of lines is `Balanced` when it is safe from stacks with which a failure is
safe, provided that what follows it is safe with the same marks and with more on the
track and on the crawl. Sequences, choices, cuts and captures of balanced stretches are
balanced; for a loop the proof is by induction on the number of steps. -/
namespace PatternCompiler

/-! ### Faults -/

/-- Something was taken from an empty stack. -/
def Fault.underflow : Fault → Bool
  | .trackUnderflow => true
  | .markUnderflow => true
  | .crawlUnderflow => true
  | _ => false

/-- A result has the property `P`, and a fault is no underflow. -/
def NoUnderflow {α : Type} (y : Except Fault α) (P : α → Prop) : Prop :=
  match y with
  | .ok a => P a
  | .error e => e.underflow = false

namespace NoUnderflow

variable {α β : Type} {y : Except Fault α} {P : α → Prop}

theorem mono {P' : α → Prop} (h : NoUnderflow y P) (hP : ∀ a, P a → P' a) : NoUnderflow y P' := by
  cases y with
  | ok a => exact hP a h
  | error e => exact h

theorem bind {R : β → Prop} {f : α → Except Fault β} (h : NoUnderflow y P)
    (hf : ∀ a, P a → NoUnderflow (f a) R) : NoUnderflow (y >>= f) R := by
  cases y with
  | ok a => exact hf a h
  | error e => exact h

theorem map {f : α → β} (h : NoUnderflow y fun _ => True) : NoUnderflow (f <$> y) fun _ => True := by
  cases y with
  | ok a => trivial
  | error e => exact h

end NoUnderflow

namespace Routine

/-! ### Safe runs -/

/-- The operation at which a run is. -/
def op? (m : Routine) : MachineState → Option Op
  | .running id => m.operations[id]?.map (·.op)
  | _ => none

/-- A lazy loop over a group has come back to where its last round began. -/
def EmptyRound (m : Routine) (s : MachineState) (r : Runner) : Prop :=
  (∃ target, m.op? s = some (.branchmark true target)) ∧ r.marks.head? = some r.here

/-- The stacks that have their depths noted are no larger than storage, and no lazy loop over a
group has just made an empty round. -/
structure Regular (m : Routine) (s : MachineState) (r : Runner) : Prop where
  track : r.track.length ≤ Runner.maxStorage
  crawl : r.crawl.length ≤ Runner.maxStorage
  round : ¬ m.EmptyRound s r

/-- A run leads from one state to another, and all states before the last one are regular. -/
inductive Runs (m : Routine) : MachineState → Runner → MachineState → Runner → Prop where
  | refl (s : MachineState) (r : Runner) : Runs m s r s r
  | step {s s' s'' : MachineState} {r r' r'' : Runner} (regular : m.Regular s r)
      (first : m.step s r = .ok (s', r')) (rest : Runs m s' r' s'' r'') : Runs m s r s'' r''

/-- For as many steps, as long as the states are regular, nothing is taken from an empty stack,
and at the last operation the runner has the property `Q`. -/
def Safe (m : Routine) (Q : Runner → Prop) : Nat → MachineState → Runner → Prop
  | 0, _, _ => True
  | n + 1, s, r => (m.op? s = some .stop → Q r) ∧
    (m.Regular s r → NoUnderflow (m.step s r) fun x => Safe m Q n x.1 x.2)

variable {m : Routine} {Q : Runner → Prop} {n : Nat} {s s' : MachineState} {r r' : Runner}

namespace Safe

theorem mono {n' : Nat} (h : m.Safe Q n s r) (hn : n' ≤ n) : m.Safe Q n' s r := by
  induction n' generalizing n s r with
  | zero => trivial
  | succ n' ih =>
    obtain ⟨n, rfl⟩ := Nat.exists_eq_add_of_lt hn
    refine ⟨h.1, fun hregular => (h.2 hregular).mono fun x hx => ih hx ?_⟩
    exact Nat.le_add_right n' n

/-- At the end there is nothing left to do. -/
theorem halted (m : Routine) (Q : Runner → Prop) (n : Nat) (r : Runner) : m.Safe Q n .halted r := by
  induction n with
  | zero => trivial
  | succ n ih => exact ⟨nofun, fun _ => ih⟩

/-- A safe run stays safe. -/
theorem runs (h : ∀ n, m.Safe Q n s r) (hruns : m.Runs s r s' r') (n : Nat) : m.Safe Q n s' r' := by
  induction hruns generalizing n with
  | refl => exact h n
  | step hregular hfirst _ ih =>
    refine ih (fun n => ?_) n
    have hsafe := (h (n + 1)).2 hregular
    rw [hfirst] at hsafe
    exact hsafe

end Safe

variable {L : List Line} {a : Nat} {l : Line} {o : Operation}

theorem LineAt.op?_eq (ho : LineAt m L a l o) : m.op? (Line.state L a) = some o.op := by
  obtain ⟨id, hid, hget⟩ := ho.place
  rw [hid, op?, hget]
  rfl

/-- What an operation may do is safe if all that it may lead to is. -/
theorem Safe.of_forward (ho : LineAt m L a l o) (hop : o.op ≠ .stop)
    (h : m.Regular (Line.state L a) r → NoUnderflow (m.forward o r) fun y =>
      ∀ j < n, m.Safe Q j (m.leads L (a + l.size) y.1) y.2) :
    m.Safe Q n (Line.state L a) r := by
  cases n with
  | zero => trivial
  | succ n =>
    refine ⟨fun hstop => absurd (Option.some.inj (ho.op?_eq.symm.trans hstop)) hop, fun hregular => ?_⟩
    rw [ho.forward]
    exact (h hregular).bind fun y hy => hy n (Nat.lt_succ_self n)

theorem Safe.of_line {next : Next} (ho : LineAt m L a l o) (hop : o.op ≠ .stop)
    (hforward : m.forward o r = .ok (next, r'))
    (h : ∀ j < n, m.Safe Q j (m.leads L (a + l.size) next) r') : m.Safe Q n (Line.state L a) r := by
  refine .of_forward ho hop fun _ => ?_
  rw [hforward]
  exact h

/-- What a resumption may do is safe if all that it may lead to is. -/
theorem Safe.of_resumption (ho : LineAt m L a l o) {secondary : Bool} (hs : secondary ∈ o.op.resumptions)
    {rest : List Int} (htrack : r.track = (m.tag o secondary : Int) :: rest)
    (h : NoUnderflow (m.resume o secondary { r with track := rest }) fun y =>
      ∀ j < n, m.Safe Q j (m.leads L (a + l.size) y.1) y.2) :
    m.Safe Q n .failing r := by
  cases n with
  | zero => trivial
  | succ n =>
    refine ⟨nofun, fun _ => ?_⟩
    rw [ho.resume secondary hs r rest htrack]
    exact h.bind fun y hy => hy n (Nat.lt_succ_self n)

theorem Safe.of_resume {next : Next} (ho : LineAt m L a l o) {secondary : Bool}
    (hs : secondary ∈ o.op.resumptions) {rest : List Int}
    (htrack : r.track = (m.tag o secondary : Int) :: rest)
    (hresume : m.resume o secondary { r with track := rest } = .ok (next, r'))
    (h : ∀ j < n, m.Safe Q j (m.leads L (a + l.size) next) r') : m.Safe Q n .failing r := by
  refine .of_resumption ho hs htrack ?_
  rw [hresume]
  exact h

end Routine

/-! ### Stacks -/

/-- The three stacks of a runner. -/
structure Piles where
  track : List Int
  marks : List Int
  crawl : List Nat

namespace Piles

variable {k k' k'' : Piles}

/-- More is on the track and on the crawl; the marks may be others. -/
structure Extends (k k' : Piles) : Prop where
  track : ∃ ts, k'.track = ts ++ k.track
  crawl : ∃ ns, k'.crawl = ns ++ k.crawl

/-- The marks of the depths of the crawl and the track. -/
def depths (k : Piles) : List Int := [(k.crawl.length : Int), (k.track.length : Int)]

/-- The depths of the stacks are in the range of positions. -/
structure Shallow (k : Piles) : Prop where
  track : k.track.length < Word.modulus
  crawl : k.crawl.length < Word.modulus

theorem Extends.trans (h : k.Extends k') (h' : k'.Extends k'') : k.Extends k'' := by
  obtain ⟨⟨ts, hts⟩, ns, hns⟩ := h
  obtain ⟨⟨ts', hts'⟩, ns', hns'⟩ := h'
  exact ⟨⟨ts' ++ ts, by rw [hts', hts, List.append_assoc]⟩,
    ⟨ns' ++ ns, by rw [hns', hns, List.append_assoc]⟩⟩

theorem Extends.of_track (k : Piles) (ts marks : List Int) : k.Extends ⟨ts ++ k.track, marks, k.crawl⟩ :=
  ⟨⟨ts, rfl⟩, [], rfl⟩

theorem Extends.refl (k : Piles) : k.Extends k := .of_track k [] k.marks

end Piles

namespace Captures

variable {c : Captures} {slot : Nat}

theorem count_modify {f : CaptureHistory → CaptureHistory} (hs : slot ≠ 0) {b : Bool} :
    Captures.count ⟨c.histories.modify slot f, b⟩ 0 = c.count 0 := by
  rw [count, count, Array.getD_eq_getD_getElem?, Array.getD_eq_getD_getElem?, Array.getElem?_modify,
    if_neg hs]

theorem count_foldl_remove {ns : List Nat} (h : 0 ∉ ns) : (ns.foldl Captures.remove c).count 0 = c.count 0 := by
  induction ns generalizing c with
  | nil => rfl
  | cons n ns ih =>
    rw [List.mem_cons, not_or] at h
    rw [List.foldl_cons, ih h.2]
    exact count_modify (Ne.symm h.1)

end Captures

namespace Trial

variable (x : Trial)

/-- A runner inside the bounds, with the given stacks, that has not captured in slot 0. -/
structure Carries (k : Piles) (r : Runner) : Prop where
  beg : r.beg = x.subject.beg
  finish : r.finish = x.subject.finish
  inside : x.subject.Inside r.pos
  track : r.track = k.track
  marks : r.marks = k.marks
  crawl : r.crawl = k.crawl
  uncaptured : r.captures.count 0 = 0
  slots : 0 ∉ k.crawl

/-- A failure with the stacks `k` is safe. -/
def Recovers (Q : Runner → Prop) (n : Nat) (k : Piles) : Prop :=
  ∀ r, x.Carries k r → x.routine.Safe Q n .failing r

/-- The line at `b`, reached with more on top of the stacks `k` and with the given marks, is safe if
a failure is. -/
def Proceeds (Q : Runner → Prop) (n b : Nat) (k : Piles) (marks : List Int) : Prop :=
  ∀ j ≤ n, ∀ k' r, k.Extends k' → k'.marks = marks → x.Carries k' r → x.Recovers Q j k' →
    x.routine.Safe Q j (x.state b) r

/-- The lines from `a` to `b` leave the marks as they were. -/
def Balanced (Q : Runner → Prop) (a b : Nat) : Prop :=
  ∀ n k r, x.Carries k r → x.Recovers Q n k → x.Proceeds Q n b k k.marks →
    x.routine.Safe Q n (x.state a) r

variable {x} {Q : Runner → Prop} {n n' : Nat} {k k' : Piles} {r : Runner} {marks : List Int}
  {a b : Nat} {l : Line} {o : Operation} {ls ls' ms ms' : List Line}

/-! ### Small facts -/

theorem Recovers.mono (h : x.Recovers Q n k) (hn : n' ≤ n) : x.Recovers Q n' k :=
  fun r hr => (h r hr).mono hn

theorem Proceeds.mono (h : x.Proceeds Q n b k marks) (hn : n' ≤ n) : x.Proceeds Q n' b k marks :=
  fun j hj => h j (Nat.le_trans hj hn)

/-- What may follow `k` may follow all that extends `k`. -/
theorem Proceeds.after (h : x.Proceeds Q n b k marks) (hk : k.Extends k') : x.Proceeds Q n b k' marks :=
  fun j hj k'' r hk' => h j hj k'' r (hk.trans hk')

namespace Carries

theorem position_here (hr : x.Carries k r) : Word.position r.here = r.pos :=
  Word.position_ofPosition (x.subject.lt_modulus hr.inside)

/-- No position is marked as the time before the first round of a loop is. -/
theorem here_ne_first (hr : x.Carries k r) : [r.here] ≠ [-1] := by
  have hposition := Word.ofPosition_of_lt (x.subject.double_lt_modulus hr.inside)
  rw [Runner.here, hposition, Ne, List.singleton_inj]
  omega

theorem shallow (hr : x.Carries k r) {s : MachineState} (hregular : x.routine.Regular s r) : k.Shallow := by
  have hstorage : Runner.maxStorage < Word.modulus := by decide
  obtain ⟨htrack, hcrawl, -⟩ := hregular
  rw [hr.track] at htrack
  rw [hr.crawl] at hcrawl
  exact ⟨by omega, by omega⟩

/-- To undo what was captured on top of `k` brings back its stacks. -/
theorem undo (hr : x.Carries k' r) {ns : List Nat} (hns : k'.crawl = ns ++ k.crawl) :
    x.Carries k { r with
      track := k.track
      marks := k.marks
      crawl := k.crawl
      captures := ns.foldl Captures.remove r.captures } := by
  have hslots := hr.slots
  rw [hns, List.mem_append, not_or] at hslots
  refine { hr with track := rfl, marks := rfl, crawl := rfl, uncaptured := ?_, slots := hslots.2 }
  rw [Captures.count_foldl_remove hslots.1]
  exact hr.uncaptured

end Carries

/-! ### Marks and jumps -/

/-- A resumption that only changes the marks and fails recovers if a failure with the other marks is
safe. -/
theorem Recovers.of_undo (ho : x.routine.LineAt x.lines a l o) {secondary : Bool}
    (hs : secondary ∈ o.op.resumptions) (us : List Int) {marks' : List Int}
    (hundone : ∀ r : Runner, r.track = us ++ k.track → r.marks = marks →
      x.routine.resume o secondary r = .ok (.fail, { r with track := k.track, marks := marks' }))
    (hQ : x.Recovers Q n { k with marks := marks' }) :
    x.Recovers Q n ⟨(x.routine.tag o secondary : Int) :: (us ++ k.track), marks, k.crawl⟩ := by
  intro r hr
  refine .of_resume ho hs hr.track (hundone { r with track := us ++ k.track } rfl hr.marks) fun j hj => ?_
  exact (hQ.mono (Nat.le_of_lt hj)) _ { hr with track := rfl, marks := rfl }

/-- A line that opens something puts marks on top, and a failure takes as many off. -/
theorem opening_safe (ho : x.routine.LineAt x.lines a l o) {vs : List Int}
    (hopened : Routine.opened r o.op = some vs) (hr : x.Carries k r) (hQ : x.Recovers Q n k)
    (hnext : x.routine.Regular (x.state a) r → ∀ k' r', k.Extends k' → k'.marks = vs ++ k.marks →
      x.Carries k' r' → r'.pos = r.pos → x.Recovers Q n k' →
      (∀ ws, ws.length = vs.length → x.Recovers Q n { k' with marks := ws ++ k.marks }) →
      x.routine.Safe Q n (x.state (a + l.size)) r') :
    x.routine.Safe Q n (x.state a) r := by
  have hop : o.op ≠ .stop := by
    rintro hop
    rw [hop] at hopened
    cases hopened
  refine .of_forward ho hop fun hregular => ?_
  rw [Routine.forward_opened hopened]
  intro j hj
  have hQ' : ∀ ws, ws.length = vs.length →
      x.Recovers Q n ⟨(x.routine.tag o false : Int) :: k.track, ws ++ k.marks, k.crawl⟩ := by
    intro ws hws
    refine .of_undo ho (Routine.opened_resumptions hopened) [] (fun r₁ htrack hmarks => ?_) hQ
    rw [Routine.resume_opened hopened hmarks hws, htrack]
    rfl
  have hsafe := hnext hregular _ { r with
      track := (x.routine.tag o false : Int) :: r.track, marks := vs ++ r.marks }
    (.of_track k [_] _) rfl { hr with track := congrArg _ hr.track, marks := congrArg _ hr.marks } rfl
    (hQ' vs rfl) hQ'
  exact hsafe.mono (Nat.le_of_lt hj)

theorem setmark_safe (hs : Line.Stands x.lines a ({ op := .setmark } :: ls)) (hr : x.Carries k r)
    (hQ : x.Recovers Q n k)
    (hnext : ∀ k' r', k.Extends k' → k'.marks = r.here :: k.marks → x.Carries k' r' → x.Recovers Q n k' →
      x.routine.Safe Q n (x.state (a + 1)) r') :
    x.routine.Safe Q n (x.state a) r := by
  obtain ⟨o, ho⟩ := x.loaded.lineAt hs
  have hopened : Routine.opened r o.op = some [r.here] := by
    rw [ho.op]
    rfl
  exact opening_safe ho hopened hr hQ fun _ k' r' hk hmarks hr' _ hQ' _ => hnext k' r' hk hmarks hr' hQ'

theorem setjump_safe (hs : Line.Stands x.lines a ({ op := .setjump } :: ls)) (hr : x.Carries k r)
    (hQ : x.Recovers Q n k)
    (hnext : k.Shallow → ∀ k' r', k.Extends k' → k'.marks = k.depths ++ k.marks → x.Carries k' r' →
      x.Recovers Q n k' → x.routine.Safe Q n (x.state (a + 1)) r') :
    x.routine.Safe Q n (x.state a) r := by
  obtain ⟨o, ho⟩ := x.loaded.lineAt hs
  have hopened : Routine.opened r o.op = some k.depths := by
    rw [ho.op, Piles.depths, ← hr.track, ← hr.crawl]
    rfl
  exact opening_safe ho hopened hr hQ fun hregular k' r' hk hmarks hr' _ hQ' _ =>
    hnext (hr.shallow hregular) k' r' hk hmarks hr' hQ'

theorem getmark_safe (hs : Line.Stands x.lines a ({ op := .getmark } :: ls)) {start : Nat}
    (hmarks : k.marks = Word.ofPosition start :: marks) (hstart : x.subject.Inside start)
    (hr : x.Carries k r) (hQ : x.Recovers Q n k) (hP : x.Proceeds Q n (a + 1) k marks) :
    x.routine.Safe Q n (x.state a) r := by
  obtain ⟨o, ho⟩ := x.loaded.lineAt hs
  have hop : o.op = .getmark := ho.op
  have hforward := Routine.forward_getmark (m := x.routine) hop (hr.marks.trans hmarks)
  rw [Word.position_ofPosition (x.subject.lt_modulus hstart)] at hforward
  refine .of_line ho (by rw [hop]; nofun) hforward fun j hj => ?_
  refine hP j (Nat.le_of_lt hj)
    ⟨(x.routine.tag o false : Int) :: Word.ofPosition start :: k.track, marks, k.crawl⟩ _
    (.of_track k [_, _] _) rfl
    { hr with track := congrArg _ (congrArg _ hr.track), marks := rfl, inside := hstart } ?_
  refine .of_undo ho (by rw [hop]; decide) [_] (fun r₁ htrack hmarks₁ => ?_) (hQ.mono (Nat.le_of_lt hj))
  rw [Routine.resume_getmark hop htrack, hmarks₁, ← hmarks]
  rfl

/-- A failure with what a choice leaves on the track leads to its other way. -/
theorem lazybranch_safe {target : Nat} (hs : Line.Stands x.lines a ({ op := .lazybranch target } :: ls))
    (htarget : Line.Stands x.lines target ls') (hr : x.Carries k r)
    (hother : ∀ j ≤ n, ∀ r', x.Carries k r' → x.routine.Safe Q j (x.state target) r')
    (hnext : ∀ k' r', k.Extends k' → k'.marks = k.marks → x.Carries k' r' → r'.pos = r.pos →
      x.Recovers Q n k' → x.routine.Safe Q n (x.state (a + 2)) r') :
    x.routine.Safe Q n (x.state a) r := by
  obtain ⟨o, ho⟩ := x.loaded.lineAt hs
  have hop : o.op = .lazybranch ((Line.offsets 0 x.lines).idxOf target) := ho.op
  refine .of_line ho (by rw [hop]; nofun) (Routine.forward_lazybranch hop) fun j hj => ?_
  refine Routine.Safe.mono (hnext ⟨(x.routine.tag o false : Int) :: r.here :: k.track, k.marks, k.crawl⟩ _
    (.of_track k [_, _] _) rfl { hr with track := congrArg _ (congrArg _ hr.track) } rfl ?_) (Nat.le_of_lt hj)
  intro r₁ hr₁
  have hresume := Routine.resume_lazybranch (m := x.routine) (r := { r₁ with track := r.here :: k.track })
    hop rfl
  rw [hr.position_here] at hresume
  refine .of_resume ho (by rw [hop]; exact List.mem_singleton_self false) hr₁.track hresume fun i hi => ?_
  rw [Routine.leads, x.loaded.enter htarget]
  exact hother i (Nat.le_of_lt hi) _ { hr₁ with track := rfl, inside := hr.inside }

theorem goto_safe {target : Nat} (hs : Line.Stands x.lines a ({ op := .goto target } :: ls))
    (htarget : Line.Stands x.lines target ls') (h : x.routine.Safe Q n (x.state target) r) :
    x.routine.Safe Q n (x.state a) r := by
  obtain ⟨o, ho⟩ := x.loaded.lineAt hs
  have hop : o.op = .goto ((Line.offsets 0 x.lines).idxOf target) := ho.op
  refine .of_line ho (by rw [hop]; nofun) (Routine.forward_goto hop) fun j hj => ?_
  rw [Routine.leads, x.loaded.enter htarget]
  exact h.mono (Nat.le_of_lt hj)

/-! ### Cuts -/

/-- Back at a marked depth, everything since is undone and the run fails. -/
theorem backjump_safe (hs : Line.Stands x.lines a ({ op := .backjump } :: ls)) (hshallow : k.Shallow)
    (hk : k.Extends k') (hmarks : k'.marks = k.depths ++ k.marks) (hr : x.Carries k' r)
    (hQ : x.Recovers Q n k) : x.routine.Safe Q n (x.state a) r := by
  obtain ⟨o, ho⟩ := x.loaded.lineAt hs
  have hop : o.op = .backjump := ho.op
  obtain ⟨⟨ts, hts⟩, ns, hns⟩ := hk
  have hforward := Routine.forward_backjump (m := x.routine) hop (hr.marks.trans hmarks)
    (hr.track.trans hts) (hr.crawl.trans hns) hshallow.track hshallow.crawl
  refine .of_line ho (by rw [hop]; nofun) hforward fun j hj => ?_
  exact (hQ.mono (Nat.le_of_lt hj)) _ (hr.undo hns)

/-- What was put on the track since a marked depth is dropped, and the run goes on. -/
theorem forejump_safe (hs : Line.Stands x.lines a ({ op := .forejump } :: ls)) (hshallow : k.Shallow)
    (hk : k.Extends k') (hmarks : k'.marks = k.depths ++ k.marks) (hr : x.Carries k' r)
    (hQ : x.Recovers Q n k) (hP : x.Proceeds Q n (a + 1) k k.marks) :
    x.routine.Safe Q n (x.state a) r := by
  obtain ⟨o, ho⟩ := x.loaded.lineAt hs
  have hop : o.op = .forejump := ho.op
  obtain ⟨⟨ts, hts⟩, ns, hns⟩ := hk
  have hforward := Routine.forward_forejump (m := x.routine) hop (hr.marks.trans hmarks)
    (hr.track.trans hts) hshallow.track
  refine .of_line ho (by rw [hop]; nofun) hforward fun j hj => ?_
  refine hP j (Nat.le_of_lt hj)
    ⟨(x.routine.tag o false : Int) :: (k.crawl.length : Int) :: k.track, k.marks, k'.crawl⟩ _
    ⟨⟨[_, _], rfl⟩, ns, hns⟩ rfl { hr with track := rfl, marks := rfl } ?_
  intro r₁ hr₁
  have hundone := Routine.resume_forejump (m := x.routine)
    (r := { r₁ with track := (k.crawl.length : Int) :: k.track }) hop rfl (hr₁.crawl.trans hns)
    hshallow.crawl
  refine .of_resume ho (by rw [hop]; decide) hr₁.track hundone fun i hi => ?_
  have hback := hr₁.undo (k := k) hns
  exact (hQ.mono (Nat.le_of_lt (Nat.lt_trans hi hj))) _ { hback with marks := hr₁.marks }

/-- Back at the position before a cut, the run goes on. -/
theorem getmark_forejump_safe (hget : Line.Stands x.lines a ({ op := .getmark } :: ls))
    (hfore : Line.Stands x.lines (a + 1) ({ op := .forejump } :: ls')) (hshallow : k.Shallow)
    (hk : k.Extends k') {start : Nat} (hmarks : k'.marks = Word.ofPosition start :: (k.depths ++ k.marks))
    (hstart : x.subject.Inside start) (hr : x.Carries k' r) (hQ' : x.Recovers Q n k')
    (hQ : x.Recovers Q n k) (hP : x.Proceeds Q n (a + 2) k k.marks) : x.routine.Safe Q n (x.state a) r := by
  refine getmark_safe hget hmarks hstart hr hQ' fun j hj k₁ r₁ hk₁ hmarks₁ hr₁ _ => ?_
  exact forejump_safe hfore hshallow (hk.trans hk₁) hmarks₁ hr₁ (hQ.mono hj) (hP.mono hj)

/-! ### Constructs -/

theorem Proceeds.goto (hP : x.Proceeds Q n b k marks)
    (hs : Line.Stands x.lines a ({ op := .goto b } :: ls)) (hb : Line.Stands x.lines b ls') :
    x.Proceeds Q n a k marks :=
  fun j hj k' r hk hmarks hr hQ => goto_safe hs hb (hP j hj k' r hk hmarks hr hQ)

namespace Balanced

variable {c d : Nat}

/-- What may follow a balanced stretch may be put off until after it. -/
theorem proceeds (h : x.Balanced Q a b) (hP : x.Proceeds Q n b k marks) : x.Proceeds Q n a k marks := by
  rintro j hj k' r hk rfl hr hQ
  exact h j k' r hr hQ ((hP.mono hj).after hk)

theorem nil (a : Nat) : x.Balanced Q a a :=
  fun n k r hr hQ hP => hP n (Nat.le_refl n) k r (.refl k) rfl hr hQ

theorem append (h : x.Balanced Q a b) (h' : x.Balanced Q b c) : x.Balanced Q a c :=
  fun n k r hr hQ hP => h n k r hr hQ (h'.proceeds hP)

theorem cut (hset : Line.Stands x.lines a ({ op := .setjump } :: ls)) (h : x.Balanced Q (a + 1) b)
    (hfore : Line.Stands x.lines b ({ op := .forejump } :: ls')) : x.Balanced Q a (b + 1) := by
  intro n k r hr hQ hP
  refine setjump_safe hset hr hQ fun hshallow k₁ r₁ hk₁ hmarks₁ hr₁ hQ₁ => ?_
  refine h n k₁ r₁ hr₁ hQ₁ fun j hj k₂ r₂ hk₂ hmarks₂ hr₂ _ => ?_
  exact forejump_safe hfore hshallow (hk₁.trans hk₂) (hmarks₂.trans hmarks₁) hr₂ (hQ.mono hj) (hP.mono hj)

theorem prevent (hset : Line.Stands x.lines a ({ op := .setjump } :: ls))
    (hlazy : Line.Stands x.lines (a + 1) ({ op := .lazybranch (b + 1) } :: ls'))
    (h : x.Balanced Q (a + 3) b) (hback : Line.Stands x.lines b ({ op := .backjump } :: ms))
    (hfore : Line.Stands x.lines (b + 1) ({ op := .forejump } :: ms')) : x.Balanced Q a (b + 2) := by
  intro n k r hr hQ hP
  refine setjump_safe hset hr hQ fun hshallow k₁ r₁ hk₁ hmarks₁ hr₁ _ => ?_
  refine lazybranch_safe hlazy hfore hr₁ (fun j hj r₂ hr₂ => ?_) fun k₂ r₂ hk₂ hmarks₂ hr₂ _ hQ₂ => ?_
  · exact forejump_safe hfore hshallow hk₁ hmarks₁ hr₂ (hQ.mono hj) (hP.mono hj)
  · refine h n k₂ r₂ hr₂ hQ₂ fun j hj k₃ r₃ hk₃ hmarks₃ hr₃ _ => ?_
    exact backjump_safe hback hshallow ((hk₁.trans hk₂).trans hk₃)
      (hmarks₃.trans (hmarks₂.trans hmarks₁)) hr₃ (hQ.mono hj)

theorem require (hset : Line.Stands x.lines a ({ op := .setjump } :: ls))
    (hmark : Line.Stands x.lines (a + 1) ({ op := .setmark } :: ls')) (h : x.Balanced Q (a + 2) b)
    (hget : Line.Stands x.lines b ({ op := .getmark } :: ms))
    (hfore : Line.Stands x.lines (b + 1) ({ op := .forejump } :: ms')) : x.Balanced Q a (b + 2) := by
  intro n k r hr hQ hP
  refine setjump_safe hset hr hQ fun hshallow k₁ r₁ hk₁ hmarks₁ hr₁ hQ₁ => ?_
  refine setmark_safe hmark hr₁ hQ₁ fun k₂ r₂ hk₂ hmarks₂ hr₂ hQ₂ => ?_
  refine h n k₂ r₂ hr₂ hQ₂ fun j hj k₃ r₃ hk₃ hmarks₃ hr₃ hQ₃ => ?_
  rw [hmarks₁] at hmarks₂
  exact getmark_forejump_safe hget hfore hshallow ((hk₁.trans hk₂).trans hk₃) (hmarks₃.trans hmarks₂)
    hr₁.inside hr₃ hQ₃ (hQ.mono hj) (hP.mono hj)

theorem choice {target : Nat} (hlazy : Line.Stands x.lines a ({ op := .lazybranch target } :: ls))
    (h : x.Balanced Q (a + 2) c) (hgoto : Line.Stands x.lines c ({ op := .goto b } :: ls'))
    (hb : Line.Stands x.lines b ms) (htarget : Line.Stands x.lines target ms')
    (h' : x.Balanced Q target b) : x.Balanced Q a b := by
  intro n k r hr hQ hP
  refine lazybranch_safe hlazy htarget hr (fun j hj r₁ hr₁ => ?_) fun k₁ r₁ hk₁ hmarks₁ hr₁ _ hQ₁ => ?_
  · exact h' j k r₁ hr₁ (hQ.mono hj) (hP.mono hj)
  · rw [← hmarks₁] at hP
    exact h n k₁ r₁ hr₁ hQ₁ ((hP.after hk₁).goto hgoto hb)

/-- A condition that is a line, and may fail. -/
theorem testref (hset : Line.Stands x.lines a ({ op := .setjump } :: ls))
    (hlazy : Line.Stands x.lines (a + 1) ({ op := .lazybranch (d + 2) } :: ls'))
    (h : x.Balanced Q (a + 3) b) (hyes : x.Balanced Q (b + 1) d)
    (hfore : Line.Stands x.lines b ({ op := .forejump } :: ms))
    (hgoto : Line.Stands x.lines d ({ op := .goto c } :: ms')) {ns ns' : List Line}
    (hfore' : Line.Stands x.lines (d + 2) ({ op := .forejump } :: ns))
    (hno : x.Balanced Q (d + 2 + 1) c) (hc : Line.Stands x.lines c ns') : x.Balanced Q a c := by
  intro n k r hr hQ hP
  refine setjump_safe hset hr hQ fun hshallow k₁ r₁ hk₁ hmarks₁ hr₁ _ => ?_
  refine lazybranch_safe hlazy hfore' hr₁ (fun j hj r₂ hr₂ => ?_) fun k₂ r₂ hk₂ hmarks₂ hr₂ _ hQ₂ => ?_
  · exact forejump_safe hfore' hshallow hk₁ hmarks₁ hr₂ (hQ.mono hj) (hno.proceeds (hP.mono hj))
  · refine h n k₂ r₂ hr₂ hQ₂ fun j hj k₃ r₃ hk₃ hmarks₃ hr₃ _ => ?_
    exact forejump_safe hfore hshallow ((hk₁.trans hk₂).trans hk₃)
      (hmarks₃.trans (hmarks₂.trans hmarks₁)) hr₃ (hQ.mono hj)
      (hyes.proceeds ((hP.mono hj).goto hgoto hc))

/-- A condition that is an expression. -/
theorem testgroup (hset : Line.Stands x.lines a ({ op := .setjump } :: ls))
    (hmark : Line.Stands x.lines (a + 1) ({ op := .setmark } :: ls'))
    (hlazy : Line.Stands x.lines (a + 2) ({ op := .lazybranch (d + 2) } :: ms))
    (h : x.Balanced Q (a + 4) b) (hyes : x.Balanced Q (b + 2) d)
    (hget : Line.Stands x.lines b ({ op := .getmark } :: ms'))
    {ns ns' : List Line} (hfore : Line.Stands x.lines (b + 1) ({ op := .forejump } :: ns))
    (hgoto : Line.Stands x.lines d ({ op := .goto c } :: ns'))
    {os os' ps : List Line} (hget' : Line.Stands x.lines (d + 2) ({ op := .getmark } :: os))
    (hfore' : Line.Stands x.lines (d + 2 + 1) ({ op := .forejump } :: os'))
    (hno : x.Balanced Q (d + 2 + 2) c) (hc : Line.Stands x.lines c ps) : x.Balanced Q a c := by
  intro n k r hr hQ hP
  refine setjump_safe hset hr hQ fun hshallow k₁ r₁ hk₁ hmarks₁ hr₁ hQ₁ => ?_
  refine setmark_safe hmark hr₁ hQ₁ fun k₂ r₂ hk₂ hmarks₂ hr₂ hQ₂ => ?_
  rw [hmarks₁] at hmarks₂
  refine lazybranch_safe hlazy hget' hr₂ (fun j hj r₃ hr₃ => ?_) fun k₃ r₃ hk₃ hmarks₃ hr₃ _ hQ₃ => ?_
  · exact getmark_forejump_safe hget' hfore' hshallow (hk₁.trans hk₂) hmarks₂ hr₁.inside hr₃
      (hQ₂.mono hj) (hQ.mono hj) (hno.proceeds (hP.mono hj))
  · refine h n k₃ r₃ hr₃ hQ₃ fun j hj k₄ r₄ hk₄ hmarks₄ hr₄ hQ₄ => ?_
    exact getmark_forejump_safe hget hfore hshallow (((hk₁.trans hk₂).trans hk₃).trans hk₄)
      (hmarks₄.trans (hmarks₃.trans hmarks₂)) hr₁.inside hr₄ hQ₄ (hQ.mono hj)
      (hyes.proceeds ((hP.mono hj).goto hgoto hc))

end Balanced

/-! ### Loops -/

variable (x) in
/-- The test of a loop, reached with `size` marks of its own on top, goes on at `b` without them. A
failure finds them again. The mark of a loop before its first round is `-1`, and a failure may find
another in its place. -/
def Tests (Q : Runner → Prop) (a b size : Nat) : Prop :=
  ∀ n k r vs marks, x.Carries k r → vs.length = size → k.marks = vs ++ marks →
    (∀ ws, ws.length = size → ws = vs ∨ vs = [-1] → x.Recovers Q n { k with marks := ws ++ marks }) →
    x.Proceeds Q n b k marks → x.routine.Safe Q n (x.state a) r

/-- After the first round a failure finds the marks as they are. -/
theorem Recovers.settled {size : Nat} {vs : List Int} (hQ : x.Recovers Q n k) (hmarks : k.marks = vs ++ marks)
    (hvs : vs ≠ [-1]) (ws : List Int) (_ : ws.length = size) (hws : ws = vs ∨ vs = [-1]) :
    x.Recovers Q n { k with marks := ws ++ marks } := by
  rcases hws with rfl | hfirst
  · rw [← hmarks]
    exact hQ
  · exact absurd hfirst hvs

section Tests

variable {body limit : Nat}

/-- To show a test, its rounds may be taken to come back to it. -/
theorem Balanced.tests {size : Nat} (hbody : x.Balanced Q body a)
    (h : ∀ n k r vs marks, x.Carries k r → vs.length = size → k.marks = vs ++ marks →
      (∀ ws, ws.length = size → ws = vs ∨ vs = [-1] → x.Recovers Q n { k with marks := ws ++ marks }) →
      x.Proceeds Q n b k marks →
      (∀ j < n, ∀ ts ws r', ws.length = size → ws ≠ [-1] → x.Carries ⟨ts ++ k.track, ws ++ marks, k.crawl⟩ r' →
        x.Recovers Q j ⟨ts ++ k.track, ws ++ marks, k.crawl⟩ → x.routine.Safe Q j (x.state body) r') →
      x.routine.Safe Q n (x.state a) r) : x.Tests Q a b size := by
  intro n
  induction n using Nat.strongRecOn with
  | ind n ih =>
  intro k r vs marks hr hsize hmarks hQ hP
  refine h n k r vs marks hr hsize hmarks hQ hP fun j hj ts ws r₁ hws hne hr₁ hQ₁ => ?_
  refine hbody j _ r₁ hr₁ hQ₁ fun i hi k₂ r₂ hk₂ hmarks₂ hr₂ hQ₂ => ?_
  have hk := (Piles.Extends.of_track k ts (ws ++ marks)).trans hk₂
  exact ih i (by omega) k₂ r₂ ws marks hr₂ hws hmarks₂ (hQ₂.settled hmarks₂ hne) ((hP.mono (by omega)).after hk)

theorem branchmark_tests (hs : Line.Stands x.lines a ({ op := .branchmark false body } :: ls))
    (hstands : Line.Stands x.lines body ls') (hbody : x.Balanced Q body a) : x.Tests Q a (a + 2) 1 := by
  obtain ⟨o, ho⟩ := x.loaded.lineAt hs
  have hop : o.op = .branchmark false ((Line.offsets 0 x.lines).idxOf body) := ho.op
  have hagain : false ∈ o.op.resumptions := by simp [hop, Op.resumptions]
  have hundo : true ∈ o.op.resumptions := by simp [hop, Op.resumptions]
  refine hbody.tests fun n k r vs marks hr hsize hmarks hQ hP hround => ?_
  obtain ⟨v, rfl⟩ := List.length_eq_one_iff.mp hsize
  -- However the loop is left, a failure brings its mark back.
  have hleft : x.Recovers Q n ⟨(x.routine.tag o true : Int) :: v :: k.track, marks, k.crawl⟩ := by
    refine .of_undo ho hundo [v] (fun r₁ htrack hmarks₁ => ?_) (hQ [v] rfl (.inl rfl))
    rw [Routine.undo_branchmark hop htrack, hmarks₁]
    rfl
  by_cases hempty : r.here = v
  · subst hempty
    refine .of_line ho (by rw [hop]; nofun)
      (Routine.forward_branchmark_empty hop (hr.marks.trans hmarks)) fun j hj => ?_
    exact hP j (Nat.le_of_lt hj) _ _ (.of_track k [_, _] marks) rfl
      { hr with track := congrArg _ (congrArg _ hr.track), marks := rfl } (hleft.mono (Nat.le_of_lt hj))
  · refine .of_line ho (by rw [hop]; nofun)
      (Routine.forward_branchmark hop (hr.marks.trans hmarks) hempty) fun j hj => ?_
    rw [Routine.leads, x.loaded.enter hstands]
    refine hround j hj [(x.routine.tag o false : Int), r.here, v] [r.here] _ rfl hr.here_ne_first
      { hr with track := congrArg _ (congrArg _ (congrArg _ hr.track)), marks := rfl } fun r₁ hr₁ => ?_
    have hresume := Routine.resume_branchmark (m := x.routine)
      (r := { r₁ with track := r.here :: v :: k.track }) hop rfl hr₁.marks
    rw [hr.position_here] at hresume
    refine .of_resume ho hagain hr₁.track hresume fun i hi => ?_
    rw [Routine.leads, ho.next]
    exact hP i (by omega) _ _ (.of_track k [_, _] marks) rfl
      { hr₁ with track := rfl, marks := rfl, inside := hr.inside } (hleft.mono (by omega))

theorem lazyBranchmark_tests (hs : Line.Stands x.lines a ({ op := .branchmark true body } :: ls))
    (hstands : Line.Stands x.lines body ls') (hbody : x.Balanced Q body a) : x.Tests Q a (a + 2) 1 := by
  obtain ⟨o, ho⟩ := x.loaded.lineAt hs
  have hop : o.op = .branchmark true ((Line.offsets 0 x.lines).idxOf body) := ho.op
  have hagain : false ∈ o.op.resumptions := by simp [hop, Op.resumptions]
  have hundo : true ∈ o.op.resumptions := by simp [hop, Op.resumptions]
  refine hbody.tests fun n k r vs marks hr hsize hmarks hQ hP hround => ?_
  obtain ⟨v, rfl⟩ := List.length_eq_one_iff.mp hsize
  refine .of_forward ho (by rw [hop]; nofun) fun hregular => ?_
  have hmoved : r.here ≠ v := by
    rintro rfl
    refine hregular.round ⟨⟨_, ho.op?_eq.trans (congrArg some hop)⟩, ?_⟩
    rw [hr.marks, hmarks]
    rfl
  rw [Routine.forward_lazyBranchmark hop (hr.marks.trans hmarks) hmoved]
  have hQ' : x.Recovers Q n { k with marks := (if v ≠ -1 then v else r.here) :: marks } := by
    by_cases hv : v = -1
    · exact hQ [_] rfl (.inr (by rw [hv]))
    · rw [if_pos hv]
      exact hQ [v] rfl (.inl rfl)
  generalize (if v ≠ -1 then v else r.here) = v' at hQ' ⊢
  intro j hj
  refine hP j (Nat.le_of_lt hj) _ _
    (.of_track k [(x.routine.tag o false : Int), r.here, v'] marks) rfl
    { hr with track := congrArg _ (congrArg _ (congrArg _ hr.track)), marks := rfl } ?_
  intro r₁ hr₁
  have hresume := Routine.resume_lazyBranchmark (m := x.routine)
    (r := { r₁ with track := r.here :: v' :: k.track }) hop rfl
  rw [hr.position_here] at hresume
  refine .of_resume ho hagain hr₁.track hresume fun i hi => ?_
  rw [Routine.leads, x.loaded.enter hstands]
  refine hround i (by omega) [(x.routine.tag o true : Int), v'] [r.here] _ rfl hr.here_ne_first
    { hr₁ with track := rfl, marks := congrArg _ hr₁.marks, inside := hr.inside } ?_
  exact .of_undo ho hundo [v'] (fun r₂ => Routine.undo_lazyBranchmark hop) (hQ'.mono (by omega))

theorem branchcount_tests (hs : Line.Stands x.lines a ({ op := .branchcount false body limit } :: ls))
    (hstands : Line.Stands x.lines body ls') (hbody : x.Balanced Q body a) : x.Tests Q a (a + 3) 2 := by
  obtain ⟨o, ho⟩ := x.loaded.lineAt hs
  have hop : o.op = .branchcount false ((Line.offsets 0 x.lines).idxOf body) limit := ho.op
  have hagain : false ∈ o.op.resumptions := by simp [hop, Op.resumptions]
  have hundo : true ∈ o.op.resumptions := by simp [hop, Op.resumptions]
  refine hbody.tests fun n k r vs marks hr hsize hmarks hQ hP hround => ?_
  obtain ⟨count, v, rfl⟩ := List.length_eq_two.mp hsize
  have hleft : x.Recovers Q n ⟨(x.routine.tag o true : Int) :: count :: v :: k.track, marks, k.crawl⟩ := by
    refine .of_undo ho hundo [count, v] (fun r₁ htrack hmarks₁ => ?_) (hQ [count, v] rfl (.inl rfl))
    rw [Routine.undo_branchcount hop htrack, hmarks₁]
    rfl
  by_cases hdone : (limit : Int) ≤ count ∨ (r.here = v ∧ 0 ≤ count)
  · refine .of_line ho (by rw [hop]; nofun)
      (Routine.forward_branchcount_done hop (hr.marks.trans hmarks) hdone) fun j hj => ?_
    exact hP j (Nat.le_of_lt hj) _ _ (.of_track k [_, _, _] marks) rfl
      { hr with track := congrArg _ (congrArg _ (congrArg _ hr.track)), marks := rfl }
      (hleft.mono (Nat.le_of_lt hj))
  · refine .of_line ho (by rw [hop]; nofun)
      (Routine.forward_branchcount hop (hr.marks.trans hmarks) hdone) fun j hj => ?_
    rw [Routine.leads, x.loaded.enter hstands]
    refine hround j hj [(x.routine.tag o false : Int), v] [count + 1, r.here] _ rfl (by simp)
      { hr with track := congrArg _ (congrArg _ hr.track), marks := rfl } ?_
    by_cases hcount : 0 < count + 1
    · intro r₁ hr₁
      have hresume := Routine.resume_branchcount (m := x.routine) (r := { r₁ with track := v :: k.track })
        hop rfl hr₁.marks hcount
      rw [hr.position_here, Int.add_sub_cancel] at hresume
      refine .of_resume ho hagain hr₁.track hresume fun i hi => ?_
      rw [Routine.leads, ho.next]
      exact hP i (by omega) _ _ (.of_track k [_, _, _] marks) rfl
        { hr₁ with track := rfl, marks := rfl, inside := hr.inside } (hleft.mono (by omega))
    · refine .of_undo ho hagain [v] (fun r₁ htrack hmarks₁ => ?_) ((hQ [count, v] rfl (.inl rfl)).mono (by omega))
      rw [Routine.resume_branchcount_first hop htrack hmarks₁ hcount, Int.add_sub_cancel]
      rfl

theorem lazyBranchcount_tests (hs : Line.Stands x.lines a ({ op := .branchcount true body limit } :: ls))
    (hstands : Line.Stands x.lines body ls') (hbody : x.Balanced Q body a) : x.Tests Q a (a + 3) 2 := by
  obtain ⟨o, ho⟩ := x.loaded.lineAt hs
  have hop : o.op = .branchcount true ((Line.offsets 0 x.lines).idxOf body) limit := ho.op
  have hagain : false ∈ o.op.resumptions := by simp [hop, Op.resumptions]
  have hundo : true ∈ o.op.resumptions := by simp [hop, Op.resumptions]
  refine hbody.tests fun n k r vs marks hr hsize hmarks hQ hP hround => ?_
  obtain ⟨count, v, rfl⟩ := List.length_eq_two.mp hsize
  -- A round may begin at once or after a failure, and it begins with the same stacks.
  have hagain' : ∀ j < n, ∀ r₁, x.Carries ⟨[(x.routine.tag o true : Int), v] ++ k.track,
      (count + 1) :: r.here :: marks, k.crawl⟩ r₁ → x.routine.Safe Q j (x.state body) r₁ := by
    intro j hj r₁ hr₁
    refine hround j hj [(x.routine.tag o true : Int), v] [count + 1, r.here] _ rfl (by simp) hr₁ ?_
    refine .of_undo ho hundo [v] (fun r₂ htrack hmarks₂ => ?_) ((hQ [count, v] rfl (.inl rfl)).mono (by omega))
    rw [Routine.undo_lazyBranchcount hop htrack hmarks₂, Int.add_sub_cancel]
    rfl
  by_cases hcount : count < 0
  · refine .of_line ho (by rw [hop]; nofun)
      (Routine.forward_lazyBranchcount_due hop (hr.marks.trans hmarks) hcount) fun j hj => ?_
    rw [Routine.leads, x.loaded.enter hstands]
    exact hagain' j hj _ { hr with track := congrArg _ (congrArg _ hr.track), marks := rfl }
  · refine .of_line ho (by rw [hop]; nofun)
      (Routine.forward_lazyBranchcount hop (hr.marks.trans hmarks) hcount) fun j hj => ?_
    refine hP j (Nat.le_of_lt hj) _ _
      (.of_track k [(x.routine.tag o false : Int), r.here, count, v] marks) rfl
      { hr with track := congrArg _ (congrArg _ (congrArg _ (congrArg _ hr.track))), marks := rfl } ?_
    by_cases hmore : count < (limit : Int) ∧ r.here ≠ v
    · intro r₁ hr₁
      have hresume := Routine.resume_lazyBranchcount (m := x.routine)
        (r := { r₁ with track := r.here :: count :: v :: k.track }) hop rfl hmore
      rw [hr.position_here] at hresume
      refine .of_resume ho hagain hr₁.track hresume fun i hi => ?_
      rw [Routine.leads, x.loaded.enter hstands]
      exact hagain' i (by omega) _
        { hr₁ with track := rfl, marks := congrArg _ (congrArg _ hr₁.marks), inside := hr.inside }
    · refine .of_undo ho hagain [r.here, count, v] (fun r₁ htrack hmarks₁ => ?_)
        ((hQ [count, v] rfl (.inl rfl)).mono (Nat.le_of_lt hj))
      rw [Routine.resume_lazyBranchcount_done hop htrack hmore, hmarks₁]
      rfl

end Tests

namespace Balanced

variable {size : Nat}

/-- A loop that begins with a round. -/
theorem loop (ho : x.routine.LineAt x.lines a l o)
    (hopened : ∀ k r, x.Carries k r →
      ∃ vs, Routine.opened r o.op = some vs ∧ vs.length = size ∧ vs ≠ [-1])
    {test : Nat} (h : x.Balanced Q (a + l.size) test) (htest : x.Tests Q test b size) :
    x.Balanced Q a b := by
  intro n k r hr hQ hP
  obtain ⟨vs, hvs, hsize, hne⟩ := hopened k r hr
  refine opening_safe ho hvs hr hQ fun _ k₁ r₁ hk₁ hmarks₁ hr₁ _ hQ₁ _ => ?_
  refine h n k₁ r₁ hr₁ hQ₁ fun j hj k₂ r₂ hk₂ hmarks₂ hr₂ hQ₂ => ?_
  have hmarks := hmarks₂.trans hmarks₁
  exact htest j k₂ r₂ vs k.marks hr₂ hsize hmarks (hQ₂.settled hmarks hne)
    ((hP.mono hj).after (hk₁.trans hk₂))

/-- A loop that begins with its test. -/
theorem loop_from_test (ho : x.routine.LineAt x.lines a l o) {vs : List Int}
    (hopened : ∀ r, Routine.opened r o.op = some vs) (hsize : vs.length = size) {test : Nat}
    (hgoto : Line.Stands x.lines (a + l.size) ({ op := .goto test } :: ls))
    (hstands : Line.Stands x.lines test ls') (htest : x.Tests Q test b size) : x.Balanced Q a b := by
  intro n k r hr hQ hP
  refine opening_safe ho (hopened r) hr hQ fun _ k₁ r₁ hk₁ hmarks₁ hr₁ _ _ hQ₁ => ?_
  refine goto_safe hgoto hstands (htest n k₁ r₁ vs k.marks hr₁ hsize hmarks₁ ?_ (hP.after hk₁))
  intro ws hws _
  exact hQ₁ ws (hws.trans hsize.symm)

end Balanced

end Trial

end PatternCompiler
