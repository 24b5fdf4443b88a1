import PatternCompiler.Proofs.Histories
import PatternCompiler.Proofs.Rounds

/-! Lines that come up with outcomes.

A stretch of lines is entered with certain stacks. It comes up with one outcome after
the other: for each it reaches its end, having put on the stacks what undoes it, and a
failure later on brings it back for the next outcome or, when there is none left, fails
with the stacks it was entered with.

`Generates` says this with two continuations. `Fails k Q` says that a failure with the
stacks `k` ends in a state with the property `Q`. `Continues … K` says that a run that
reaches the end of the stretch with the outcome `s`, and would end with `Q` if it
failed there, ends with `K s Q`. A stretch with the outcomes `os` then ends with
`os.foldr K Q`. Sequences (`Generates.bind`), choices (`choice_generates`) and cuts
(`cut_generates`, `prevent_generates`) are laws about such folds. -/
namespace PatternCompiler

/-! ### Stacks -/

/-- The three stacks and what the groups have captured. The crawl lists groups, not slots. -/
structure Stacks where
  track : List Int
  marks : List Int
  crawl : List Nat
  groups : Groups

namespace Stacks

/-- No more than `w` entries were put on the track and on the crawl, and to undo them brings back
what was captured before. -/
structure Extends (w : Nat) (k k' : Stacks) : Prop where
  track : ∃ ts, k'.track = ts ++ k.track ∧ ts.length ≤ w
  crawl : ∃ ns, k'.crawl = ns ++ k.crawl ∧ ns.length ≤ w ∧ k'.groups.undo ns = k.groups

/-- The marks of the depths of the crawl and the track. -/
def depths (k : Stacks) : List Int := [(k.crawl.length : Int), (k.track.length : Int)]

/-- The stacks after a cut back to `k`: the captures since then stay, and an entry of the track
tells how deep the crawl was. -/
def cut (k k' : Stacks) (tag : Int) : Stacks :=
  ⟨tag :: (k.crawl.length : Int) :: k.track, k.marks, k'.crawl, k'.groups⟩

/-- A repetition leaves the position to resume at, and how often it may be resumed after that. -/
def resumable (k : Stacks) (tag : Int) (pos left : Nat) : Stacks :=
  { k with track := tag :: Word.ofPosition pos :: (left : Int) :: k.track }

/-- `w` more entries leave the depths of the stacks within the range of positions. -/
structure Room (w : Nat) (k : Stacks) : Prop where
  track : k.track.length + w < Word.modulus
  crawl : k.crawl.length + w < Word.modulus

variable {w w' : Nat} {k k' k'' : Stacks}

theorem Extends.trans (h : k.Extends w k') (h' : k'.Extends w' k'') : k.Extends (w + w') k'' := by
  obtain ⟨⟨ts, hts, hw⟩, ns, hns, hn, hundo⟩ := h
  obtain ⟨⟨ts', hts', hw'⟩, ns', hns', hn', hundo'⟩ := h'
  refine ⟨⟨ts' ++ ts, by rw [hts', hts, List.append_assoc], ?_⟩,
    ns' ++ ns, by rw [hns', hns, List.append_assoc], ?_, ?_⟩
  · rw [List.length_append]
    omega
  · rw [List.length_append]
    omega
  · rw [Groups.undo_append, hundo', hundo]

theorem Extends.mono (h : k.Extends w k') (hw : w ≤ w') : k.Extends w' k' := by
  obtain ⟨⟨ts, hts, ht⟩, ns, hns, hn, hundo⟩ := h
  exact ⟨⟨ts, hts, Nat.le_trans ht hw⟩, ns, hns, Nat.le_trans hn hw, hundo⟩

/-- Only the track has grown. -/
theorem Extends.of_track (ts marks : List Int) (hw : ts.length ≤ w) :
    k.Extends w { k with track := ts ++ k.track, marks := marks } :=
  ⟨⟨ts, rfl, hw⟩, [], rfl, Nat.zero_le w, rfl⟩

theorem Extends.cut (h : k.Extends w k') (tag : Int) : k.Extends (w + 2) (k.cut k' tag) := by
  obtain ⟨-, ns, hns, hn, hundo⟩ := h
  exact ⟨⟨[tag, k.crawl.length], rfl, Nat.le_add_left 2 w⟩, ns, hns, Nat.le_add_right_of_le hn, hundo⟩

theorem extends_resumable (k : Stacks) (tag : Int) (pos left : Nat) :
    k.Extends 3 (k.resumable tag pos left) :=
  .of_track [tag, Word.ofPosition pos, left] k.marks (Nat.le_refl 3)

theorem Room.mono (h : k.Room w') (hw : w ≤ w') : k.Room w := by
  obtain ⟨htrack, hcrawl⟩ := h
  constructor <;> omega

theorem Room.after (h : k.Room (w + w')) (hk : k.Extends w k') : k'.Room w' := by
  obtain ⟨htrack, hcrawl⟩ := h
  obtain ⟨⟨ts, hts, hw⟩, ns, hns, hn, -⟩ := hk
  constructor
  · rw [hts, List.length_append]
    omega
  · rw [hns, List.length_append]
    omega

end Stacks

/-! ### Runs of a program on a text -/

/-- A routine loaded with lines whose places refer to tables, and a text. -/
structure Trial where
  routine : Routine
  lines : List Line
  tables : Tables
  subject : Subject
  /-- The offset of the last line. -/
  last : Nat
  loaded : routine.Loaded lines
  strings : routine.program.code.strings.toList = tables.strings
  classes : routine.program.code.classes.toList = tables.classes
  numbers_le : tables.numbers.length ≤ unbounded
  strings_le : tables.strings.length ≤ unbounded
  classes_le : tables.classes.length ≤ unbounded

namespace Trial

variable (x : Trial)

/-- The state before the line at an offset. -/
def state (a : Nat) : MachineState := Line.state x.lines a

/-- A runner on the text, inside the bounds, with the given stacks. -/
structure Fits (k : Stacks) (r : Runner) : Prop where
  text : r.text = x.subject.text
  beg : r.beg = x.subject.beg
  finish : r.finish = x.subject.finish
  start : r.start = x.subject.start
  inside : x.subject.Inside r.pos
  track : r.track = k.track
  marks : r.marks = k.marks
  crawl : r.crawl = k.crawl.map (x.tables.numbers.idxOf ·)
  captures : r.captures.Logs x.tables.numbers k.groups

/-- The run comes to the last line, in a state with the property `Q`. -/
def Ends (s : MachineState) (r : Runner) (Q : Runner → Prop) : Prop :=
  ∃ r', x.routine.Steps s r (x.state x.last) r' ∧ Q r'

/-- A failure with the stacks `k` ends with `Q`. -/
def Fails (k : Stacks) (Q : Runner → Prop) : Prop := ∀ r, x.Fits k r → x.Ends .failing r Q

/-- The line at `b`, reached with no more than `w` entries on top of the stacks `k`, ends with what
`K` makes of the outcome and of how a failure would end. -/
def Continues (w b : Nat) (k : Stacks) (marks : List Int)
    (K : Outcome → (Runner → Prop) → Runner → Prop) : Prop :=
  ∀ k' r Q, k.Extends w k' → k'.marks = marks → x.Fits k' r → x.Fails k' Q →
    x.Ends (x.state b) r (K ⟨r.pos, k'.groups⟩ Q)

/-- The lines from `a` to `b`, entered at a position with the stacks `k`, come up with outcomes. -/
def Generates (w a b : Nat) (k : Stacks) (pos : Nat) (marks : List Int) (os : List Outcome) : Prop :=
  k.Room w → ∀ K Q r, x.Fits k r → r.pos = pos → x.Continues w b k marks K → x.Fails k Q →
    x.Ends (x.state a) r (os.foldr K Q)

variable {x}

/-! ### Small facts -/

theorem slot_eq (x : Trial) {n : Nat} (hn : n ∈ x.tables.numbers) :
    x.tables.slot n = x.tables.numbers.idxOf n := by
  have := List.idxOf_lt_length_iff.mpr hn
  have := x.numbers_le
  exact Nat.min_eq_left (by omega)

theorem Ends.step {s s' : MachineState} {r r' : Runner} {Q : Runner → Prop}
    (hstep : x.routine.step s r = .ok (s', r')) (h : x.Ends s' r' Q) : x.Ends s r Q := by
  obtain ⟨r'', hsteps, hQ⟩ := h
  exact ⟨r'', .step hstep hsteps, hQ⟩

theorem Continues.mono {w w' b : Nat} {k : Stacks} {marks : List Int}
    {K : Outcome → (Runner → Prop) → Runner → Prop} (h : x.Continues w b k marks K) (hw : w' ≤ w) :
    x.Continues w' b k marks K :=
  fun k' r Q hk => h k' r Q (hk.mono hw)

/-- What may follow `k` may follow all that extends `k`. -/
theorem Continues.after {w w' b : Nat} {k k' : Stacks} {marks : List Int}
    {K : Outcome → (Runner → Prop) → Runner → Prop} (h : x.Continues (w + w') b k marks K)
    (hk : k.Extends w k') : x.Continues w' b k' marks K :=
  fun k'' r Q hk' => h k'' r Q (hk.trans hk')

namespace Generates

variable {w w' a b c pos : Nat} {k : Stacks} {marks marks' : List Int} {os : List Outcome}

theorem mono (h : x.Generates w a b k pos marks os) (hw : w ≤ w') : x.Generates w' a b k pos marks os :=
  fun hroom K Q r hr hpos hK hQ => h (hroom.mono hw) K Q r hr hpos (hK.mono hw) hQ

/-- A stretch without lines has the outcome it is entered with. -/
theorem nil (a : Nat) (k : Stacks) (pos : Nat) : x.Generates 0 a a k pos k.marks [⟨pos, k.groups⟩] := by
  intro _ K Q r hr hpos hK hQ
  subst hpos
  exact hK k r Q (Stacks.Extends.of_track [] k.marks (Nat.le_refl 0)) rfl hr hQ

/-- **A sequence goes on from each outcome of its first part.** -/
theorem bind {f : Outcome → List Outcome} (h : x.Generates w a b k pos marks os)
    (h' : ∀ s k', k.Extends w k' → k'.marks = marks → k'.groups = s.groups →
      x.Generates w' b c k' s.pos marks' (f s)) :
    x.Generates (w + w') a c k pos marks' (os.flatMap f) := by
  intro hroom K Q r hr hpos hK hQ
  rw [List.foldr_flatMap]
  refine h (hroom.mono (Nat.le_add_right w w')) _ Q r hr hpos ?_ hQ
  intro k' r' Q' hk hmarks hr' hQ'
  exact h' ⟨r'.pos, k'.groups⟩ k' hk hmarks rfl (hroom.after hk) K Q' r' hr' rfl (hK.after hk) hQ'

end Generates

/-! ### Single lines -/

section Lines

variable {w a b pos : Nat} {l : Line} {o : Operation} {k k' : Stacks}

/-- A line that always succeeds, and leaves a tag that undoes what it did. -/
theorem generates_of_undo (ho : x.routine.LineAt x.lines a l o) (s : Outcome) {track : List Int}
    (hk : k.Extends w k') (hgroups : k'.groups = s.groups)
    (htag : false ∈ o.op.resumptions) (htrack : k'.track = (x.routine.tag o false : Int) :: track)
    (hforward : ∀ r, x.Fits k r → r.pos = pos →
      ∃ r', x.routine.forward o r = .ok (.following, r') ∧ x.Fits k' r' ∧ r'.pos = s.pos)
    (hundo : ∀ r, x.Fits { k' with track := track } r →
      ∃ r', x.routine.resume o false r = .ok (.fail, r') ∧ x.Fits k r') :
    x.Generates w a (a + l.size) k pos k'.marks [s] := by
  intro _ K Q r hr hpos hK hQ
  obtain ⟨r', hr', hfits, hpos'⟩ := hforward r hr hpos
  have hfails : x.Fails k' Q := by
    intro r₁ hr₁
    obtain ⟨r₂, hr₂, hback⟩ := hundo { r₁ with track := track } { hr₁ with track := rfl }
    exact .step (ho.step_resume htag (hr₁.track.trans htrack) hr₂) (hQ r₂ hback)
  have hs : s = ⟨r'.pos, k'.groups⟩ := by rw [hpos', hgroups]
  rw [hs]
  exact .step (ho.step_forward hr') (hK k' r' Q hk rfl hfits hfails)

/-! ### Captures -/

variable {ls ls' : List Line}

/-- A line that opens something puts marks on top, and a failure takes as many off. -/
theorem opening_generates (ho : x.routine.LineAt x.lines a l o) (vs : List Int)
    (hopened : ∀ r, x.Fits k r → r.pos = pos → Routine.opened r o.op = some vs) :
    x.Generates 1 a (a + l.size) k pos (vs ++ k.marks) [⟨pos, k.groups⟩] := by
  intro n K Q r hr hpos
  have hop := hopened r hr hpos
  have hk : k.Extends 1 { k with
      track := [(x.routine.tag o false : Int)] ++ k.track, marks := vs ++ k.marks } :=
    .of_track _ _ (Nat.le_refl 1)
  refine generates_of_undo ho ⟨pos, k.groups⟩ hk rfl (Routine.opened_resumptions hop) rfl
    (fun r hr hpos => ?_) (fun r hr => ?_) n K Q r hr hpos
  · exact ⟨_, Routine.forward_opened (hopened r hr hpos),
      { hr with track := congrArg _ hr.track, marks := congrArg _ hr.marks }, hpos⟩
  · exact ⟨_, Routine.resume_opened hop hr.marks rfl, { hr with marks := rfl }⟩

theorem setmark_generates (hs : Line.Stands x.lines a ({ op := .setmark } :: ls)) (k : Stacks) (pos : Nat) :
    x.Generates 1 a (a + 1) k pos (Word.ofPosition pos :: k.marks) [⟨pos, k.groups⟩] := by
  obtain ⟨o, ho⟩ := x.loaded.lineAt hs
  refine opening_generates ho [Word.ofPosition pos] fun r _ hpos => ?_
  rw [ho.op, ← hpos]
  rfl

theorem getmark_generates (hs : Line.Stands x.lines a ({ op := .getmark } :: ls)) {start : Nat}
    {marks : List Int} (hmarks : k.marks = Word.ofPosition start :: marks)
    (hstart : x.subject.Inside start) (pos : Nat) :
    x.Generates 2 a (a + 1) k pos marks [⟨start, k.groups⟩] := by
  obtain ⟨o, ho⟩ := x.loaded.lineAt hs
  have hop : o.op = .getmark := ho.op
  have hk : k.Extends 2 { k with
      track := [(x.routine.tag o false : Int), Word.ofPosition start] ++ k.track, marks := marks } :=
    .of_track _ _ (Nat.le_refl 2)
  have hposition := Word.position_ofPosition (x.subject.lt_modulus hstart)
  refine generates_of_undo ho _ hk rfl (by rw [hop]; decide) rfl ?_ ?_
  · intro r hr hpos
    have hforward := Routine.forward_getmark (m := x.routine) hop (hr.marks.trans hmarks)
    rw [hposition] at hforward
    exact ⟨_, hforward,
      { hr with track := congrArg _ (congrArg _ hr.track), marks := rfl, inside := hstart }, rfl⟩
  · intro r hr
    have htrack : r.track = Word.ofPosition start :: k.track := hr.track
    refine ⟨_, Routine.resume_getmark hop htrack, { hr with track := rfl, marks := ?_ }⟩
    rw [hmarks, hr.marks]

/-- A group captures what is between its mark and the position. -/
theorem capturemark_generates {n : Nat} (hn : n ∈ x.tables.numbers)
    (hs : Line.Stands x.lines a ({ op := .capturemark (some (x.tables.slot n)) none } :: ls)) {start : Nat}
    {marks : List Int} (hmarks : k.marks = Word.ofPosition start :: marks)
    (hstart : x.subject.Inside start) (pos : Nat) :
    x.Generates 2 a (a + 3) k pos marks [⟨pos, k.groups.record n (interval start pos)⟩] := by
  obtain ⟨o, ho⟩ := x.loaded.lineAt hs
  have hop : o.op = .capturemark (some (x.tables.numbers.idxOf n)) none := by
    rw [ho.op, ← x.slot_eq hn]
    rfl
  have hk : k.Extends 2 ⟨[(x.routine.tag o false : Int), Word.ofPosition start] ++ k.track, marks,
      [n] ++ k.crawl, k.groups.record n (interval start pos)⟩ :=
    ⟨⟨_, rfl, Nat.le_refl 2⟩, _, rfl, Nat.le_succ 1, Groups.forget_record k.groups n _⟩
  refine generates_of_undo ho _ hk rfl (by rw [hop]; exact List.mem_singleton_self false) rfl ?_ ?_
  · rintro r hr rfl
    have hlow : 2 * (min start r.pos) < Word.modulus := by
      have := x.subject.double_lt_modulus hstart
      omega
    have hhigh : 2 * (max start r.pos - min start r.pos) < Word.modulus := by
      have := x.subject.double_lt_modulus hstart
      have := x.subject.double_lt_modulus hr.inside
      omega
    obtain ⟨c, hc, hlogs⟩ := hr.captures.add hn hlow hhigh
    refine ⟨x.routine.leave o false (Runner.pushTrack
        { r with marks := marks, crawl := x.tables.numbers.idxOf n :: r.crawl, captures := c }
        (Word.ofPosition start)), ?_, { hr with
        track := congrArg _ (congrArg _ hr.track), marks := rfl, crawl := congrArg _ hr.crawl,
        captures := hlogs }, rfl⟩
    simp only [Routine.forward, hop, Routine.forwardCapturemark,
      Runner.popMark_cons (hr.marks.trans hmarks), Option.any_none, Bool.false_eq_true, if_false,
      bind, Except.bind, Word.position_ofPosition (x.subject.lt_modulus hstart), Runner.capture, hc]
  · intro r hr
    have htrack : r.track = Word.ofPosition start :: k.track := hr.track
    have hcrawl : r.crawl = [x.tables.numbers.idxOf n] ++ k.crawl.map (x.tables.numbers.idxOf ·) := hr.crawl
    refine ⟨_, Routine.resume_capturemark hop htrack [x.tables.numbers.idxOf n] rfl hcrawl,
      { hr with track := rfl, marks := ?_, crawl := rfl, captures := ?_ }⟩
    · rw [hmarks, hr.marks]
    · rw [← Groups.forget_record k.groups n (interval start pos)]
      exact hr.captures.remove n

/-! ### Cuts -/

variable {K : Outcome → (Runner → Prop) → Runner → Prop} {Q : Runner → Prop} {r : Runner}

theorem setjump_generates (hs : Line.Stands x.lines a ({ op := .setjump } :: ls)) (k : Stacks) (pos : Nat) :
    x.Generates 1 a (a + 1) k pos (k.depths ++ k.marks) [⟨pos, k.groups⟩] := by
  obtain ⟨o, ho⟩ := x.loaded.lineAt hs
  refine opening_generates ho k.depths fun r hr _ => ?_
  rw [ho.op]
  show some [(r.crawl.length : Int), (r.track.length : Int)] = _
  rw [hr.crawl, List.length_map, hr.track]
  rfl

/-- To undo what was captured on top of `k` brings back its captures. -/
theorem Fits.undo {ns : List Nat} (hr : x.Fits k' r) (hundo : k'.groups.undo ns = k.groups) :
    x.Fits k { r with
      track := k.track
      marks := k.marks
      crawl := k.crawl.map (x.tables.numbers.idxOf ·)
      captures := (ns.map (x.tables.numbers.idxOf ·)).foldl Captures.remove r.captures } :=
  { hr with track := rfl, marks := rfl, crawl := rfl, captures := hundo ▸ hr.captures.undo ns }

theorem Fits.crawl_append {ns : List Nat} (hr : x.Fits k' r) (hns : k'.crawl = ns ++ k.crawl) :
    r.crawl = ns.map (x.tables.numbers.idxOf ·) ++ k.crawl.map (x.tables.numbers.idxOf ·) := by
  rw [hr.crawl, hns, List.map_append]

/-- Back at a marked depth, everything since is undone and the run fails. -/
theorem backjump_ends (hs : Line.Stands x.lines a ({ op := .backjump } :: ls)) (hroom : k.Room 0)
    (hk : k.Extends w k') (hmarks : k'.marks = k.depths ++ k.marks) (hr : x.Fits k' r)
    (hQ : x.Fails k Q) : x.Ends (x.state a) r Q := by
  obtain ⟨o, ho⟩ := x.loaded.lineAt hs
  have hop : o.op = .backjump := ho.op
  obtain ⟨⟨ts, hts, -⟩, ns, hns, -, hundo⟩ := hk
  have hlength : (k.crawl.map (x.tables.numbers.idxOf ·)).length = k.crawl.length := List.length_map _
  have hforward := Routine.forward_backjump (m := x.routine) hop
    (by rw [hlength]; exact hr.marks.trans hmarks) (hr.track.trans hts) (hr.crawl_append hns)
    hroom.track (by rw [hlength]; exact hroom.crawl)
  exact .step (ho.step_forward hforward) (hQ _ (hr.undo hundo))

/-- A cut is undone by undoing the captures that it kept. -/
theorem cut_fails {l : Line} {o : Operation} (ho : x.routine.LineAt x.lines a l o) (hop : o.op = .forejump)
    (hroom : k.Room 0) (hk : k.Extends w k') (hQ : x.Fails k Q) :
    x.Fails (k.cut k' (x.routine.tag o false)) Q := by
  obtain ⟨-, ns, hns, -, hundo⟩ := hk
  intro r hr
  have hlength : (k.crawl.map (x.tables.numbers.idxOf ·)).length = k.crawl.length := List.length_map _
  have hundone := Routine.resume_forejump (m := x.routine)
    (r := { r with track := (k.crawl.length : Int) :: k.track }) hop (by rw [hlength])
    (hr.crawl_append hns) (by rw [hlength]; exact hroom.crawl)
  refine .step (ho.step_resume (by rw [hop]; decide) hr.track hundone) (hQ _ ?_)
  have hback := hr.undo hundo
  exact { hback with marks := hr.marks }

/-- What was put on the track since a marked depth is dropped, and the run goes on. -/
theorem forejump_ends (hs : Line.Stands x.lines a ({ op := .forejump } :: ls)) (hroom : k.Room 0)
    (hk : k.Extends w k') (hmarks : k'.marks = k.depths ++ k.marks) (hr : x.Fits k' r)
    (hK : x.Continues (w + 2) (a + 1) k k.marks K) (hQ : x.Fails k Q) :
    x.Ends (x.state a) r (K ⟨r.pos, k'.groups⟩ Q) := by
  obtain ⟨o, ho⟩ := x.loaded.lineAt hs
  have hop : o.op = .forejump := ho.op
  obtain ⟨ts, hts, -⟩ := hk.track
  have hforward := Routine.forward_forejump (m := x.routine) hop (hr.marks.trans hmarks)
    (hr.track.trans hts) hroom.track
  have hcut : x.Fits (k.cut k' (x.routine.tag o false)) { r with
      track := (x.routine.tag o false : Int) :: (k.crawl.length : Int) :: k.track, marks := k.marks } :=
    { hr with track := rfl, marks := rfl }
  have hend := hK _ _ Q (hk.cut _) rfl hcut (cut_fails ho hop hroom hk hQ)
  exact .step (ho.step_forward hforward) hend

/-- A failure with what a choice leaves on the track leads to its other way. -/
theorem lazybranch_ends {target : Nat} {R : Runner → Prop}
    (hs : Line.Stands x.lines a ({ op := .lazybranch target } :: ls))
    (htarget : Line.Stands x.lines target ls') (hr : x.Fits k r)
    (hother : ∀ r', x.Fits k r' → r'.pos = r.pos → x.Ends (x.state target) r' Q)
    (hnext : ∀ k' r', k.Extends 2 k' → k'.marks = k.marks → k'.groups = k.groups → x.Fits k' r' →
      r'.pos = r.pos → x.Fails k' Q → x.Ends (x.state (a + 2)) r' R) :
    x.Ends (x.state a) r R := by
  obtain ⟨o, ho⟩ := x.loaded.lineAt hs
  have hop : o.op = .lazybranch ((Line.offsets 0 x.lines).idxOf target) := ho.op
  have hfails : x.Fails { k with
      track := [(x.routine.tag o false : Int), r.here] ++ k.track, marks := k.marks } Q := by
    intro r₁ hr₁
    have hposition : Word.position r.here = r.pos :=
      Word.position_ofPosition (x.subject.lt_modulus hr.inside)
    have hresume := Routine.resume_lazybranch (m := x.routine)
      (r := { r₁ with track := r.here :: k.track }) hop rfl
    rw [hposition] at hresume
    have hstep := ho.step_resume (by rw [hop]; exact List.mem_singleton_self false) hr₁.track hresume
    rw [Routine.leads, x.loaded.enter htarget] at hstep
    exact .step hstep (hother _ { hr₁ with track := rfl, inside := hr.inside } rfl)
  have hk : k.Extends 2 { k with
      track := [(x.routine.tag o false : Int), r.here] ++ k.track, marks := k.marks } :=
    .of_track _ _ (Nat.le_refl 2)
  have hend := hnext _ { r with track := (x.routine.tag o false : Int) :: r.here :: r.track } hk rfl rfl
    { hr with track := congrArg _ (congrArg _ hr.track) } rfl hfails
  exact .step (ho.step_forward (Routine.forward_lazybranch hop)) hend

theorem goto_ends {target : Nat} (hs : Line.Stands x.lines a ({ op := .goto target } :: ls))
    (htarget : Line.Stands x.lines target ls') (h : x.Ends (x.state target) r Q) :
    x.Ends (x.state a) r Q := by
  obtain ⟨o, ho⟩ := x.loaded.lineAt hs
  have hop : o.op = .goto ((Line.offsets 0 x.lines).idxOf target) := ho.op
  have hstep := ho.step_forward (r := r) (Routine.forward_goto hop)
  rw [Routine.leads, x.loaded.enter htarget] at hstep
  exact .step hstep h

end Lines

/-! ### Constructs -/

variable (x) in
/-- The lines from `a` to `b` match as `f` tells: from every outcome they come up with those that
`f` lists, and they leave the marks as they were. -/
def Matches (w a b : Nat) (f : Outcome → List Outcome) : Prop :=
  ∀ s k, k.groups = s.groups → x.Generates w a b k s.pos k.marks (f s)

namespace Matches

variable {w w' a b c : Nat} {f g : Outcome → List Outcome}
  {ls ls' ms ms' : List Line}

theorem mono (h : x.Matches w a b f) (hw : w ≤ w') : x.Matches w' a b f :=
  fun s k hk => (h s k hk).mono hw

theorem of_le (h : x.Matches w a b f) (hw : w ≤ w') (hb : b = c) : x.Matches w' a c f :=
  hb ▸ h.mono hw

/-- Only positions inside the bounds matter. -/
theorem congr (h : x.Matches w a b f) (hfg : ∀ s, x.subject.Inside s.pos → f s = g s) :
    x.Matches w a b g := by
  intro s k hk hroom K Q r hr hpos
  rw [← hfg s (hpos ▸ hr.inside)]
  exact h s k hk hroom K Q r hr hpos

theorem nil (a : Nat) : x.Matches 0 a a ([·]) := by
  intro s k hk
  have hnil := Generates.nil (x := x) a k s.pos
  rwa [hk] at hnil

theorem append (h : x.Matches w a b f) (h' : x.Matches w' b c g) :
    x.Matches (w + w') a c fun s => (f s).flatMap g := by
  intro s k hk
  refine (h s k hk).bind fun t k' _ hmarks hgroups => ?_
  rw [← hmarks]
  exact h' t k' hgroups

/-- A line that moves or fails, and leaves the stacks alone. -/
theorem of_landing {l : Line} {o : Operation} (ho : x.routine.LineAt x.lines a l o)
    (passes : Nat → Bool) (target : Nat → Nat)
    (hinside : ∀ k r, x.Fits k r → passes r.pos → x.subject.Inside (target r.pos))
    (hforward : ∀ k r, x.Fits k r → x.routine.forward o r =
      .ok (if passes r.pos then (.following, { r with pos := target r.pos }) else (.fail, r))) :
    x.Matches 0 a (a + l.size) fun s =>
      (if passes s.pos then [target s.pos] else []).map (⟨·, s.groups⟩) := by
  rintro s k hk - K Q r hr hpos hK hQ
  have hstep := ho.forward r
  rw [hforward k r hr, hpos] at hstep
  show x.Ends _ r (((if passes s.pos then [target s.pos] else []).map (⟨·, s.groups⟩)).foldr K Q)
  by_cases hpass : passes s.pos = true
  · have hr' : x.Fits k { r with pos := target s.pos } :=
      { hr with inside := hpos ▸ hinside k r hr (hpos ▸ hpass) }
    have hend := hK k _ Q (Stacks.Extends.of_track [] k.marks (Nat.zero_le 0)) rfl hr' hQ
    rw [if_pos hpass] at hstep ⊢
    rw [hk] at hend
    exact .step hstep hend
  · rw [if_neg hpass] at hstep ⊢
    exact .step hstep (hQ r hr)

/-- **A cut keeps the first outcome.** -/
theorem cut (hset : Line.Stands x.lines a ({ op := .setjump } :: ls)) (h : x.Matches w (a + 1) b f)
    (hfore : Line.Stands x.lines b ({ op := .forejump } :: ls')) :
    x.Matches (w + 3) a (b + 1) fun s => (f s).take 1 := by
  intro s k hk hroom K Q r hr hpos hK hQ
  have hfirst : ((f s).take 1).foldr K Q =
      [s].foldr (fun s Q' => (f s).foldr (fun t _ => K t Q) Q') Q := by
    show _ = (f s).foldr (fun t _ => K t Q) Q
    cases f s <;> rfl
  rw [hfirst]
  have hset := setjump_generates hset k s.pos
  rw [hk] at hset
  refine hset (hroom.mono (by omega)) _ Q r hr hpos ?_ hQ
  intro k₁ r₁ Q₁ hk₁ hmarks₁ hr₁ hQ₁
  -- How an outcome would fail does not matter: its way to fail is dropped with the track.
  refine h ⟨r₁.pos, k₁.groups⟩ k₁ rfl ((hroom.mono (by omega)).after hk₁) _ Q₁ r₁ hr₁ rfl ?_ hQ₁
  intro k₂ r₂ _ hk₂ hmarks₂ hr₂ _
  exact forejump_ends hfore (hroom.mono (by omega)) (hk₁.trans hk₂) (hmarks₂.trans hmarks₁) hr₂
    (hK.mono (by omega)) hQ

/-- **What is forbidden must have no outcome.** -/
theorem prevent (hset : Line.Stands x.lines a ({ op := .setjump } :: ls))
    (hlazy : Line.Stands x.lines (a + 1) ({ op := .lazybranch (b + 1) } :: ls'))
    (h : x.Matches w (a + 3) b f) (hback : Line.Stands x.lines b ({ op := .backjump } :: ms))
    (hfore : Line.Stands x.lines (b + 1) ({ op := .forejump } :: ms')) :
    x.Matches (w + 5) a (b + 2) fun s => if (f s).isEmpty then [s] else [] := by
  intro s k hk hroom K Q r hr hpos hK hQ
  have hempty : (if (f s).isEmpty then [s] else []).foldr K Q =
      [s].foldr (fun s _ => (f s).foldr (fun _ _ => Q) (K s Q)) Q := by
    show _ = (f s).foldr (fun _ _ => Q) (K s Q)
    cases f s <;> rfl
  rw [hempty]
  have hset := setjump_generates hset k s.pos
  rw [hk] at hset
  refine hset (hroom.mono (by omega)) _ Q r hr hpos ?_ hQ
  intro k₁ r₁ _ hk₁ hmarks₁ hr₁ _
  refine lazybranch_ends hlazy hfore hr₁ (Q := K ⟨r₁.pos, k₁.groups⟩ Q) ?_ ?_
  · intro r₂ hr₂ hpos₂
    rw [← hpos₂]
    exact forejump_ends hfore (hroom.mono (by omega)) hk₁ hmarks₁ hr₂ (hK.mono (by omega)) hQ
  · intro k₂ r₂ hk₂ hmarks₂ hgroups₂ hr₂ hpos₂ hQ₂
    have hroom₂ : k₂.Room w := ((hroom.mono (by omega : 1 + (2 + w) ≤ w + 5)).after hk₁).after hk₂
    refine h ⟨r₁.pos, k₁.groups⟩ k₂ hgroups₂ hroom₂ _ _ r₂ hr₂ hpos₂ ?_ hQ₂
    intro k₃ r₃ _ hk₃ hmarks₃ hr₃ _
    exact backjump_ends hback (hroom.mono (by omega)) ((hk₁.trans hk₂).trans hk₃)
      (hmarks₃.trans (hmarks₂.trans hmarks₁)) hr₃ hQ

/-- **A choice has the outcomes of its first way, and then those of its second.** -/
theorem choice {target : Nat} (hlazy : Line.Stands x.lines a ({ op := .lazybranch target } :: ls))
    (h : x.Matches w (a + 2) c f) (hgoto : Line.Stands x.lines c ({ op := .goto b } :: ls'))
    (hb : Line.Stands x.lines b ms) (htarget : Line.Stands x.lines target ms')
    (h' : x.Matches w' target b g) : x.Matches (w + w' + 2) a b fun s => f s ++ g s := by
  intro s k hk hroom K Q r hr hpos hK hQ
  rw [List.foldr_append]
  refine lazybranch_ends hlazy htarget hr (Q := (g s).foldr K Q) ?_ ?_
  · intro r₁ hr₁ hpos₁
    exact h' s k hk (hroom.mono (by omega)) K Q r₁ hr₁ (hpos₁.trans hpos) (hK.mono (by omega)) hQ
  · intro k₁ r₁ hk₁ hmarks₁ hgroups₁ hr₁ hpos₁ hQ₁
    have hroom₁ : k₁.Room w := (hroom.mono (by omega : 2 + w ≤ w + w' + 2)).after hk₁
    refine h s k₁ (hgroups₁.trans hk) hroom₁ K _ r₁ hr₁ (hpos₁.trans hpos) ?_ hQ₁
    intro k₂ r₂ Q₂ hk₂ hmarks₂ hr₂ hQ₂
    refine goto_ends hgoto hb ?_
    exact hK k₂ r₂ Q₂ ((hk₁.trans hk₂).mono (by omega)) (hmarks₂.trans hmarks₁) hr₂ hQ₂

/-- Lines that begin with a mark of the position and end with one that takes it. -/
theorem marked {finish : Outcome → Outcome → Outcome}
    (hset : Line.Stands x.lines a ({ op := .setmark } :: ls)) (h : x.Matches w (a + 1) b f)
    (hfinish : ∀ s t k marks, k.groups = t.groups → k.marks = Word.ofPosition s.pos :: marks →
      x.subject.Inside s.pos → x.Generates 2 b c k t.pos marks [finish s t]) :
    x.Matches (w + 3) a c fun s => (f s).map (finish s) := by
  intro s k hk hroom K Q r hr hpos
  have hinside : x.subject.Inside s.pos := hpos ▸ hr.inside
  have hset := setmark_generates hset k s.pos
  rw [hk] at hset
  have hall : x.Generates (1 + (w + 2)) a c k s.pos k.marks
      ([s].flatMap fun t => (f t).flatMap fun t => [finish s t]) :=
    hset.bind fun t k₁ _ hmarks₁ hgroups₁ => (h t k₁ hgroups₁).bind fun u k₂ _ hmarks₂ hgroups₂ =>
      hfinish s u k₂ k.marks hgroups₂ (hmarks₂.trans hmarks₁) hinside
  rw [List.flatMap_singleton, ← List.map_eq_flatMap] at hall
  exact hall.mono (by omega) hroom K Q r hr hpos

theorem capture {n : Nat} (hn : n ∈ x.tables.numbers)
    (hset : Line.Stands x.lines a ({ op := .setmark } :: ls)) (h : x.Matches w (a + 1) b f)
    (hcapture : Line.Stands x.lines b ({ op := .capturemark (some (x.tables.slot n)) none } :: ls')) :
    x.Matches (w + 3) a (b + 3) fun s =>
      (f s).map fun t => ⟨t.pos, t.groups.record n (interval s.pos t.pos)⟩ := by
  refine marked hset h fun s t k marks hgroups hmarks hinside => ?_
  rw [← hgroups]
  exact capturemark_generates hn hcapture hmarks hinside t.pos

/-- What is required keeps its captures and gives back its position. -/
theorem require (hjump : Line.Stands x.lines a ({ op := .setjump } :: ls))
    (hset : Line.Stands x.lines (a + 1) ({ op := .setmark } :: ls')) (h : x.Matches w (a + 2) b f)
    (hget : Line.Stands x.lines b ({ op := .getmark } :: ms))
    (hfore : Line.Stands x.lines (b + 1) ({ op := .forejump } :: ms')) :
    x.Matches (w + 6) a (b + 2) fun s => ((f s).take 1).map fun t => ⟨s.pos, t.groups⟩ := by
  have hmarked : x.Matches (w + 3) (a + 1) (b + 1) fun s => (f s).map fun t => ⟨s.pos, t.groups⟩ := by
    refine marked hset h fun s t k marks hgroups hmarks hinside => ?_
    rw [← hgroups]
    exact getmark_generates hget hmarks hinside t.pos
  have hcut := cut hjump hmarked hfore
  simp only [← List.map_take] at hcut
  exact hcut

end Matches

end Trial

end PatternCompiler
