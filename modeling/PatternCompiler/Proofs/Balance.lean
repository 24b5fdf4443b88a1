import PatternCompiler.Proofs.Discipline

/-! Trees leave the marks as they were.

The lines of every tree in which only the whole match is group 0 are balanced
(`translate_balanced`). Single operations are told by what they can do without a fault
of the stacks: those that only move or fail (`forward_moves`), repetitions, which give
back or take one character after the other (`giveBack_safe`, `takeMore_safe`), and
captures (`capturemark_safe`). -/
namespace PatternCompiler

/-! ### Faults of reading -/

namespace Runner

variable (r : Runner)

theorem charAt_noUnderflow (i : Nat) : NoUnderflow (r.charAt i) fun _ => True := by
  rw [charAt]
  split
  · trivial
  · rfl

theorem readAhead_noUnderflow (culture : Culture) (o : Operation) (n : Nat) :
    NoUnderflow (r.readAhead culture o n) fun _ => True :=
  (r.charAt_noUnderflow _).map

theorem wordAt_noUnderflow (isWord : Char → Bool) (inside : Bool) (i : Nat) :
    NoUnderflow (r.wordAt isWord inside i) fun _ => True := by
  rw [wordAt]
  split
  · exact (r.charAt_noUnderflow i).map
  · trivial

theorem boundary_noUnderflow (isWord : Char → Bool) (pos : Nat) :
    NoUnderflow (r.boundary isWord pos) fun _ => True :=
  (r.wordAt_noUnderflow isWord _ _).bind fun _ _ =>
    (r.wordAt_noUnderflow isWord _ _).bind fun _ _ => trivial

theorem after_noUnderflow (pos n : Nat) : NoUnderflow (Word.after pos n) fun _ => True := by
  rw [Word.after]
  split
  · trivial
  · rfl

theorem holds_noUnderflow (a : Assertion) : NoUnderflow (r.holds a) fun _ => True := by
  cases a with
  | bol | eol =>
    rw [holds]
    split
    · exact (r.charAt_noUnderflow _).map
    · trivial
  | boundary => exact r.boundary_noUnderflow _ _
  | nonboundary => exact (r.boundary_noUnderflow _ _).map
  | ecmaBoundary => exact r.boundary_noUnderflow _ _
  | nonEcmaBoundary => exact (r.boundary_noUnderflow _ _).map
  | endZ =>
    refine (after_noUnderflow r.pos 1).bind fun next _ => ?_
    split
    · trivial
    · split
      · exact (r.charAt_noUnderflow _).map
      · trivial
  | _ => trivial

end Runner

namespace Routine

variable (m : Routine) (o : Operation) (t : CharTest Nat) (r : Runner)

theorem allPass_noUnderflow (n done : Nat) : NoUnderflow (m.allPass o t r done n) fun _ => True := by
  induction n generalizing done with
  | zero => trivial
  | succ n ih =>
    refine (r.readAhead_noUnderflow _ _ _).bind fun c _ => ?_
    split
    · exact ih (done + 1)
    · trivial

theorem runLength_noUnderflow (limit done : Nat) :
    NoUnderflow (m.runLength o t r done limit) fun n => n ≤ done + limit := by
  induction limit generalizing done with
  | zero => exact Nat.le_refl done
  | succ limit ih =>
    refine (r.readAhead_noUnderflow _ _ _).bind fun c _ => ?_
    split
    · exact (ih (done + 1)).mono fun n hn => by omega
    · exact Nat.le_add_right done (limit + 1)

theorem spells_noUnderflow (cs : List Char) (i : Nat) : NoUnderflow (m.spells o r i cs) fun _ => True := by
  induction cs generalizing i with
  | nil => trivial
  | cons c cs ih =>
    refine (r.charAt_noUnderflow _).map.bind fun d _ => ?_
    split
    · exact ih (i + 1)
    · trivial

theorem sameText_noUnderflow (n i j : Nat) : NoUnderflow (m.sameText o r i j n) fun _ => True := by
  induction n generalizing i j with
  | zero => trivial
  | succ n ih =>
    refine (r.charAt_noUnderflow _).map.bind fun c _ => ?_
    refine (r.charAt_noUnderflow _).map.bind fun d _ => ?_
    split
    · exact ih (i + 1) (j + 1)
    · trivial

end Routine

/-! ### Captures -/

namespace Captures

variable (c : Captures) {slot : Nat}

theorem read_noUnderflow {α : Type} (slot : Nat) (f : CaptureHistory → Option α) :
    NoUnderflow (c.read slot f) fun _ => True := by
  rw [read]
  split
  · trivial
  · rfl

theorem add_noUnderflow (hs : slot ≠ 0) (index length : Nat) :
    NoUnderflow (c.add slot index length) fun c' => c'.count 0 = c.count 0 := by
  rw [add]
  split
  · exact count_modify hs
  · rfl

theorem balance_noUnderflow (hs : slot ≠ 0) :
    NoUnderflow (c.balance slot) fun c' => c'.count 0 = c.count 0 :=
  (c.read_noUnderflow slot _).bind fun _ _ => count_modify hs

end Captures

namespace Runner

variable (r : Runner) {slot : Option Nat}

/-- Other captures than those of slot 0, and the slots in which they are. -/
def Logged (ns : List Nat) (r' : Runner) : Prop :=
  ∃ c : Captures, c.count 0 = r.captures.count 0 ∧ r' = { r with crawl := ns ++ r.crawl, captures := c }

theorem capture_noUnderflow {s : Nat} (hs : s ≠ 0) (a b : Nat) :
    NoUnderflow (r.capture s a b) (r.Logged [s]) :=
  (r.captures.add_noUnderflow hs _ _).bind fun c hc => ⟨c, hc, rfl⟩

theorem transfer_noUnderflow (hslot : ∀ s ∈ slot, s ≠ 0) {u : Nat} (hu : u ≠ 0) (a b : Nat) :
    NoUnderflow (r.transfer slot u a b) (r.Logged (slot.toList ++ [u])) := by
  refine (r.captures.read_noUnderflow u _).bind fun index _ => ?_
  refine (r.captures.read_noUnderflow u _).bind fun length _ => ?_
  refine (after_noUnderflow index length).bind fun finish _ => ?_
  refine (r.captures.balance_noUnderflow hu).bind fun c hc => ?_
  cases slot with
  | none => exact ⟨c, hc, rfl⟩
  | some s =>
    refine (c.add_noUnderflow (hslot s rfl) _ _).bind fun c' hc' => ?_
    exact ⟨c', hc'.trans hc, rfl⟩

end Runner

namespace Routine

variable {m : Routine} {o : Operation} {r : Runner} {slot uncapture : Option Nat} {v : Int} {marks : List Int}

theorem forwardCapturemark_noUnderflow (hslot : ∀ s ∈ slot, s ≠ 0) (hu : ∀ u ∈ uncapture, u ≠ 0)
    (hmarks : r.marks = v :: marks) :
    NoUnderflow (m.forwardCapturemark o slot uncapture r) fun y => y = (.fail, r) ∨
      ∃ c : Captures, c.count 0 = r.captures.count 0 ∧ y = (.following, { r with
        track := (m.tag o false : Int) :: v :: r.track
        marks := marks
        crawl := slot.toList ++ uncapture.toList ++ r.crawl
        captures := c }) := by
  rw [forwardCapturemark, Runner.popMark_cons hmarks]
  split
  · exact .inl rfl
  · have hdone : ∀ r', Runner.Logged { r with marks := marks } (slot.toList ++ uncapture.toList) r' →
        NoUnderflow (.ok (Next.following, m.leave o false (r'.pushTrack v))) fun y => y = (.fail, r) ∨
          ∃ c : Captures, c.count 0 = r.captures.count 0 ∧ y = (.following, { r with
            track := (m.tag o false : Int) :: v :: r.track
            marks := marks
            crawl := slot.toList ++ uncapture.toList ++ r.crawl
            captures := c }) := by
      rintro _ ⟨c, hc, rfl⟩
      exact .inr ⟨c, hc, rfl⟩
    cases uncapture with
    | some u => exact (Runner.transfer_noUnderflow _ hslot (hu u rfl) _ _).bind hdone
    | none =>
      cases slot with
      | some s => exact (Runner.capture_noUnderflow _ (hslot s rfl) _ _).bind hdone
      | none => exact hdone _ ⟨r.captures, rfl, rfl⟩

end Routine

namespace Trial

variable {x : Trial} {Q : Runner → Prop} {n : Nat} {k : Piles} {r : Runner} {marks : List Int} {a b : Nat}
  {l : Line} {o : Operation} {ls ls' : List Line}

theorem capturemark_safe {slot uncapture : Option Nat} {v : Int}
    (hs : Line.Stands x.lines a ({ op := .capturemark slot uncapture } :: ls))
    (hslot : ∀ s ∈ slot, s ≠ 0) (hu : ∀ u ∈ uncapture, u ≠ 0) (hmarks : k.marks = v :: marks)
    (hr : x.Carries k r) (hQ : x.Recovers Q n k) (hP : x.Proceeds Q n (a + 3) k marks) :
    x.routine.Safe Q n (x.state a) r := by
  obtain ⟨o, ho⟩ := x.loaded.lineAt hs
  have hop : o.op = .capturemark slot uncapture := ho.op
  refine .of_forward ho (by rw [hop]; nofun) fun _ => ?_
  simp only [Routine.forward, hop]
  refine (Routine.forwardCapturemark_noUnderflow hslot hu (hr.marks.trans hmarks)).mono ?_
  rintro _ (rfl | ⟨c, hc, rfl⟩) j hj
  · exact (hQ.mono (Nat.le_of_lt hj)) r hr
  · have hslots : 0 ∉ slot.toList ++ uncapture.toList ++ k.crawl := by
      simp only [List.mem_append, Option.mem_toList, not_or]
      exact ⟨⟨fun h => hslot 0 h rfl, fun h => hu 0 h rfl⟩, hr.slots⟩
    refine hP j (Nat.le_of_lt hj) ⟨(x.routine.tag o false : Int) :: v :: k.track, marks,
      slot.toList ++ uncapture.toList ++ k.crawl⟩ _ ⟨⟨[_, _], rfl⟩, _, rfl⟩ rfl
      { hr with
        track := congrArg _ (congrArg _ hr.track), marks := rfl, crawl := congrArg _ hr.crawl
        uncaptured := hc.trans hr.uncaptured, slots := hslots } ?_
    intro r₁ hr₁
    have hlength : (slot.toList ++ uncapture.toList).length = slot.isSome.toNat + uncapture.isSome.toNat := by
      cases slot <;> cases uncapture <;> rfl
    have hundone := Routine.resume_capturemark (m := x.routine) (r := { r₁ with track := v :: k.track }) hop
      rfl _ hlength hr₁.crawl
    refine .of_resume ho (by rw [hop]; exact List.mem_singleton_self false) hr₁.track hundone fun i hi => ?_
    have hback := hr₁.undo (k := k) rfl
    refine (hQ.mono (by omega)) _ { hback with marks := ?_ }
    rw [hmarks]
    exact congrArg _ hr₁.marks

theorem Balanced.capture {slot uncapture : Option Nat}
    (hset : Line.Stands x.lines a ({ op := .setmark } :: ls)) (h : x.Balanced Q (a + 1) b)
    (hcapture : Line.Stands x.lines b ({ op := .capturemark slot uncapture } :: ls'))
    (hslot : ∀ s ∈ slot, s ≠ 0) (hu : ∀ u ∈ uncapture, u ≠ 0) : x.Balanced Q a (b + 3) := by
  intro n k r hr hQ hP
  refine setmark_safe hset hr hQ fun k₁ r₁ hk₁ hmarks₁ hr₁ hQ₁ => ?_
  refine h n k₁ r₁ hr₁ hQ₁ fun j hj k₂ r₂ hk₂ hmarks₂ hr₂ hQ₂ => ?_
  exact capturemark_safe hcapture hslot hu (hmarks₂.trans hmarks₁) hr₂ hQ₂
    ((hP.mono hj).after (hk₁.trans hk₂))

end Trial

/-! ### Leaves without a choice -/

/-- The operations that fail or move, and leave the stacks alone. -/
def Op.moves : Op → Bool
  | .rep _ _ => true
  | .test _ => true
  | .multi _ => true
  | .ref _ => true
  | .assertion _ => true
  | .nothing => true
  | .testref _ => true
  | _ => false

/-- The number of characters ahead of a position. -/
def Subject.room (x : Subject) (rightToLeft : Bool) (pos : Nat) : Nat :=
  if rightToLeft then pos - x.beg else x.finish - pos

/-- A group other than the whole match. -/
def Node.Inner : Node → Prop
  | .wrap _ (.capture number uncapture) _ => (∀ n ∈ number, n ≠ 0) ∧ ∀ n ∈ uncapture, n ≠ 0
  | _ => True

namespace Trial

variable {x : Trial} {Q : Runner → Prop} {n : Nat} {k : Piles} {r : Runner} {a : Nat}
  {l : Line} {o : Operation} {ls : List Line}

variable (x) in
/-- A runner fails, or moves inside the bounds. -/
def Moves (r : Runner) (y : Next × Runner) : Prop :=
  y = (.fail, r) ∨ ∃ pos, x.subject.Inside pos ∧ y = (.following, { r with pos := pos })

namespace Carries

theorem available (hr : x.Carries k r) (o : Operation) :
    r.available o = .ok (x.subject.room o.rightToLeft r.pos) := by
  obtain ⟨hbeg, hfinish⟩ := hr.inside
  rw [Runner.available, Subject.room, hr.beg, hr.finish]
  cases o.rightToLeft with
  | false => exact if_neg (Nat.not_lt.mpr hfinish)
  | true => exact if_neg (Nat.not_lt.mpr hbeg)

theorem inside_ahead (hr : x.Carries k r) {i : Nat} (hi : i ≤ x.subject.room o.rightToLeft r.pos) :
    x.subject.Inside (r.ahead o i) := by
  obtain ⟨hbeg, hfinish⟩ := hr.inside
  unfold Subject.room at hi
  unfold Runner.ahead Subject.Inside
  split
  · rw [if_pos ‹_›] at hi
    omega
  · rw [if_neg ‹_›] at hi
    omega

theorem inside_next (hr : x.Carries k r) (h : r.hasNext o = true) : x.subject.Inside (r.ahead o 1) := by
  refine hr.inside_ahead ?_
  unfold Runner.hasNext at h
  unfold Subject.room
  rw [← hr.beg, ← hr.finish]
  cases hdir : o.rightToLeft with
  | false =>
    rw [hdir] at h
    have := of_decide_eq_true h
    rw [if_neg Bool.false_ne_true]
    omega
  | true =>
    rw [hdir] at h
    have := of_decide_eq_true h
    rw [if_pos rfl]
    omega

theorem take_moves (hr : x.Carries k r) (count : Nat) {right : Unit → Except Fault Bool}
    (hright : NoUnderflow (right ()) fun _ => True) : NoUnderflow (Routine.take o r count right) (x.Moves r) := by
  rw [Routine.take, hr.available o]
  show NoUnderflow (if _ < count then _ else _) _
  split
  · exact .inl rfl
  · refine hright.bind fun b _ => ?_
    split
    · exact .inr ⟨_, hr.inside_ahead (by omega), rfl⟩
    · exact .inl rfl

theorem ref_moves (hr : x.Carries k r) (o : Operation) (slot : Nat) :
    NoUnderflow (x.routine.forwardRef o slot r) (x.Moves r) := by
  rw [Routine.forwardRef]
  split
  · refine (r.captures.read_noUnderflow slot _).bind fun index _ => ?_
    refine (r.captures.read_noUnderflow slot _).bind fun length _ => ?_
    exact hr.take_moves length (x.routine.sameText_noUnderflow o r _ _ _)
  · split
    · exact .inr ⟨r.pos, hr.inside, rfl⟩
    · exact .inl rfl

theorem test_moves (hr : x.Carries k r) (o : Operation) (t : CharTest Nat) :
    NoUnderflow (x.routine.forwardTest o t r) (x.Moves r) := by
  rw [Routine.forwardTest]
  split
  · exact .inl rfl
  · rename_i hnext
    refine (r.readAhead_noUnderflow _ o 0).bind fun c _ => ?_
    split
    · exact .inr ⟨_, hr.inside_next (by simpa using hnext), rfl⟩
    · exact .inl rfl

theorem forward_moves (hr : x.Carries k r) (hop : o.op.moves = true) :
    NoUnderflow (x.routine.forward o r) (x.Moves r) := by
  have hstay : ∀ b : Bool, x.Moves r (if b then .following else .fail, r) := by
    intro b
    cases b with
    | false => exact .inl rfl
    | true => exact .inr ⟨r.pos, hr.inside, rfl⟩
  unfold Routine.forward
  cases h : o.op <;> rw [h] at hop <;> try cases hop
  case rep t count => exact hr.take_moves count (x.routine.allPass_noUnderflow o t r count 0)
  case test t => exact hr.test_moves o t
  case multi i => exact hr.take_moves _ (x.routine.spells_noUnderflow o r _ _)
  case ref slot => exact hr.ref_moves o slot
  case assertion c => exact (r.holds_noUnderflow c).bind fun b _ => hstay b
  case nothing => exact .inl rfl
  case testref slot => exact hstay (r.isMatched slot)

end Carries

theorem Balanced.of_moves (hs : Line.Stands x.lines a (l :: ls)) (hl : l.op.moves = true) :
    x.Balanced Q a (a + l.size) := by
  obtain ⟨o, ho⟩ := x.loaded.lineAt hs
  have hmoves : o.op.moves = true := by
    rw [ho.op, ← hl]
    cases l.op <;> rfl
  have hop : o.op ≠ .stop := by
    intro hstop
    rw [hstop] at hmoves
    cases hmoves
  intro n k r hr hQ hP
  refine .of_forward ho hop fun _ => (hr.forward_moves hmoves).mono ?_
  rintro _ (rfl | ⟨pos, hpos, rfl⟩) j hj
  · exact (hQ.mono (Nat.le_of_lt hj)) r hr
  · exact hP j (Nat.le_of_lt hj) k _ (.refl k) rfl { hr with inside := hpos } (hQ.mono (Nat.le_of_lt hj))

/-! ### Repetitions -/

section Spans

variable {t : CharTest Nat} {max : Nat}

/-- The position one character back, where there is one. -/
theorem Carries.inside_back (hr : x.Carries k r) {i : Nat} (hi : i + 1 ≤ x.subject.room (!o.rightToLeft) r.pos) :
    ∃ back, r.steppedBack o = Word.ofPosition back ∧ x.subject.Inside back ∧
      i ≤ x.subject.room (!o.rightToLeft) back := by
  obtain ⟨hbeg, hfinish⟩ := hr.inside
  refine ⟨if o.rightToLeft then r.pos + 1 else r.pos - 1, rfl, ?_⟩
  unfold Subject.room at hi ⊢
  unfold Subject.Inside
  cases hdir : o.rightToLeft <;> simp only [hdir, Bool.not_false, Bool.not_true, Bool.false_eq_true, if_true,
    if_false] at hi ⊢ <;> omega

/-- The characters that were taken are behind. -/
theorem Carries.room_behind (hr : x.Carries k r) {i : Nat} (hi : i ≤ x.subject.room o.rightToLeft r.pos) :
    i ≤ x.subject.room (!o.rightToLeft) (r.ahead o i) := by
  obtain ⟨hbeg, hfinish⟩ := hr.inside
  unfold Subject.room at hi ⊢
  unfold Runner.ahead
  cases hdir : o.rightToLeft <;> simp only [hdir, Bool.not_false, Bool.not_true, Bool.false_eq_true, if_true,
    if_false] at hi ⊢ <;> omega

/-- What a repetition leaves to be resumed with. -/
theorem Carries.leave_span (hr : x.Carries k r) (o : Operation) (left p : Int) :
    x.Carries ⟨(x.routine.tag o false : Int) :: p :: left :: k.track, k.marks, k.crawl⟩
      (x.routine.leave o false (r.pushTrack2 left p)) := by
  refine { hr with track := ?_ }
  show _ :: _ :: _ :: r.track = _
  rw [hr.track]

/-- A greedy repetition gives back one character after the other. -/
theorem giveBack_safe (ho : x.routine.LineAt x.lines a l o) (hop : o.op = .span false t max)
    (hQ : x.Recovers Q n k) (hP : x.Proceeds Q n (a + l.size) k k.marks) (hr : x.Carries k r) {i : Nat}
    (hi : i ≤ x.subject.room (!o.rightToLeft) r.pos) :
    x.routine.Safe Q n (x.state (a + l.size)) (x.routine.giveBack o i r) := by
  induction i generalizing n r with
  | zero => exact hP n (Nat.le_refl n) k r (.refl k) rfl hr hQ
  | succ i ih =>
    obtain ⟨back, hback, hinside, hroom⟩ := hr.inside_back hi
    have hleft : ((i + 1 : Nat) : Int) - 1 = i := by omega
    rw [Routine.giveBack, if_pos (Nat.succ_pos i), hleft, hback]
    refine hP n (Nat.le_refl n) _ _ (.of_track k [_, _, _] k.marks) rfl (hr.leave_span o _ _) fun r₁ hr₁ => ?_
    have hresume := Routine.resume_span (m := x.routine)
      (r := { r₁ with track := Word.ofPosition back :: (i : Int) :: k.track }) hop rfl
    rw [Word.position_ofPosition (x.subject.lt_modulus hinside)] at hresume
    refine .of_resume ho (by rw [hop]; exact List.mem_singleton_self false) hr₁.track hresume fun j hj => ?_
    rw [Routine.leads, ho.next]
    exact ih (hQ.mono (Nat.le_of_lt hj)) (hP.mono (Nat.le_of_lt hj))
      { hr₁ with track := rfl, inside := hinside } hroom

/-- A lazy repetition takes one character after the other. -/
theorem takeMore_safe (ho : x.routine.LineAt x.lines a l o) (hop : o.op = .span true t max)
    (hQ : x.Recovers Q n k) (hP : x.Proceeds Q n (a + l.size) k k.marks) (hr : x.Carries k r) {left : Nat}
    (hleft : left ≤ x.subject.room o.rightToLeft r.pos) :
    x.routine.Safe Q n (x.state (a + l.size)) (x.routine.takeMore o left r) := by
  induction left generalizing n r with
  | zero => exact hP n (Nat.le_refl n) k r (.refl k) rfl hr hQ
  | succ left ih =>
    have hless : ((left + 1 : Nat) : Int) - 1 = left := by omega
    rw [Routine.takeMore, if_pos (Nat.succ_pos left), hless]
    refine hP n (Nat.le_refl n) _ _ (.of_track k [_, _, _] k.marks) rfl (hr.leave_span o _ _) fun r₁ hr₁ => ?_
    refine .of_resumption ho (by rw [hop]; exact List.mem_singleton_self false) hr₁.track ?_
    rw [Routine.resume_lazySpan hop rfl, hr.position_here]
    have hr₂ : x.Carries k { r₁ with pos := r.pos, track := k.track } :=
      { hr₁ with track := rfl, inside := hr.inside }
    refine (Runner.readAhead_noUnderflow _ _ o 0).bind fun c _ => ?_
    split
    · intro j hj
      rw [Routine.leads, ho.next]
      refine ih (hQ.mono (Nat.le_of_lt hj)) (hP.mono (Nat.le_of_lt hj))
        { hr₂ with inside := hr₂.inside_ahead (o := o) (Nat.le_trans (Nat.le_add_left 1 left) hleft) } ?_
      show left ≤ x.subject.room o.rightToLeft (Runner.ahead _ o 1)
      unfold Subject.room at hleft ⊢
      unfold Runner.ahead
      split <;> simp_all <;> omega
    · exact fun j hj => (hQ.mono (Nat.le_of_lt hj)) _ hr₂

theorem Carries.spanLimit (hr : x.Carries k r) (o : Operation) (max : Nat) :
    ∃ limit, Routine.spanLimit o r max = .ok limit ∧ limit ≤ x.subject.room o.rightToLeft r.pos := by
  refine ⟨_, by rw [Routine.spanLimit, hr.available o]; rfl, ?_⟩
  split
  · exact Nat.le_refl _
  · exact Nat.min_le_left _ _

theorem Balanced.of_span {lazy : Bool} (hs : Line.Stands x.lines a (l :: ls)) (hl : l.op = .span lazy t max) :
    x.Balanced Q a (a + l.size) := by
  obtain ⟨o, ho⟩ := x.loaded.lineAt hs
  have hop : o.op = .span lazy t max := by
    rw [ho.op, hl]
    rfl
  intro n k r hr hQ hP
  obtain ⟨limit, hlimit, hroom⟩ := hr.spanLimit o max
  refine .of_forward ho (by rw [hop]; nofun) fun _ => ?_
  simp only [Routine.forward, hop, Routine.forwardSpan, hlimit]
  cases lazy with
  | true =>
    have hmore : (if 0 < limit then
          Except.ok (Next.following, x.routine.leave o false (r.pushTrack2 ((limit : Int) - 1) r.here))
        else .ok (.following, r) : Except Fault (Next × Runner)) =
        .ok (.following, x.routine.takeMore o limit r) := by
      rw [Routine.takeMore]
      split <;> rfl
    show NoUnderflow (if 0 < limit then _ else _) _
    rw [hmore]
    exact fun j hj => takeMore_safe ho hop (hQ.mono (Nat.le_of_lt hj)) (hP.mono (Nat.le_of_lt hj)) hr hroom
  | false =>
    refine (x.routine.runLength_noUnderflow o t r limit 0).bind fun i hi => ?_
    have hback : (if 0 < i then Except.ok (Next.following, x.routine.leave o false
          ((r.advance o i).pushTrack2 ((i : Int) - 1) ((r.advance o i).steppedBack o)))
        else .ok (.following, r.advance o i) : Except Fault (Next × Runner)) =
        .ok (.following, x.routine.giveBack o i (r.advance o i)) := by
      rw [Routine.giveBack]
      split <;> rfl
    show NoUnderflow (if 0 < i then _ else _) _
    rw [hback]
    have hi' : i ≤ x.subject.room o.rightToLeft r.pos := Nat.le_trans (Nat.zero_add limit ▸ hi) hroom
    have hr' : x.Carries k (r.advance o i) := { hr with inside := hr.inside_ahead hi' }
    exact fun j hj => giveBack_safe ho hop (hQ.mono (Nat.le_of_lt hj)) (hP.mono (Nat.le_of_lt hj)) hr'
      (hr.room_behind hi')

end Spans

/-! ### Trees -/

variable {t : CharTest Nat} {n' : Node} {ns : List Node}

variable (x) in
/-- The lines of a tree, wherever they stand, leave the marks as they were. -/
def Balances (Q : Runner → Prop) (n : Node) : Prop :=
  ∀ a, Line.Stands x.lines a (x.tables.translate a n) →
    x.Balanced Q a (a + Line.extent (x.tables.translate a n))

theorem Balanced.optional {c : Prop} [Decidable c] (hs : Line.Stands x.lines a (if c then ls else []))
    (h : Line.Stands x.lines a ls → x.Balanced Q a (a + Line.extent ls)) :
    x.Balanced Q a (a + Line.extent (if c then ls else [])) := by
  by_cases hc : c
  · rw [if_pos hc] at hs ⊢
    exact h hs
  · rw [if_neg hc]
    exact .nil a

theorem Balanced.of_eq {b c : Nat} (h : x.Balanced Q a b) (hb : b = c) : x.Balanced Q a c := hb ▸ h

theorem leafLines_balanced (o : Options) (l : Leaf) (hs : Line.Stands x.lines a (x.tables.leafLines o l)) :
    x.Balanced Q a (a + Line.extent (x.tables.leafLines o l)) := by
  cases l with
  | span lazy c min max =>
    rw [Tables.leafLines] at hs ⊢
    rw [Line.extent_append, ← Nat.add_assoc]
    exact (Balanced.optional hs.left fun h => .of_moves h rfl).append
      (.optional hs.right fun h => .of_span h rfl)
  | empty => exact .nil a
  | _ => exact .of_moves hs rfl

theorem sequence_balanced (ih : ∀ n ∈ ns, x.Balances Q n) (a : Nat)
    (hs : Line.Stands x.lines a (x.tables.sequence a ns)) :
    x.Balanced Q a (a + Line.extent (x.tables.sequence a ns)) := by
  induction ns generalizing a with
  | nil => exact .nil a
  | cons n ns hns =>
    have hfirst := ih n (List.mem_cons_self ..) a hs.left
    have hrest := hns (fun m hm => ih m (List.mem_cons_of_mem n hm)) _ hs.right
    rw [Tables.sequence, Line.extent_append, ← Nat.add_assoc]
    exact hfirst.append hrest

theorem alternatives_balanced (ih : ∀ n ∈ ns, x.Balances Q n) {a finish : Nat}
    (hs : Line.Stands x.lines a (x.tables.alternatives a finish ns))
    (hfinish : finish = a + Line.extent (x.tables.alternatives a finish ns))
    (hend : Line.Stands x.lines finish []) : x.Balanced Q a finish := by
  induction ns generalizing a with
  | nil =>
    rw [Tables.alternatives, Line.extent_nil] at hfinish
    exact hfinish ▸ .nil a
  | cons n ns hns =>
    cases ns with
    | nil =>
      rw [Tables.alternatives] at hs hfinish
      rw [hfinish]
      exact ih n (List.mem_cons_self ..) a hs
    | cons m ns =>
      rw [Tables.alternatives] at hs hfinish
      have hfirst := ih n (List.mem_cons_self ..) (a + 2) hs.tail.left
      have hgoto := hs.tail.right
      have hrest := hns (fun k hk => ih k (List.mem_cons_of_mem n hk)) hgoto.tail ?_
      · exact Balanced.choice hs hfirst hgoto hend hgoto.tail hrest
      · simp only [Line.extent_append, Line.extent_cons, Line.size_lazybranch, Line.size_goto] at hfinish ⊢
        omega

/-- The number of marks that a loop has while it runs. -/
def loopMarks (min max : Nat) : Nat := if Draft.counts min max then 2 else 1

theorem loopTest_tests {lazy : Bool} {min max body : Nat} {ls' : List Line}
    (hs : Line.Stands x.lines a (loopTest lazy min max body :: ls))
    (hstands : Line.Stands x.lines body ls') (hbody : x.Balanced Q body a) :
    x.Tests Q a (a + (loopTest lazy min max body).size) (loopMarks min max) := by
  unfold loopMarks
  unfold loopTest at hs ⊢
  split at hs
  · rw [if_pos ‹_›, if_pos ‹_›]
    cases lazy with
    | false => exact branchcount_tests hs hstands hbody
    | true => exact lazyBranchcount_tests hs hstands hbody
  · rw [if_neg ‹_›, if_neg ‹_›]
    cases lazy with
    | false => exact branchmark_tests hs hstands hbody
    | true => exact lazyBranchmark_tests hs hstands hbody

/-- A loop that need not make a round puts the same marks on top wherever it begins. -/
theorem opened_loopHead_zero (max : Nat) : ∃ vs, vs.length = loopMarks 0 max ∧
    ∀ f r, Routine.opened r ((loopHead 0 max).op.retarget f) = some vs := by
  unfold loopHead loopMarks
  split
  · exact ⟨[0, -1], rfl, fun _ _ => rfl⟩
  · exact ⟨[-1], rfl, fun _ _ => rfl⟩

theorem Carries.opened_loopHead (hr : x.Carries k r) {min : Nat} (hmin : min ≠ 0) (max : Nat) (f : Nat → Nat) :
    ∃ vs, Routine.opened r ((loopHead min max).op.retarget f) = some vs ∧ vs.length = loopMarks min max ∧
      vs ≠ [-1] := by
  unfold loopHead loopMarks
  rw [if_neg hmin, if_neg hmin]
  split
  · exact ⟨_, rfl, rfl, by simp⟩
  · exact ⟨_, rfl, rfl, hr.here_ne_first⟩

theorem loop_balances (o : Options) (lazy : Bool) (min max : Nat) (ih : x.Balances Q n') :
    x.Balances Q (.wrap o (.loop lazy min max) n') := by
  intro a hs
  obtain ⟨op, hop⟩ := x.loaded.lineAt hs
  by_cases hmin : min = 0
  · subst hmin
    have hbody := hs.tail.tail.left
    have htest := hs.tail.tail.right
    obtain ⟨vs, hvs, hopened⟩ := opened_loopHead_zero max
    have htests := loopTest_tests htest hbody (ih _ hbody)
    refine (Balanced.loop_from_test hop (fun r => hop.op ▸ hopened _ r) hvs hs.tail htest htests).of_eq ?_
    simp [Tables.translate]
    omega
  · have hlines : x.tables.translate a (.wrap o (.loop lazy min max) n') =
        loopHead min max :: x.tables.translate (a + (loopHead min max).size) n' ++
          [loopTest lazy min max (a + (loopHead min max).size)] := by
      simp [Tables.translate, hmin]
    rw [hlines] at hs ⊢
    have hbody := hs.tail.left
    have htests := loopTest_tests hs.tail.right hbody (ih _ hbody)
    refine (Balanced.loop hop (fun k r hr => hop.op ▸ hr.opened_loopHead hmin max _) (ih _ hbody)
      htests).of_eq ?_
    simp
    omega

theorem slot_ne_zero (hroot : x.tables.numbers.head? = some 0) {g : Nat} (hg : g ≠ 0) :
    x.tables.slot g ≠ 0 := by
  obtain ⟨rest, hrest⟩ := List.head?_eq_some_iff.mp hroot
  rw [Tables.slot, capped, hrest, List.idxOf_cons_ne _ (Ne.symm hg), unbounded]
  omega

theorem wrap_balances {o : Options} {w : Wrap} (hroot : x.tables.numbers.head? = some 0)
    (hw : (Node.wrap o w n').Inner) (ih : x.Balances Q n') : x.Balances Q (.wrap o w n') := by
  intro a hs
  cases w with
  | loop lazy min max => exact loop_balances o lazy min max ih a hs
  | capture number uncapture =>
    have hslots : ∀ {slot : Option Nat}, (∀ g ∈ slot, g ≠ 0) → ∀ s ∈ slot.map x.tables.slot, s ≠ 0 := by
      intro slot hslot s hs
      obtain ⟨g, hg, rfl⟩ := Option.map_eq_some_iff.mp hs
      exact slot_ne_zero hroot (hslot g hg)
    refine (Balanced.capture hs (ih (a + 1) hs.tail.left) hs.tail.right (hslots hw.1) (hslots hw.2)).of_eq ?_
    simp [Tables.translate, Line.size_eq, Op.operands]
    omega
  | require =>
    have hget := hs.tail.tail.right
    refine (Balanced.require hs hs.tail (ih (a + 2) hs.tail.tail.left) hget hget.tail).of_eq ?_
    simp [Tables.translate, Line.size_eq, Op.operands]
    omega
  | prevent =>
    have hback := hs.tail.tail.right
    refine (Balanced.prevent hs hs.tail (ih (a + 3) hs.tail.tail.left) hback hback.tail).of_eq ?_
    simp [Tables.translate, Line.size_eq, Op.operands]
    omega
  | greedy =>
    refine (Balanced.cut hs (ih (a + 1) hs.tail.left) hs.tail.right).of_eq ?_
    simp [Tables.translate, Line.size_eq, Op.operands]
    omega

theorem testref_balances {o : Options} {g : Nat} {yes : Node} {no : List Node} (hyes : x.Balances Q yes)
    (hno : ∀ n ∈ no, x.Balances Q n) : x.Balances Q (.many o (.testref g) (yes :: no)) := by
  intro a hs
  have hjump := hs.left.left.left
  have hgoto := hs.left.right
  have hother := hs.right
  rw [Line.extent_append, ← Nat.add_assoc] at hgoto
  rw [Line.extent_append, Line.extent_append, ← Nat.add_assoc, ← Nat.add_assoc] at hother
  have htest : x.Balanced Q (a + 3) (a + 5) := .of_moves hjump.tail.tail rfl
  have hfirst := hyes (a + 6) hs.left.left.right
  have hsecond := sequence_balanced hno _ hother
  refine (Balanced.testref hjump hjump.tail htest hfirst hjump.tail.tail.tail hgoto hgoto.tail hsecond
    hother.finish).of_eq ?_
  simp [Tables.translate, Line.size_eq, Op.operands]
  omega

theorem testgroup_balances {o : Options} {condition yes : Node} {no : List Node}
    (hcondition : x.Balances Q condition) (hyes : x.Balances Q yes) (hno : ∀ n ∈ no, x.Balances Q n) :
    x.Balances Q (.many o .testgroup (condition :: yes :: no)) := by
  intro a hs
  have hjump := hs.left.left.left.left.left
  have hget := hs.left.left.left.right
  have hthen := hs.left.left.right
  have hgoto := hs.left.right
  have hother := hs.right
  simp only [Line.extent_append, ← Nat.add_assoc] at hget hthen hgoto hother
  have htest := hcondition (a + 4) hs.left.left.left.left.right
  have hfirst := hyes _ hthen
  have hsecond := sequence_balanced hno _ hother
  refine (Balanced.testgroup hjump hjump.tail hjump.tail.tail htest hfirst hget hget.tail hgoto hgoto.tail
    hgoto.tail.tail hsecond hother.finish).of_eq ?_
  simp [Tables.translate, Line.size_eq, Op.operands]
  omega

theorem many_balances {o : Options} {m : Many} (ih : ∀ n ∈ ns, x.Balances Q n) :
    x.Balances Q (.many o m ns) := by
  intro a hs
  cases m with
  | alternate =>
    have hfinish : a + Line.extent (x.tables.alternatives a 0 ns) =
        a + Line.extent (x.tables.translate a (.many o .alternate ns)) :=
      congrArg (a + ·) (Draft.extent_alternatives x.tables a 0 _ ns)
    exact (alternatives_balanced ih hs hfinish (hfinish ▸ hs.finish)).of_eq hfinish
  | concatenate | group => exact sequence_balanced ih a hs
  | testref g =>
    cases ns with
    | nil => exact .nil a
    | cons yes no =>
      exact testref_balances (ih yes (List.mem_cons_self ..)) (fun n hn => ih n (List.mem_cons_of_mem yes hn)) a hs
  | testgroup =>
    match ns, ih, hs with
    | [], _, _ => exact .nil a
    | [_], _, _ => exact .nil a
    | condition :: yes :: no, ih, hs =>
      exact testgroup_balances (ih condition (by simp)) (ih yes (by simp))
        (fun n hn => ih n (by simp [hn])) a hs

/-- **The lines of a tree leave the marks as they were.** -/
theorem translate_balanced (n : Node) (hroot : x.tables.numbers.head? = some 0)
    (hinner : n.Everywhere Node.Inner) : x.Balances Q n := by
  induction n with
  | leaf o l => exact fun a hs => leafLines_balanced o l hs
  | wrap o w n ih =>
    obtain ⟨hw, hn⟩ := Node.everywhere_wrap.mp hinner
    exact wrap_balances hroot hw (ih hn)
  | many o m ns ih => exact many_balances fun n hn => ih n hn ((Node.everywhere_many.mp hinner).2 n hn)

end Trial

end PatternCompiler
