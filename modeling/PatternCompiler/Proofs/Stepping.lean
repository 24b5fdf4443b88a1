import PatternCompiler.Proofs.Decoding
import PatternCompiler.Search.Machine

/-! Running the lines of a program.

A routine is `Loaded` with lines when its operations are these lines. `Line.state L a`
is the state before the line at offset `a`, and `Line.Stands L a ls` says that the lines
`ls` begin there and that more lines follow. `Routine.LineAt` is all that a proof about
one line needs: what a step does at its place, what a step does when its tag is on top
of the track, and where the next line is. -/
namespace PatternCompiler

/-! ### Places -/

namespace Line

/-- The state before the line at an offset. -/
def state (L : List Line) (a : Nat) : MachineState := .running ((offsets 0 L).idxOf a)

/-- The operation of the line that comes after `before`. -/
def operation (L before : List Line) (l : Line) : Operation :=
  ⟨before.length, extent before, l.op.retarget ((offsets 0 L).idxOf ·), l.rightToLeft, l.ignoreCase⟩

theorem size_pos (l : Line) : 0 < l.size := by
  rw [size, Opcode.size]
  omega

theorem offsets_length (a : Nat) (ls : List Line) : (offsets a ls).length = ls.length := by
  induction ls generalizing a with
  | nil => rfl
  | cons l ls ih => rw [offsets, List.length_cons, List.length_cons, ih]

theorem mem_offsets_split (a : Nat) (before : List Line) (l : Line) (after : List Line) :
    a + extent before ∈ offsets a (before ++ l :: after) := by
  rw [offsets_append]
  exact List.mem_append_right _ (List.mem_cons_self ..)

/-- A line's number is the number of lines before it. -/
theorem idxOf_offsets (a : Nat) (before : List Line) (l : Line) (after : List Line) :
    (offsets a (before ++ l :: after)).idxOf (a + extent before) = before.length := by
  induction before generalizing a with
  | nil => exact List.idxOf_cons_self
  | cons x before ih =>
    have hne : a ≠ a + extent (x :: before) := by
      have := x.size_pos
      rw [extent_cons]
      omega
    rw [List.cons_append, offsets, List.idxOf_cons_ne _ hne, extent_cons, ← Nat.add_assoc, ih,
      List.length_cons]

theorem operations_length (f : Nat → Nat) (id a : Nat) (ls : List Line) :
    (operations f id a ls).length = ls.length := by
  induction ls generalizing id a with
  | nil => rfl
  | cons l ls ih => rw [operations, List.length_cons, List.length_cons, ih]

theorem operations_append (f : Nat → Nat) (id a : Nat) (ls ms : List Line) :
    operations f id a (ls ++ ms) =
      operations f id a ls ++ operations f (id + ls.length) (a + extent ls) ms := by
  induction ls generalizing id a with
  | nil => simp [operations]
  | cons l ls ih =>
    simp only [List.cons_append, operations, ih, List.length_cons, extent_cons]
    rw [Nat.add_assoc id, Nat.add_comm 1, Nat.add_assoc a]

section Split

variable {L before after : List Line} {l l' : Line}

theorem idxOf_extent (hL : L = before ++ l :: after) :
    (offsets 0 L).idxOf (extent before) = before.length := by
  rw [hL, ← Nat.zero_add (extent before), idxOf_offsets]

theorem state_extent (hL : L = before ++ l :: after) :
    state L (extent before) = .running before.length := by
  rw [state, idxOf_extent hL]

theorem split_following (hL : L = before ++ l :: l' :: after) : L = (before ++ [l]) ++ l' :: after := by
  rw [hL, List.append_assoc]
  rfl

theorem state_following (hL : L = before ++ l :: l' :: after) :
    state L (extent before + l.size) = .running (before.length + 1) := by
  have hstate := state_extent (split_following hL)
  rwa [extent_append, extent_cons, extent_nil, Nat.add_zero, List.length_append,
    List.length_singleton] at hstate

end Split

/-- Lines begin at an offset, and more follow. -/
def Stands (L : List Line) (a : Nat) (ls : List Line) : Prop :=
  ∃ before after, L = before ++ ls ++ after ∧ after ≠ [] ∧ extent before = a

namespace Stands

variable {L ls ms : List Line} {a : Nat} {l : Line}

theorem left (h : Stands L a (ls ++ ms)) : Stands L a ls := by
  obtain ⟨before, after, hL, hafter, ha⟩ := h
  refine ⟨before, ms ++ after, by rw [hL]; simp only [List.append_assoc], ?_, ha⟩
  exact List.append_ne_nil_of_right_ne_nil _ hafter

theorem right (h : Stands L a (ls ++ ms)) : Stands L (a + extent ls) ms := by
  obtain ⟨before, after, hL, hafter, ha⟩ := h
  exact ⟨before ++ ls, after, by rw [hL]; simp only [List.append_assoc], hafter, by
    rw [extent_append, ha]⟩

theorem tail (h : Stands L a (l :: ls)) : Stands L (a + l.size) ls := by
  have htail := right (show Stands L a ([l] ++ ls) from h)
  rwa [extent_cons, extent_nil, Nat.add_zero] at htail

theorem finish (h : Stands L a ls) : Stands L (a + extent ls) [] := by
  rw [← List.append_nil ls] at h
  exact h.right

/-- There is a line at the offset. -/
theorem exists_line (h : Stands L a ls) :
    ∃ before l after, L = before ++ l :: after ∧ extent before = a := by
  obtain ⟨before, after, hL, hafter, ha⟩ := h
  obtain ⟨l, rest, hrest⟩ := List.exists_cons_of_ne_nil (List.append_ne_nil_of_right_ne_nil ls hafter)
  exact ⟨before, l, rest, by rw [hL, List.append_assoc, hrest], ha⟩

end Stands

end Line

/-! ### Tags -/

namespace Routine

theorem firstTagsFrom_get (next : Nat) (before : List Operation) (o : Operation)
    (after : List Operation) :
    (firstTagsFrom next (before ++ o :: after))[before.length]? =
      some (next + (resumptionsOf before).length) := by
  induction before generalizing next with
  | nil => rfl
  | cons x before ih =>
    rw [List.cons_append, firstTagsFrom, List.length_cons, List.getElem?_cons_succ, ih]
    simp only [resumptionsOf, List.flatMap_cons, List.length_append, List.length_map, Nat.add_assoc]

/-- The tag of a resumption leads back to it. -/
theorem resumptions_tag {m : Routine} {before after : List Operation} {o : Operation}
    (hresumptions : m.resumptions = (resumptionsOf (before ++ o :: after)).toArray)
    (htags : m.firstTags = (firstTagsFrom 0 (before ++ o :: after)).toArray)
    (hid : o.id = before.length) {secondary : Bool} (hs : secondary ∈ o.op.resumptions) :
    m.resumptions[m.tag o secondary]? = some ⟨o.id, secondary⟩ := by
  have hfirst : m.firstTags.getD o.id 0 = (resumptionsOf before).length := by
    rw [htags, hid, Array.getD_eq_getD_getElem?, List.getElem?_toArray, firstTagsFrom_get]
    simp
  have hplace : o.op.resumptions.idxOf secondary < o.op.resumptions.length :=
    List.idxOf_lt_length_iff.mpr hs
  have hsplit : resumptionsOf (before ++ o :: after) =
      resumptionsOf before ++ (o.op.resumptions.map (⟨o.id, ·⟩) ++ resumptionsOf after) := by
    simp [resumptionsOf]
  rw [tag, hfirst, hresumptions, List.getElem?_toArray, hsplit,
    List.getElem?_append_right (Nat.le_add_right _ _), Nat.add_sub_cancel_left,
    List.getElem?_append_left (by simpa using hplace), List.getElem?_map,
    List.getElem?_eq_getElem hplace, List.getElem_idxOf]
  rfl

/-! ### Lines in a routine -/

/-- The operations of a routine are the given lines, and its tags are those of its operations. -/
structure Loaded (m : Routine) (L : List Line) : Prop where
  operations : m.operations.toList = Line.operations ((Line.offsets 0 L).idxOf ·) 0 0 L
  resumptions : m.resumptions = (resumptionsOf m.operations.toList).toArray
  firstTags : m.firstTags = (firstTagsFrom 0 m.operations.toList).toArray

/-- Where a step leads when the next line has the offset `b`. -/
def leads (m : Routine) (L : List Line) (b : Nat) : Next → MachineState
  | .following => Line.state L b
  | .jump id => m.enter id
  | .fail => .failing
  | .stop => .halted

/-- The operation `o` is the line `l` at the offset `a`. -/
structure LineAt (m : Routine) (L : List Line) (a : Nat) (l : Line) (o : Operation) : Prop where
  place : ∃ id, Line.state L a = .running id ∧ m.operations[id]? = some o
  op : o.op = l.op.retarget ((Line.offsets 0 L).idxOf ·)
  rightToLeft : o.rightToLeft = l.rightToLeft
  ignoreCase : o.ignoreCase = l.ignoreCase
  forward : ∀ r, m.step (Line.state L a) r =
    m.forward o r >>= fun x => .ok (m.leads L (a + l.size) x.1, x.2)
  resume : ∀ secondary ∈ o.op.resumptions, ∀ r rest, r.track = (m.tag o secondary : Int) :: rest →
    m.step .failing r =
      m.resume o secondary { r with track := rest } >>= fun x => .ok (m.leads L (a + l.size) x.1, x.2)
  next : m.enter (o.id + 1) = Line.state L (a + l.size)

namespace LineAt

variable {m : Routine} {L : List Line} {a : Nat} {l : Line} {o : Operation} {r r' : Runner} {next : Next}

theorem step_forward (ho : LineAt m L a l o) (h : m.forward o r = .ok (next, r')) :
    m.step (Line.state L a) r = .ok (m.leads L (a + l.size) next, r') := by
  rw [ho.forward, h]
  rfl

theorem step_resume (ho : LineAt m L a l o) {secondary : Bool} (hs : secondary ∈ o.op.resumptions)
    {rest : List Int} (htrack : r.track = (m.tag o secondary : Int) :: rest)
    (h : m.resume o secondary { r with track := rest } = .ok (next, r')) :
    m.step .failing r = .ok (m.leads L (a + l.size) next, r') := by
  rw [ho.resume secondary hs r rest htrack, h]
  rfl

end LineAt

namespace Loaded

variable {m : Routine} {L : List Line} {before after : List Line} {l : Line}

theorem size (h : Loaded m L) : m.operations.size = L.length := by
  rw [← Array.length_toList, h.operations, Line.operations_length]

/-- A jump to the number of a line leads to it. -/
theorem enter_length (h : Loaded m L)
    (hL : L = before ++ l :: after) : m.enter before.length = Line.state L (Line.extent before) := by
  have hne : before.length ≠ m.operations.size := by
    rw [h.size, hL, List.length_append, List.length_cons]
    omega
  rw [Routine.enter, if_neg hne, Line.state_extent hL]

/-- A jump to the offset of a line leads to it. -/
theorem enter (h : Loaded m L) {a : Nat} {ls : List Line} (hs : Line.Stands L a ls) :
    m.enter ((Line.offsets 0 L).idxOf a) = Line.state L a := by
  obtain ⟨before, l, after, hL, rfl⟩ := hs.exists_line
  rw [Line.idxOf_extent hL, h.enter_length hL]

theorem stateAfter (h : Loaded m L) {l' : Line} (hL : L = before ++ l :: l' :: after) (next : Next) :
    m.stateAfter before.length next = m.leads L (Line.extent before + l.size) next := by
  cases next with
  | following =>
    have hlt : before.length + 1 < m.operations.size := by
      rw [h.size, hL, List.length_append, List.length_cons, List.length_cons]
      omega
    rw [Routine.stateAfter, if_pos hlt, leads, Line.state_following hL]
  | _ => rfl

/-- The operation of the line that comes after `before`. -/
theorem operation (h : Loaded m L) (hL : L = before ++ l :: after) :
    ∃ os os', m.operations.toList = os ++ Line.operation L before l :: os' ∧ os.length = before.length := by
  have hops := h.operations
  nth_rewrite 2 [hL] at hops
  rw [Line.operations_append, Line.operations, Nat.zero_add, Nat.zero_add] at hops
  exact ⟨_, _, hops, Line.operations_length _ 0 0 before⟩

theorem getElem?_length (h : Loaded m L) (hL : L = before ++ l :: after) :
    m.operations[before.length]? = some (Line.operation L before l) := by
  obtain ⟨os, os', hos, hlength⟩ := h.operation hL
  rw [← Array.getElem?_toList, hos, ← hlength, List.getElem?_append_right (Nat.le_refl _),
    Nat.sub_self]
  rfl

/-- A line that is not the last one, in a routine. -/
theorem lineAt (h : Loaded m L) {a : Nat} {ls : List Line} (hs : Line.Stands L a (l :: ls)) :
    ∃ o, LineAt m L a l o := by
  obtain ⟨before, rest, hrest, hne, rfl⟩ := hs
  obtain ⟨l', after, hafter⟩ := List.exists_cons_of_ne_nil (List.append_ne_nil_of_right_ne_nil ls hne)
  have hL : L = before ++ l :: l' :: after := by
    rw [hrest, List.append_assoc, List.cons_append, hafter]
  obtain ⟨os, os', hos, hlength⟩ := h.operation hL
  have hget := h.getElem?_length hL
  refine ⟨Line.operation L before l, ⟨_, Line.state_extent hL, hget⟩, rfl, rfl, rfl, fun r => ?_,
    fun secondary hsec r track htrack => ?_, ?_⟩
  · rw [Line.state_extent hL, step]
    simp only [hget, h.stateAfter hL]
  · have htag := resumptions_tag (hos ▸ h.resumptions) (hos ▸ h.firstTags) hlength.symm hsec
    have hpop : m.popTag r = .ok (Line.operation L before l, secondary, { r with track := track }) := by
      have hsign : ¬ ((m.tag (Line.operation L before l) secondary : Nat) : Int) < 0 := by omega
      have hid : m.operations[(Line.operation L before l).id]? = some (Line.operation L before l) := hget
      rw [popTag, Runner.popTrack, htrack]
      simp only [bind, Except.bind, if_neg hsign, Int.toNat_natCast, htag, hid]
    rw [step, hpop]
    show (m.resume _ secondary _ >>= fun x => .ok (m.stateAfter before.length x.1, x.2)) = _
    simp only [h.stateAfter hL]
  · rw [show (Line.operation L before l).id + 1 = (before ++ [l]).length by simp [Line.operation],
      h.enter_length (Line.split_following hL), Line.extent_append, Line.extent_cons, Line.extent_nil,
      Nat.add_zero]

/-- The last line ends the run. -/
theorem step_stop (h : Loaded m L) {before : List Line} (hL : L = before ++ [{ op := .stop }]) (r : Runner) :
    m.step (Line.state L (Line.extent before)) r = .ok (.halted, r) := by
  have hget := h.getElem?_length hL
  rw [Line.state_extent hL, step]
  simp only [hget]
  rfl

end Loaded

/-! ### Runs -/

/-- A run leads from one state to another. -/
inductive Steps (m : Routine) : MachineState → Runner → MachineState → Runner → Prop where
  | refl (s : MachineState) (r : Runner) : Steps m s r s r
  | step {s s' s'' : MachineState} {r r' r'' : Runner} (first : m.step s r = .ok (s', r'))
      (rest : Steps m s' r' s'' r'') : Steps m s r s'' r''

variable {m : Routine} {s s' s'' : MachineState} {r r' r'' : Runner}

theorem Steps.trans (h : m.Steps s r s' r') (h' : m.Steps s' r' s'' r'') : m.Steps s r s'' r'' := by
  induction h with
  | refl => exact h'
  | step first _ ih => exact .step first (ih h')

/-- A run that comes to its end does so in some number of steps. -/
theorem Steps.exists_run (h : m.Steps s r .halted r') : ∃ budget, m.run budget s r = .ok r' := by
  generalize hs : MachineState.halted = final at h
  induction h with
  | refl => exact ⟨0, by rw [← hs, run]⟩
  | @step s s₁ s₂ r r₁ r₂ first _ ih =>
    obtain ⟨budget, hrun⟩ := ih hs
    cases s with
    | halted =>
      cases first
      exact ⟨budget, hrun⟩
    | running | failing => exact ⟨budget + 1, by rw [run, first]; exact hrun; nofun⟩

end Routine

/-! ### Choices -/

namespace Routine

variable {m : Routine} {o : Operation} {r : Runner} {p : Int} {track : List Int} {target : Nat}

theorem forward_lazybranch (hop : o.op = .lazybranch target) :
    m.forward o r = .ok (.following, { r with track := (m.tag o false : Int) :: r.here :: r.track }) := by
  simp only [forward, hop, leave, Runner.pushTrack]

theorem resume_lazybranch (hop : o.op = .lazybranch target) (h : r.track = p :: track) :
    m.resume o false r = .ok (.jump target, { r with pos := Word.position p, track := track }) := by
  simp only [resume, hop, Runner.popTrack, h, bind, Except.bind]

theorem forward_goto (hop : o.op = .goto target) : m.forward o r = .ok (.jump target, r) := by
  simp only [forward, hop]

end Routine

/-! ### The routine of a pattern -/

/-- The routine of the program that a pattern has if it is accepted. -/
def Pattern.routine (p : Pattern) : Routine := .ofProgram ⟨p.code, p.operations.toArray⟩

theorem Pattern.routine_loaded (p : Pattern) : p.routine.Loaded p.lines := ⟨rfl, rfl, rfl⟩

end PatternCompiler
