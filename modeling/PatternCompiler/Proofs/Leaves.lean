import PatternCompiler.Proofs.Assertions
import PatternCompiler.Proofs.Generation

/-! What the lines of a leaf match.

An operation `Faces` the characters that are ahead in its direction and case mode, and
the loops over them (`allPass`, `runLength`, `spells`) are questions about that list.
A leaf without a choice moves or fails (`Matches.of_landing`). A repetition has a
choice for each of its characters: a greedy one gives them back (`giveBack_ends`), a
lazy one takes them (`takeMore_ends`). `leafLines_matches` puts the leaves together. -/
namespace PatternCompiler

/-! ### Reading -/

namespace Routine

/-- An operation reads the characters `cs` ahead of a runner. -/
structure Faces (m : Routine) (o : Operation) (r : Runner) (cs : List Char) : Prop where
  available : r.available o = .ok cs.length
  hasNext : r.hasNext o = decide (0 < cs.length)
  readAhead : ∀ n c, cs[n]? = some c → r.readAhead m.culture o n = .ok c

variable {m : Routine} {o : Operation} {r : Runner} {cs : List Char} {t : CharTest Nat} {accepts : Char → Bool}

/-- The next of the characters that are asked for is there to be read. -/
theorem Faces.exists_readAhead (h : m.Faces o r cs) {n done : Nat} (hn : done + (n + 1) ≤ cs.length) :
    ∃ c, r.readAhead m.culture o done = .ok c ∧ (cs.drop done).take (n + 1) = c :: (cs.drop (done + 1)).take n := by
  refine ⟨cs[done], h.readAhead done _ (List.getElem?_eq_getElem (by omega)), ?_⟩
  rw [List.drop_eq_getElem_cons (by omega), List.take_succ_cons]

theorem Faces.allPass (h : m.Faces o r cs) (ht : ∀ c, m.passes c t = accepts c) {n done : Nat}
    (hn : done + n ≤ cs.length) :
    m.allPass o t r done n = .ok (((cs.drop done).take n).all accepts) := by
  induction n generalizing done with
  | zero => simp [Routine.allPass]
  | succ n ih =>
    obtain ⟨c, hread, hsplit⟩ := h.exists_readAhead hn
    rw [Routine.allPass, hread, hsplit, List.all_cons, ← ht]
    show (if m.passes c t = true then _ else _) = _
    by_cases hpass : m.passes c t = true
    · rw [if_pos hpass, ih (by omega), hpass, Bool.true_and]
    · rw [if_neg hpass, Bool.eq_false_iff.mpr hpass, Bool.false_and]

theorem Faces.runLength (h : m.Faces o r cs) (ht : ∀ c, m.passes c t = accepts c) {limit done : Nat}
    (hlimit : done + limit ≤ cs.length) :
    m.runLength o t r done limit =
      .ok (done + (((cs.drop done).take limit).takeWhile accepts).length) := by
  induction limit generalizing done with
  | zero => simp [Routine.runLength]
  | succ limit ih =>
    obtain ⟨c, hread, hsplit⟩ := h.exists_readAhead hlimit
    rw [Routine.runLength, hread, hsplit, List.takeWhile_cons, ← ht]
    show (if m.passes c t = true then _ else _) = _
    by_cases hpass : m.passes c t = true
    · rw [if_pos hpass, ih (by omega), if_pos hpass, List.length_cons]
      congr 1
      omega
    · rw [if_neg hpass, if_neg hpass]
      rfl

theorem Faces.take (h : m.Faces o r cs) (n : Nat) (right : Unit → Except Fault Bool) {b : Bool}
    (hright : n ≤ cs.length → right () = .ok b) :
    Routine.take o r n right =
      .ok (if n ≤ cs.length ∧ b then (.following, r.advance o n) else (.fail, r)) := by
  rw [Routine.take, h.available]
  by_cases hn : n ≤ cs.length
  · have hlt : ¬ cs.length < n := by omega
    simp only [bind, Except.bind, hlt, if_false, hright hn, hn, true_and]
    exact (apply_ite Except.ok _ _ _).symm
  · simp only [bind, Except.bind, hn, false_and, if_false, if_pos (Nat.lt_of_not_le hn)]

/-- A literal is compared with as many characters. -/
theorem spells_eq {w cs : List Char} {i : Nat} (hlength : w.length = cs.length)
    (hread : ∀ j c, w[j]? = some c → r.read m.culture o (i + j) = .ok c) :
    m.spells o r i cs = .ok (decide (w = cs)) := by
  induction cs generalizing w i with
  | nil => simp [spells, List.length_eq_zero_iff.mp hlength]
  | cons c cs ih =>
    cases w with
    | nil => cases hlength
    | cons d w =>
      have hrest := ih (w := w) (i := i + 1) (by simpa using hlength) fun j e he => by
        rw [Nat.add_right_comm, Nat.add_assoc]
        exact hread (j + 1) e he
      have hfirst : r.read m.culture o i = .ok d := hread 0 d rfl
      rw [spells, hfirst]
      show (if d = c then _ else _) = _
      by_cases hd : d = c
      · simp [hd, hrest]
      · simp [hd]

end Routine

namespace Trial

variable {x : Trial} {k : Stacks} {r : Runner} {op : Operation} {o : Options}

variable (x) in
/-- The characters ahead of a position. -/
def ahead (o : Options) (pos : Nat) : List Char := x.subject.ahead x.routine.culture o pos

theorem Fits.faces (hr : x.Fits k r) (hrtl : op.rightToLeft = o.rightToLeft)
    (hcase : op.ignoreCase = o.ignoreCase) : x.routine.Faces op r (x.ahead o r.pos) := by
  have hlength := x.subject.ahead_length x.routine.culture o hr.inside
  obtain ⟨hbeg, hfinish⟩ := hr.inside
  refine ⟨?_, ?_, ?_⟩
  · rw [ahead, hlength, Runner.available, hrtl, hr.beg, hr.finish]
    by_cases hdir : o.rightToLeft
    · simp [hdir, hbeg]
    · simp [hdir, hfinish]
  · rw [ahead, hlength, Runner.hasNext, hrtl, hr.beg, hr.finish]
    by_cases hdir : o.rightToLeft
    · simp only [hdir, if_true, decide_eq_decide]
      omega
    · simp only [hdir, Bool.false_eq_true, if_false, decide_eq_decide]
      omega
  · intro n c hc
    have hn : n < (x.ahead o r.pos).length := (List.getElem?_eq_some_iff.mp hc).1
    rw [ahead, x.subject.ahead_getElem? x.routine.culture o hr.inside hn] at hc
    obtain ⟨d, hd, hdc⟩ := Option.map_eq_some_iff.mp hc
    rw [Runner.readAhead, Runner.read, Runner.charAt, hrtl, hcase, hr.text, hd]
    exact congrArg Except.ok hdc

theorem passes_test {t : CharTest CharClass} (ht : t.classes ⊆ x.tables.classes) (c : Char) :
    x.routine.passes c (x.tables.test t) = t.accepts c := by
  cases t with
  | one d => rfl
  | notone d => rfl
  | set s =>
    have hs : s ∈ x.tables.classes := ht (List.mem_singleton_self s)
    have hplace : capped (x.tables.classes.idxOf s) = x.tables.classes.idxOf s := by
      have := List.idxOf_lt_length_iff.mpr hs
      have := x.classes_le
      exact Nat.min_eq_left (by omega)
    have hget : x.routine.program.code.classes[capped (x.tables.classes.idxOf s)]? = some s := by
      rw [hplace, ← Array.getElem?_toList, x.classes]
      exact List.getElem?_idxOf hs
    rw [Tables.test, Routine.passes, hget]
    rfl

/-- A literal is compared with the text ahead. -/
theorem Fits.spells (hr : x.Fits k r) (hrtl : op.rightToLeft = o.rightToLeft)
    (hcase : op.ignoreCase = o.ignoreCase) {text : List Char} (hn : text.length ≤ (x.ahead o r.pos).length) :
    x.routine.spells op r (r.windowStart op text.length) text =
      .ok (decide ((x.ahead o r.pos).take text.length =
        if o.rightToLeft then text.reverse else text)) := by
  have hfaces := hr.faces hrtl hcase
  by_cases hdir : o.rightToLeft = true
  · have hpos : text.length ≤ r.pos := by
      rw [ahead, x.subject.ahead_length _ o hr.inside, if_pos hdir] at hn
      omega
    rw [Runner.windowStart, hrtl, if_pos hdir, if_pos hdir]
    have hreverse : (x.ahead o r.pos).take text.length = text.reverse ↔
        ((x.ahead o r.pos).take text.length).reverse = text := by
      rw [List.reverse_eq_iff]
    rw [decide_eq_decide.mpr hreverse]
    refine Routine.spells_eq (by simp [hn]) fun j c hj => ?_
    have hlt : j < text.length := by
      have := (List.getElem?_eq_some_iff.mp hj).1
      simp at this
      omega
    rw [List.getElem?_reverse (by simp; omega), List.length_take, Nat.min_eq_left hn,
      List.getElem?_take_of_lt (by omega)] at hj
    have hread := hfaces.readAhead _ c hj
    rw [Runner.readAhead, hrtl, if_pos hdir] at hread
    rw [← hread]
    congr 1
    omega
  · rw [Runner.windowStart, hrtl, if_neg hdir, if_neg hdir]
    refine Routine.spells_eq (by simp [hn]) fun j c hj => ?_
    have hlt : j < text.length := by
      have := (List.getElem?_eq_some_iff.mp hj).1
      simp at this
      omega
    rw [List.getElem?_take_of_lt hlt] at hj
    have hread := hfaces.readAhead j c hj
    rwa [Runner.readAhead, hrtl, if_neg hdir] at hread

theorem string_eq (x : Trial) {text : List Char} (htext : text ∈ x.tables.strings) :
    x.tables.string text = x.tables.strings.idxOf text := by
  have := List.idxOf_lt_length_iff.mpr htext
  have := x.strings_le
  exact Nat.min_eq_left (by omega)

theorem inside_moved {pos n : Nat} (hpos : x.subject.Inside pos) (hn : n ≤ (x.ahead o pos).length) :
    x.subject.Inside (moved o pos n) :=
  x.subject.inside_moved x.routine.culture o hpos hn

theorem ahead_moved {pos n : Nat} (hpos : x.subject.Inside pos) (hn : n ≤ (x.ahead o pos).length) :
    x.ahead o (moved o pos n) = (x.ahead o pos).drop n :=
  x.subject.ahead_moved x.routine.culture o hpos hn

theorem advance_eq (hrtl : op.rightToLeft = o.rightToLeft) (r : Runner) (n : Nat) :
    r.advance op n = { r with pos := moved o r.pos n } := by
  rw [Runner.advance, Runner.ahead, hrtl, moved]

/-! ### Assertions -/

theorem Fits.on (hr : x.Fits k r) : r.On x.subject := ⟨hr.text, hr.beg, hr.finish, hr.start, hr.inside⟩

theorem Fits.holds (hr : x.Fits k r) (a : Assertion) : r.holds a = .ok (x.subject.holds r.pos a) :=
  hr.on.holds a

/-! ### Leaves without a choice -/

variable {a : Nat} {ls : List Line} {t : CharTest CharClass}

/-- One character. -/
theorem test_matches (ht : t.classes ⊆ x.tables.classes)
    (hs : Line.Stands x.lines a (⟨.test (x.tables.test t), o.rightToLeft, o.ignoreCase⟩ :: ls)) :
    x.Matches 0 a (a + 2) fun s =>
      (if (x.ahead o s.pos).head?.any t.accepts then [moved o s.pos 1] else []).map (⟨·, s.groups⟩) := by
  obtain ⟨op, hop⟩ := x.loaded.lineAt hs
  have hkind : op.op = .test (x.tables.test t) := hop.op
  refine Matches.of_landing hop (fun pos => (x.ahead o pos).head?.any t.accepts) (moved o · 1) ?_ ?_
  · intro k r hr hpass
    refine inside_moved hr.inside ?_
    cases hcs : x.ahead o r.pos with
    | nil => simp [hcs] at hpass
    | cons c cs => simp
  · intro k r hr
    have hfaces := hr.faces hop.rightToLeft hop.ignoreCase
    simp only [Routine.forward, hkind, Routine.forwardTest, hfaces.hasNext, advance_eq hop.rightToLeft]
    cases hcs : x.ahead o r.pos with
    | nil => simp
    | cons c cs =>
      have hread := hfaces.readAhead 0 c (by rw [hcs]; rfl)
      simp only [List.length_cons, Nat.zero_lt_succ, decide_true, Bool.not_true, Bool.false_eq_true,
        if_false, hread, bind, Except.bind, passes_test ht, List.head?_cons, Option.any_some]
      exact (apply_ite Except.ok _ _ _).symm

theorem length_le_takeWhile_iff {p : Char → Bool} {cs : List Char} {n : Nat} :
    n ≤ cs.length ∧ (cs.take n).all p = true ↔ n ≤ (cs.takeWhile p).length := by
  induction cs generalizing n with
  | nil =>
    cases n with
    | zero => simp
    | succ n => simp
  | cons c cs ih =>
    cases n with
    | zero => simp
    | succ n =>
      by_cases hc : p c = true
      · simp only [List.take_succ_cons, List.all_cons, hc, Bool.true_and, List.length_cons,
          Nat.add_le_add_iff_right, List.takeWhile_cons, if_true, ih]
      · simp [hc]

/-- A number of characters. -/
theorem rep_matches (ht : t.classes ⊆ x.tables.classes) {n : Nat}
    (hs : Line.Stands x.lines a (⟨.rep (x.tables.test t) n, o.rightToLeft, o.ignoreCase⟩ :: ls)) :
    x.Matches 0 a (a + 3) fun s =>
      (if n ≤ ((x.ahead o s.pos).takeWhile t.accepts).length then [moved o s.pos n] else []).map
        (⟨·, s.groups⟩) := by
  obtain ⟨op, hop⟩ := x.loaded.lineAt hs
  have hkind : op.op = .rep (x.tables.test t) n := hop.op
  have hmatches := Matches.of_landing hop
    (fun pos => decide (n ≤ ((x.ahead o pos).takeWhile t.accepts).length)) (moved o · n) ?_ ?_
  · simp only [decide_eq_true_eq] at hmatches
    exact hmatches
  · intro k r hr hpass
    have hlength := (List.takeWhile_sublist t.accepts (l := x.ahead o r.pos)).length_le
    exact inside_moved hr.inside (Nat.le_trans (of_decide_eq_true hpass) hlength)
  · intro k r hr
    have hfaces := hr.faces hop.rightToLeft hop.ignoreCase
    have htake := hfaces.take n (fun _ => x.routine.allPass op (x.tables.test t) r 0 n) fun hn =>
      hfaces.allPass (passes_test ht) (show 0 + n ≤ _ by omega)
    simp only [Routine.forward, hkind, htake, advance_eq hop.rightToLeft, List.drop_zero,
      length_le_takeWhile_iff, decide_eq_true_eq]

/-- A literal. -/
theorem multi_matches {text : List Char} (htext : text ∈ x.tables.strings)
    (hs : Line.Stands x.lines a (⟨.multi (x.tables.string text), o.rightToLeft, o.ignoreCase⟩ :: ls)) :
    x.Matches 0 a (a + 2) fun s =>
      (if (x.ahead o s.pos).take text.length = (if o.rightToLeft then text.reverse else text) then
        [moved o s.pos text.length] else []).map (⟨·, s.groups⟩) := by
  obtain ⟨op, hop⟩ := x.loaded.lineAt hs
  have hkind : op.op = .multi (x.tables.string text) := hop.op
  have hmatches := Matches.of_landing hop
    (fun pos => decide ((x.ahead o pos).take text.length =
      (if o.rightToLeft then text.reverse else text))) (moved o · text.length) ?_ ?_
  · simp only [decide_eq_true_eq] at hmatches
    exact hmatches
  · intro k r hr hpass
    exact inside_moved hr.inside (length_le_of_take (of_decide_eq_true hpass))
  · intro k r hr
    have hfaces := hr.faces hop.rightToLeft hop.ignoreCase
    have hget : x.routine.program.code.strings.getD (x.tables.string text) [] = text := by
      rw [Array.getD_eq_getD_getElem?, ← Array.getElem?_toList, x.strings, x.string_eq htext,
        List.getElem?_idxOf htext]
      rfl
    have htake := hfaces.take text.length
      (fun _ => x.routine.spells op r (r.windowStart op text.length) text)
      fun hn => hr.spells hop.rightToLeft hop.ignoreCase hn
    simp only [Routine.forward, hkind, hget, htake, advance_eq hop.rightToLeft, decide_eq_true_eq]
    have hshort : (x.ahead o r.pos).take text.length = (if o.rightToLeft then text.reverse else text) →
        text.length ≤ (x.ahead o r.pos).length := length_le_of_take
    simp only [and_iff_right_of_imp hshort]

/-- A condition on the position. -/
theorem assertion_matches {c : Assertion} (hs : Line.Stands x.lines a ({ op := .assertion c } :: ls)) :
    x.Matches 0 a (a + 1) fun s => (if x.subject.holds s.pos c then [s.pos] else []).map (⟨·, s.groups⟩) := by
  obtain ⟨op, hop⟩ := x.loaded.lineAt hs
  have hkind : op.op = .assertion c := hop.op
  refine Matches.of_landing hop (x.subject.holds · c) id (fun _ r hr _ => hr.inside) fun k r hr => ?_
  simp only [Routine.forward, hkind, hr.holds, bind, Except.bind, id]
  cases x.subject.holds r.pos c <;> rfl

theorem nothing_matches (hs : Line.Stands x.lines a ({ op := .nothing } :: ls)) :
    x.Matches 0 a (a + 1) fun _ => [] := by
  obtain ⟨op, hop⟩ := x.loaded.lineAt hs
  have hkind : op.op = .nothing := hop.op
  refine Matches.of_landing hop (fun _ => false) id (fun _ r hr _ => hr.inside) fun k r _ => ?_
  simp only [Routine.forward, hkind]
  rfl

/-! ### Repetitions -/

section Spans

variable {pos max left : Nat} {lazy : Bool} {K : Outcome → (Runner → Prop) → Runner → Prop}
  {Q R : Runner → Prop}

theorem Fits.resumable (hr : x.Fits k r) (op : Operation) (pos left : Nat) :
    x.Fits (k.resumable (x.routine.tag op false) pos left)
      (x.routine.leave op false (r.pushTrack2 (left : Int) (Word.ofPosition pos))) := by
  refine { hr with track := ?_ }
  show _ :: _ :: _ :: r.track = _
  rw [hr.track, Stacks.resumable]

/-- Resumes a repetition. -/
theorem resumable_ends
    (hop : x.routine.LineAt x.lines a ⟨.span lazy (x.tables.test t) max, o.rightToLeft, o.ignoreCase⟩ op)
    (hr : x.Fits (k.resumable (x.routine.tag op false) pos left) r) {next : Next} {s : MachineState}
    {r' : Runner} (hs : x.routine.leads x.lines (a + 3) next = s)
    (hresume : x.routine.resumeSpan op lazy (x.tables.test t)
      { r with track := Word.ofPosition pos :: (left : Int) :: k.track } = .ok (next, r'))
    (h : x.Ends s r' Q) : x.Ends .failing r Q := by
  have hkind : op.op = .span lazy (x.tables.test t) max := hop.op
  have hstep := hop.resume false (by rw [hkind]; exact List.mem_singleton_self false) r _ hr.track
  simp only [Routine.resume, hkind, hresume, bind, Except.bind] at hstep
  exact .step hstep (hs ▸ h)

theorem steppedBack_eq (hrtl : op.rightToLeft = o.rightToLeft) {i : Nat}
    (hr : r.pos = moved o pos (i + 1)) (hi : o.rightToLeft → i + 1 ≤ pos) :
    r.steppedBack op = Word.ofPosition (moved o pos i) := by
  rw [Runner.steppedBack, hrtl, hr]
  congr 1
  unfold moved
  by_cases hdir : o.rightToLeft = true
  · have := hi hdir
    rw [if_pos hdir, if_pos hdir, if_pos hdir]
    omega
  · rw [if_neg hdir, if_neg hdir, if_neg hdir]
    omega

/-- After `i` characters, a greedy repetition has one outcome for each number up to `i`. -/
theorem giveBack_ends
    (hop : x.routine.LineAt x.lines a ⟨.span false (x.tables.test t) max, o.rightToLeft, o.ignoreCase⟩ op)
    (hpos : x.subject.Inside pos) (hK : x.Continues 3 (a + 3) k k.marks K) (hQ : x.Fails k Q) {i : Nat}
    (hi : i ≤ (x.ahead o pos).length) (hr : x.Fits k r) (hmoved : r.pos = moved o pos i) :
    x.Ends (x.state (a + 3))
      (if 0 < i then x.routine.leave op false (r.pushTrack2 ((i : Int) - 1) (r.steppedBack op)) else r)
      (((List.range' 0 (i + 1)).reverse.map fun j => ⟨moved o pos j, k.groups⟩).foldr K Q) := by
  induction i generalizing r with
  | zero =>
    have hend := hK k r Q (Stacks.Extends.of_track [] k.marks (Nat.zero_le 3)) rfl hr hQ
    rw [hmoved] at hend
    exact hend
  | succ i ih =>
    have hback : r.steppedBack op = Word.ofPosition (moved o pos i) := by
      refine steppedBack_eq hop.rightToLeft hmoved fun hdir => ?_
      rw [ahead, x.subject.ahead_length _ o hpos, if_pos hdir] at hi
      omega
    have hinside : x.subject.Inside (moved o pos i) := inside_moved hpos (by omega)
    have hlist : (List.range' 0 (i + 1 + 1)).reverse = (i + 1) :: (List.range' 0 (i + 1)).reverse := by
      rw [List.range'_1_concat, List.reverse_append, Nat.zero_add]
      rfl
    have hleft : ((i + 1 : Nat) : Int) - 1 = i := by omega
    rw [if_pos (Nat.succ_pos i), hback, hlist, hleft]
    have hfails : x.Fails (k.resumable (x.routine.tag op false) (moved o pos i) i)
        (((List.range' 0 (i + 1)).reverse.map fun j => ⟨moved o pos j, k.groups⟩).foldr K Q) := by
      intro r₁ hr₁
      have hr₂ : x.Fits k { r₁ with track := k.track, pos := moved o pos i } :=
        { hr₁ with track := rfl, inside := hinside }
      have hnext : x.routine.leads x.lines (a + 3) (.jump (op.id + 1)) = x.state (a + 3) := hop.next
      refine resumable_ends hop hr₁ hnext ?_ (ih (by omega) hr₂ rfl)
      simp only [Routine.resumeSpan, Runner.popTrack, bind, Except.bind, Bool.false_eq_true, if_false,
        Word.position_ofPosition (x.subject.lt_modulus hinside), Int.natCast_pos]
    have hend := hK _ _ _ (k.extends_resumable _ _ _) rfl (hr.resumable op (moved o pos i) i) hfails
    rw [List.map_cons, List.foldr_cons, ← hmoved]
    exact hend

/-- With `left` characters to go after `j` of them, a lazy repetition has one outcome for each
number of those that pass. -/
theorem takeMore_ends (ht : t.classes ⊆ x.tables.classes)
    (hop : x.routine.LineAt x.lines a ⟨.span true (x.tables.test t) max, o.rightToLeft, o.ignoreCase⟩ op)
    (hpos : x.subject.Inside pos) (hK : x.Continues 3 (a + 3) k k.marks K) (hQ : x.Fails k Q) {j : Nat}
    (hj : j + left ≤ (x.ahead o pos).length) (hr : x.Fits k r) (hmoved : r.pos = moved o pos j) :
    x.Ends (x.state (a + 3))
      (if 0 < left then x.routine.leave op false (r.pushTrack2 ((left : Int) - 1) r.here) else r)
      (((List.range' j ((((x.ahead o pos).drop j).take left).takeWhile t.accepts).length.succ).map
        fun i => ⟨moved o pos i, k.groups⟩).foldr K Q) := by
  induction left generalizing j r with
  | zero =>
    have hend := hK k r Q (Stacks.Extends.of_track [] k.marks (Nat.zero_le 3)) rfl hr hQ
    rw [hmoved] at hend
    rw [List.take_zero]
    exact hend
  | succ left ih =>
    have hinside : x.subject.Inside (moved o pos j) := hmoved ▸ hr.inside
    have hget : (x.ahead o pos)[j]? = some (x.ahead o pos)[j] := List.getElem?_eq_getElem (by omega)
    have hsplit : ((x.ahead o pos).drop j).take (left + 1) =
        (x.ahead o pos)[j] :: ((x.ahead o pos).drop (j + 1)).take left := by
      rw [List.drop_eq_getElem_cons (by omega), List.take_succ_cons]
    have hleft : ((left + 1 : Nat) : Int) - 1 = left := by omega
    have hfails : x.Fails (k.resumable (x.routine.tag op false) (moved o pos j) left)
        (((List.range' (j + 1) ((((x.ahead o pos).drop j).take (left + 1)).takeWhile t.accepts).length).map
          fun i => ⟨moved o pos i, k.groups⟩).foldr K Q) := by
      intro r₁ hr₁
      have hr₂ : x.Fits k { r₁ with track := k.track, pos := moved o pos j } :=
        { hr₁ with track := rfl, inside := hinside }
      have hread := (hr₂.faces hop.rightToLeft hop.ignoreCase).readAhead 0 (x.ahead o pos)[j] (by
        show (x.ahead o (moved o pos j))[0]? = _
        rw [ahead_moved hpos (by omega), List.getElem?_drop]
        exact hget)
      by_cases hpass : t.accepts (x.ahead o pos)[j] = true
      · have hr₃ : x.Fits k { r₁ with track := k.track, pos := moved o pos (j + 1) } :=
          { hr₁ with track := rfl, inside := inside_moved hpos (by omega) }
        have hnext : x.routine.leads x.lines (a + 3) (.jump (op.id + 1)) = x.state (a + 3) := hop.next
        rw [hsplit, List.takeWhile_cons, if_pos hpass]
        refine resumable_ends hop hr₁ hnext ?_ (ih (by omega) hr₃ rfl)
        simp only [Routine.resumeSpan, Runner.popTrack, bind, Except.bind, if_true, hread, passes_test ht, hpass,
          Word.position_ofPosition (x.subject.lt_modulus hinside), Int.natCast_pos, advance_eq hop.rightToLeft,
          moved_moved]
      · have hfail : x.routine.leads x.lines (a + 3) .fail = .failing := rfl
        rw [hsplit, List.takeWhile_cons, if_neg hpass]
        refine resumable_ends hop hr₁ hfail ?_ (hQ _ hr₂)
        simp only [Routine.resumeSpan, Runner.popTrack, bind, Except.bind, if_true, hread, passes_test ht, hpass,
          Word.position_ofPosition (x.subject.lt_modulus hinside)]
        rfl
    have hend := hK _ _ _ (k.extends_resumable _ _ _) rfl (hr.resumable op (moved o pos j) left) hfails
    rw [if_pos (Nat.succ_pos left), hleft, Runner.here, List.range'_succ, List.map_cons, List.foldr_cons,
      ← hmoved]
    rw [← hmoved] at hend
    exact hend

theorem bounded_takeWhile (p : Char → Bool) (cs : List Char) (max : Nat) :
    ((cs.take (bounded max cs.length)).takeWhile p).length = bounded max (cs.takeWhile p).length := by
  have hle := (List.takeWhile_sublist p (l := cs)).length_le
  rw [← List.take_takeWhile, List.length_take]
  unfold bounded
  split <;> omega

theorem spanCounts_zero (lazy : Bool) (max longest : Nat) : spanCounts lazy 0 max longest =
    if lazy then List.range' 0 (bounded max longest + 1)
    else (List.range' 0 (bounded max longest + 1)).reverse := by
  have htop : (if 0 < max then bounded max longest else Nat.min longest max) = bounded max longest := by
    by_cases hmax : 0 < max
    · exact if_pos hmax
    · obtain rfl : max = 0 := by omega
      rfl
  rw [spanCounts, htop]
  rfl

theorem spanLimit_eq {m : Routine} {cs : List Char} (h : m.Faces op r cs) :
    Routine.spanLimit op r max = .ok (bounded max cs.length) := by
  rw [Routine.spanLimit, h.available]
  rfl

theorem forwardSpan_lazy {m : Routine} {cs : List Char} (h : m.Faces op r cs) (test : CharTest Nat) :
    m.forwardSpan op true test max r = .ok (.following,
      if 0 < bounded max cs.length then
        m.leave op false (r.pushTrack2 ((bounded max cs.length : Int) - 1) r.here)
      else r) := by
  simp only [Routine.forwardSpan, spanLimit_eq h, bind, Except.bind, if_true]
  split <;> rfl

theorem forwardSpan_greedy {m : Routine} {cs : List Char} (h : m.Faces op r cs) {test : CharTest Nat}
    {accepts : Char → Bool} (htest : ∀ c, m.passes c test = accepts c) :
    m.forwardSpan op false test max r = .ok (.following,
      if 0 < bounded max (cs.takeWhile accepts).length then
        m.leave op false ((r.advance op (bounded max (cs.takeWhile accepts).length)).pushTrack2
          ((bounded max (cs.takeWhile accepts).length : Int) - 1)
          ((r.advance op (bounded max (cs.takeWhile accepts).length)).steppedBack op))
      else r.advance op (bounded max (cs.takeWhile accepts).length)) := by
  have hlimit := bounded_le max cs.length
  have hrun := h.runLength htest (show 0 + bounded max cs.length ≤ _ by omega)
  rw [Nat.zero_add, List.drop_zero, bounded_takeWhile] at hrun
  simp only [Routine.forwardSpan, spanLimit_eq h, bind, Except.bind, Bool.false_eq_true, if_false, hrun]
  split <;> rfl

/-- Some number of characters, up to a bound. -/
theorem span_matches (ht : t.classes ⊆ x.tables.classes)
    (hs : Line.Stands x.lines a (⟨.span lazy (x.tables.test t) max, o.rightToLeft, o.ignoreCase⟩ :: ls)) :
    x.Matches 3 a (a + 3) fun s =>
      ((spanCounts lazy 0 max ((x.ahead o s.pos).takeWhile t.accepts).length).map (moved o s.pos)).map
        (⟨·, s.groups⟩) := by
  obtain ⟨op, hop⟩ := x.loaded.lineAt hs
  have hkind : op.op = .span lazy (x.tables.test t) max := hop.op
  rintro ⟨pos, groups⟩ k rfl - K Q r hr rfl hK hQ
  have hfaces := hr.faces hop.rightToLeft hop.ignoreCase
  have hstep := hop.forward r
  simp only [Routine.forward, hkind] at hstep
  show x.Ends _ r (((spanCounts lazy 0 max _).map (moved o r.pos)).map _ |>.foldr K Q)
  rw [spanCounts_zero, List.map_map]
  cases lazy with
  | false =>
    rw [forwardSpan_greedy hfaces (passes_test ht)] at hstep
    have hcount : bounded max ((x.ahead o r.pos).takeWhile t.accepts).length ≤ (x.ahead o r.pos).length :=
      Nat.le_trans (bounded_le _ _) (List.takeWhile_sublist t.accepts).length_le
    rw [advance_eq hop.rightToLeft] at hstep
    have hr' : x.Fits k { r with pos := moved o r.pos _ } :=
      { hr with inside := inside_moved hr.inside hcount }
    exact .step hstep (giveBack_ends hop hr.inside hK hQ hcount hr' rfl)
  | true =>
    rw [forwardSpan_lazy hfaces] at hstep
    have hlimit := bounded_le max (x.ahead o r.pos).length
    have hend := takeMore_ends ht hop hr.inside hK hQ 
      (show 0 + bounded max (x.ahead o r.pos).length ≤ _ by omega) hr
      (moved_zero o r.pos).symm
    rw [List.drop_zero, bounded_takeWhile] at hend
    exact .step hstep hend

end Spans

/-- A repetition with a lower bound goes on where the first rounds end. -/
theorem spanCounts_shift (lazy : Bool) {min max longest : Nat} (hmin : min ≤ longest) (hlt : min < max)
    (hmax : max ≤ unbounded) : spanCounts lazy min max longest =
      (spanCounts lazy 0 (Draft.roundsLeft min max) (longest - min)).map (min + ·) := by
  have htop : bounded max longest + 1 - min = bounded (Draft.roundsLeft min max) (longest - min) + 1 := by
    unfold bounded Draft.roundsLeft
    split
    · omega
    · rw [if_neg (by omega)]
      omega
  rw [spanCounts_zero, spanCounts, if_pos hlt, htop]
  cases lazy
  · simp [List.map_add_range']
  · simp [List.map_add_range']

theorem spanCounts_short (lazy : Bool) {min max longest : Nat} (h : ¬ min ≤ longest) :
    spanCounts lazy min max longest = [] := by
  have htop : (if min < max then bounded max longest else Nat.min longest max) + 1 - min = 0 := by
    have := bounded_le max longest
    have : Nat.min longest max ≤ longest := Nat.min_le_left longest max
    split <;> omega
  rw [spanCounts, htop]
  cases lazy <;> rfl

theorem spanCounts_exact (lazy : Bool) (n longest : Nat) :
    spanCounts lazy n n longest = if n ≤ longest then [n] else [] := by
  by_cases h : n ≤ longest
  · have htop : Nat.min longest n + 1 - n = 1 := by
      rw [show Nat.min longest n = n from Nat.min_eq_right h]
      omega
    rw [spanCounts, if_neg (Nat.lt_irrefl n), htop, if_pos h]
    cases lazy <;> rfl
  · rw [spanCounts_short lazy h, if_neg h]

/-- After characters that pass, the rest of the run is ahead. -/
theorem takeWhile_moved {accepts : Char → Bool} {pos n : Nat} (hpos : x.subject.Inside pos)
    (hn : n ≤ ((x.ahead o pos).takeWhile accepts).length) :
    ((x.ahead o (moved o pos n)).takeWhile accepts).length =
      ((x.ahead o pos).takeWhile accepts).length - n := by
  obtain ⟨hlength, hall⟩ := length_le_takeWhile_iff.mpr hn
  have hsplit : (x.ahead o pos).takeWhile accepts =
      (x.ahead o pos).take n ++ ((x.ahead o pos).drop n).takeWhile accepts := by
    nth_rewrite 1 [← List.take_append_drop n (x.ahead o pos)]
    exact List.takeWhile_append_of_pos (List.all_eq_true.mp hall)
  rw [ahead_moved hpos hlength, hsplit, List.length_append, List.length_take, Nat.min_eq_left hlength,
    Nat.add_sub_cancel_left]

/-- A repetition: what it must take, and what it may take. -/
theorem span_leaf_matches (ht : t.classes ⊆ x.tables.classes) {min max : Nat} (lazy : Bool)
    (hmin : min ≤ max) (hmax : max ≤ unbounded)
    (hs : Line.Stands x.lines a (x.tables.leafLines o (.span lazy t min max))) :
    x.Matches (3 * (x.tables.leafLines o (.span lazy t min max)).length) a
      (a + Line.extent (x.tables.leafLines o (.span lazy t min max))) fun s =>
        ((Leaf.span lazy t min max).landings x.subject x.routine.culture o s.pos).map (⟨·, s.groups⟩) := by
  have hcapped : capped min = min := Nat.min_eq_left (Nat.le_trans hmin hmax)
  have hrounds : capped (Draft.roundsLeft min max) = Draft.roundsLeft min max := by
    refine Nat.min_eq_left ?_
    unfold Draft.roundsLeft
    split <;> omega
  rw [Tables.leafLines, hcapped, hrounds] at hs ⊢
  show x.Matches _ _ _ fun s =>
    ((spanCounts lazy min max ((x.ahead o s.pos).takeWhile t.accepts).length).map (moved o s.pos)).map _
  by_cases hlow : 0 < min
  · rw [if_pos hlow] at hs ⊢
    have hrep := rep_matches ht hs.left
    by_cases hlt : min < max
    · rw [if_pos hlt] at hs ⊢
      refine ((hrep.append (span_matches ht hs.right)).congr fun s hs => ?_).mono (by simp)
      by_cases hlength : min ≤ ((x.ahead o s.pos).takeWhile t.accepts).length
      · rw [if_pos hlength, spanCounts_shift lazy hlength hlt hmax, List.map_map]
        simp [takeWhile_moved hs hlength, moved_moved, Function.comp_def]
      · rw [if_neg hlength, spanCounts_short lazy hlength]
        rfl
    · obtain rfl : min = max := by omega
      rw [if_neg hlt] at hs ⊢
      refine (hrep.congr fun s _ => ?_).mono (by simp)
      rw [spanCounts_exact]
      split <;> rfl
  · obtain rfl : min = 0 := by omega
    rw [if_neg hlow, List.nil_append] at hs ⊢
    by_cases hlt : 0 < max
    · rw [if_pos hlt] at hs ⊢
      have hspan := span_matches ht hs
      rwa [show Draft.roundsLeft 0 max = max by unfold Draft.roundsLeft; split <;> rfl] at hspan ⊢
    · obtain rfl : max = 0 := by omega
      refine (Matches.nil a).congr fun s _ => ?_
      rw [spanCounts_exact, if_pos (Nat.zero_le _), List.map_singleton, List.map_singleton, moved_zero]

/-- **The lines of a leaf end where the leaf can end.** -/
theorem leafLines_matches (o : Options) (l : Leaf) (hsimple : (Node.leaf o l).Simple)
    (hliterals : l.literals ⊆ x.tables.strings) (hclasses : l.classes ⊆ x.tables.classes)
    (hs : Line.Stands x.lines a (x.tables.leafLines o l)) :
    x.Matches (3 * (x.tables.leafLines o l).length) a (a + Line.extent (x.tables.leafLines o l)) fun s =>
      (l.landings x.subject x.routine.culture o s.pos).map (⟨·, s.groups⟩) := by
  cases l with
  | test t => exact (test_matches hclasses hs).mono (Nat.zero_le _)
  | span lazy t min max => exact span_leaf_matches hclasses lazy hsimple.1 hsimple.2 hs
  | multi text => exact (multi_matches (hliterals (List.mem_singleton_self text)) hs).mono (Nat.zero_le _)
  | ref n => exact hsimple.elim
  | assertion c => exact (assertion_matches hs).mono (Nat.zero_le _)
  | nothing => exact (nothing_matches hs).mono (Nat.zero_le _)
  | empty => exact (Matches.nil a).mono (Nat.zero_le _)

end Trial

end PatternCompiler
