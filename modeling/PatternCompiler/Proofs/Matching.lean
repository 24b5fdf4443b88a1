import PatternCompiler.Proofs.Leaves

/-! The machine finds the first outcome.

The lines of a tree match as `Node.outcomes` tells (`translate_matches`): each construct
is one of the laws about continuations, applied to its parts. A program begins with a
choice whose other way is its last line, so a run always comes to that line, with the
first outcome or, when there is none, with nothing captured
(`Pattern.attempt_finds_first`). -/
namespace PatternCompiler

namespace Trial

variable {x : Trial}

variable (x) in
/-- What a tree matches. -/
def outcomes (n : Node) (s : Outcome) : List Outcome :=
  n.outcomes x.subject x.routine.culture s

variable (x) in
/-- The lines of a tree, wherever they stand, match as the tree does. -/
def Lowers (n : Node) : Prop :=
  ∀ a, Line.Stands x.lines a (x.tables.translate a n) →
    x.Matches (3 * (x.tables.translate a n).length) a (a + Line.extent (x.tables.translate a n))
      (x.outcomes n)

theorem sequence_matches {ns : List Node} (ih : ∀ n ∈ ns, x.Lowers n) (a : Nat)
    (hs : Line.Stands x.lines a (x.tables.sequence a ns)) :
    x.Matches (3 * (x.tables.sequence a ns).length) a (a + Line.extent (x.tables.sequence a ns))
      (Node.outcomesOfAll x.subject x.routine.culture · ns) := by
  induction ns generalizing a with
  | nil => exact Matches.nil a
  | cons n ns hns =>
    have hfirst := ih n (List.mem_cons_self ..) a hs.left
    have hrest := hns (fun m hm => ih m (List.mem_cons_of_mem n hm)) _ hs.right
    have hall := hfirst.append hrest
    rw [Tables.sequence, List.length_append, Line.extent_append, Nat.mul_add, ← Nat.add_assoc]
    exact hall

theorem alternatives_matches {ns : List Node} (ih : ∀ n ∈ ns, x.Lowers n) (hne : ns ≠ [])
    {a finish : Nat} (hs : Line.Stands x.lines a (x.tables.alternatives a finish ns))
    (hfinish : finish = a + Line.extent (x.tables.alternatives a finish ns))
    (hend : Line.Stands x.lines finish []) :
    x.Matches (3 * (x.tables.alternatives a finish ns).length) a finish
      (Node.outcomesOfAny x.subject x.routine.culture · ns) := by
  induction ns generalizing a with
  | nil => exact absurd rfl hne
  | cons n ns hns =>
    cases ns with
    | nil =>
      rw [Tables.alternatives] at hs hfinish ⊢
      have hlast := ih n (List.mem_cons_self ..) a hs
      rw [← hfinish] at hlast
      exact hlast.congr fun s _ => (List.append_nil _).symm
    | cons m ns =>
      rw [Tables.alternatives] at hs hfinish ⊢
      have hfirst := ih n (List.mem_cons_self ..) (a + 2) hs.tail.left
      have hgoto := hs.tail.right
      have hrest := hns (fun k hk => ih k (List.mem_cons_of_mem n hk)) (List.cons_ne_nil m ns) hgoto.tail ?_
      · refine (Matches.choice hs hfirst hgoto hend hgoto.tail hrest).mono ?_
        simp only [List.length_append, List.length_cons, Line.size_lazybranch, Line.size_goto]
        omega
      · simp only [Line.extent_append, Line.extent_cons, Line.size_lazybranch, Line.size_goto] at hfinish ⊢
        omega

theorem wrap_lowers {o : Options} {w : Wrap} {n : Node} (hsimple : (Node.wrap o w n).Simple)
    (hnamed : (Node.wrap o w n).Named x.tables.numbers) (ih : x.Lowers n) : x.Lowers (.wrap o w n) := by
  intro a hs
  cases w with
  | loop lazy min max => exact hsimple.elim
  | capture number uncapture =>
    obtain ⟨hnumber, rfl⟩ := hsimple
    obtain ⟨g, rfl⟩ := Option.isSome_iff_exists.mp hnumber
    have hg : g ∈ x.tables.numbers := hnamed g (List.mem_cons_self ..)
    refine (Matches.capture hg hs (ih (a + 1) hs.tail.left) hs.tail.right).of_le ?_ ?_
    · simp only [Tables.translate, List.length_append, List.length_cons]
      omega
    · simp [Tables.translate, Line.size_eq, Op.operands]
      omega
  | require =>
    have hget := hs.tail.tail.right
    refine (Matches.require hs hs.tail (ih (a + 2) hs.tail.tail.left) hget hget.tail).of_le ?_ ?_
    · simp only [Tables.translate, List.length_append, List.length_cons]
      omega
    · simp [Tables.translate, Line.size_eq, Op.operands]
      omega
  | prevent =>
    have hback := hs.tail.tail.right
    refine (Matches.prevent hs hs.tail (ih (a + 3) hs.tail.tail.left) hback hback.tail).of_le ?_ ?_
    · simp only [Tables.translate, List.length_append, List.length_cons]
      omega
    · simp [Tables.translate, Line.size_eq, Op.operands]
      omega
  | greedy =>
    refine (Matches.cut hs (ih (a + 1) hs.tail.left) hs.tail.right).of_le ?_ ?_
    · simp only [Tables.translate, List.length_append, List.length_cons]
      omega
    · simp [Tables.translate, Line.size_eq, Op.operands]
      omega

theorem many_lowers {o : Options} {m : Many} {ns : List Node} (hsimple : (Node.many o m ns).Simple)
    (ih : ∀ n ∈ ns, x.Lowers n) : x.Lowers (.many o m ns) := by
  intro a hs
  cases m with
  | alternate =>
    have hfinish : a + Line.extent (x.tables.alternatives a 0 ns) =
        a + Line.extent (x.tables.translate a (.many o .alternate ns)) :=
      congrArg (a + ·) (Draft.extent_alternatives x.tables a 0 _ ns)
    have hall := alternatives_matches ih hsimple hs hfinish (hfinish ▸ hs.finish)
    exact hall.of_le (Nat.le_refl _) hfinish
  | concatenate | group => exact sequence_matches ih a hs
  | testref | testgroup => exact hsimple.elim

/-- **The lines of a tree match as the tree does.** -/
theorem translate_matches (n : Node) (hsimple : n.Everywhere Node.Simple)
    (hnamed : n.Everywhere (Node.Named x.tables.numbers)) (hliterals : n.literals ⊆ x.tables.strings)
    (hclasses : n.classes ⊆ x.tables.classes) : x.Lowers n := by
  induction n with
  | leaf o l =>
    rw [Node.literals_leaf] at hliterals
    rw [Node.classes_leaf] at hclasses
    intro a hs
    exact leafLines_matches o l (Node.everywhere_leaf.mp hsimple) hliterals hclasses hs
  | wrap o w n ih =>
    obtain ⟨hw, hn⟩ := Node.everywhere_wrap.mp hsimple
    obtain ⟨hw', hn'⟩ := Node.everywhere_wrap.mp hnamed
    exact wrap_lowers hw hw' (ih hn hn' hliterals hclasses)
  | many o m ns ih =>
    obtain ⟨hm, hns⟩ := Node.everywhere_many.mp hsimple
    obtain ⟨-, hns'⟩ := Node.everywhere_many.mp hnamed
    rw [Node.literals_many] at hliterals
    rw [Node.classes_many] at hclasses
    refine many_lowers hm fun n hn => ih n hn (hns n hn) (hns' n hn) ?_ ?_
    · exact fun cs hcs => hliterals (List.mem_flatMap.mpr ⟨n, hn, hcs⟩)
    · exact fun k hk => hclasses (List.mem_flatMap.mpr ⟨n, hn, hk⟩)

end Trial

/-! ### Programs -/

theorem Node.Simple.shaped {n : Node} (h : n.Simple) : n.Shaped := by
  match n with
  | .leaf _ _ => trivial
  | .wrap _ _ _ => trivial
  | .many _ m _ =>
    cases m with
    | testref | testgroup => exact h.elim
    | _ => trivial

namespace Line

theorem length_le_extent (ls : List Line) : ls.length ≤ extent ls := by
  induction ls with
  | nil => exact Nat.le_refl 0
  | cons l ls ih =>
    have := l.size_pos
    rw [List.length_cons, extent_cons]
    omega

end Line

namespace Pattern

/-- All that the program of a pattern numbers can be numbered in 32 bits. -/
structure Small (p : Pattern) : Prop where
  words : p.code.words.size < 2 ^ 31
  groups : p.table.numbers.length < 2 ^ 31
  strings : p.code.strings.size < 2 ^ 31
  classes : p.code.classes.size < 2 ^ 31

/-- The lines of the tree of a pattern. -/
def body (p : Pattern) : List Line := (p.root.tables p.table.numbers).translate 2 p.root

/-- All lines but the last. -/
def front (p : Pattern) : List Line := { op := .lazybranch (2 + Line.extent p.body) } :: p.body

theorem lines_eq (p : Pattern) : p.lines = p.front ++ [{ op := .stop }] := rfl

theorem state_zero (p : Pattern) : Line.state p.lines 0 = .running 0 := rfl

variable {p : Pattern}

/-- A pattern, loaded, and a text. -/
def trial (p : Pattern) (hp : p.Small) (x : Subject) : Trial where
  routine := p.routine
  lines := p.lines
  tables := p.root.tables p.table.numbers
  subject := x
  last := Line.extent p.front
  loaded := p.routine_loaded
  strings := (Draft.ofRoot_tables p.table.numbers p.root).1
  classes := (Draft.ofRoot_tables p.table.numbers p.root).2
  numbers_le := Nat.le_of_lt_succ hp.groups
  strings_le := by
    rw [← (Draft.ofRoot_tables p.table.numbers p.root).1]
    exact Nat.le_of_lt_succ hp.strings
  classes_le := by
    rw [← (Draft.ofRoot_tables p.table.numbers p.root).2]
    exact Nat.le_of_lt_succ hp.classes

theorem body_length_lt (hp : p.Small) (hshaped : p.root.Everywhere Node.Shaped) : p.body.length < 2 ^ 31 := by
  have hwords := congrArg List.length (p.code_words hshaped hp.words)
  rw [Line.wordsOf_length, lines_eq, Line.extent_append, front, Line.extent_cons] at hwords
  have hsize : p.code.words.toList.length < 2 ^ 31 := hp.words
  have := Line.length_le_extent p.body
  omega

theorem runner_fits (hp : p.Small) (x : Subject) {pos : Nat} (hpos : x.Inside pos) :
    (p.trial hp x).Fits ⟨[], [], [], fun _ => []⟩ (x.runner p.table.numbers.length pos) where
  text := rfl
  beg := rfl
  finish := rfl
  start := rfl
  inside := hpos
  track := rfl
  marks := rfl
  crawl := rfl
  captures := .ofSlots p.table.numbers

/-- A run comes to the last line with the first outcome, or with nothing if there is none. -/
theorem trial_ends (hp : p.Small) (hsimple : p.root.Everywhere Node.Simple)
    (hnamed : p.root.Everywhere (Node.Named p.table.numbers)) (x : Subject) {pos : Nat}
    (hpos : x.Inside pos) :
    (p.trial hp x).Ends (.running 0) (x.runner p.table.numbers.length pos)
      ((p.root.outcomes x p.culture ⟨pos, fun _ => []⟩).foldr
        (fun s _ r => r.pos = s.pos ∧ r.captures.Logs p.table.numbers s.groups)
        fun r => r.captures.Logs p.table.numbers fun _ => []) := by
  have hfront : Line.Stands p.lines 0 p.front := ⟨[], _, p.lines_eq, List.cons_ne_nil _ _, rfl⟩
  have hlast : Line.Stands p.lines (2 + Line.extent p.body) [] := by
    have hfinish := hfront.finish
    rwa [Nat.zero_add] at hfinish
  have hlowers := Trial.translate_matches (x := p.trial hp x) p.root hsimple hnamed
    (fun cs hcs => List.mem_eraseDups.mpr hcs) (fun k hk => List.mem_eraseDups.mpr hk) 2 hfront.tail
  have hstate : MachineState.running 0 = (p.trial hp x).state 0 := p.state_zero.symm
  rw [hstate]
  refine Trial.lazybranch_ends (Q := fun r => r.captures.Logs p.table.numbers fun _ => []) hfront hlast
    (p.runner_fits hp x hpos) ?_ ?_
  · intro r hr _
    exact ⟨r, .refl _ r, hr.captures⟩
  · intro k r hk _ hgroups hr hpos' hQ
    refine hlowers ⟨pos, fun _ => []⟩ k hgroups ?_ _ _ r hr hpos' ?_ hQ
    · have hlength := p.body_length_lt hp (hsimple.imp fun n hn => hn.shaped)
      have hroom : 0 + (2 + 3 * p.body.length) < Word.modulus := by
        unfold Word.modulus
        omega
      refine Stacks.Room.after (w := 2) ⟨?_, ?_⟩ hk <;> exact hroom
    · intro k' r' _ _ _ hr' _
      exact ⟨r', .refl _ r', rfl, hr'.captures⟩

/-- **A match is the first outcome.** The run of a program of a simple tree in a group 0 comes to
its last line and ends there. Slot 0 has captured just when the tree has an outcome, and then the
position and all captures are those of the first one. -/
theorem attempt_finds_first (p : Pattern) {o : Options} {inner : Node}
    (hroot : p.root = .wrap o (.capture (some 0) none) inner)
    (hsimple : p.root.Everywhere Node.Simple)
    (hnamed : p.root.Everywhere (Node.Named p.table.numbers))
    (hzero : p.table.numbers.head? = some 0) (hp : p.Small) (x : Subject) {pos : Nat}
    (hpos : x.Inside pos) :
    ∃ program stop r, p.program = .ok program ∧
      (program.operations[stop]?.map Operation.op) = some .stop ∧
      (Routine.ofProgram program).Steps (.running 0) (x.runner p.table.numbers.length pos)
        (.running stop) r ∧
      (∃ budget, (Routine.ofProgram program).attempt budget (x.runner p.table.numbers.length pos) =
        .ok r) ∧
      (r.isMatched 0 = true ↔ p.root.outcomes x p.culture ⟨pos, fun _ => []⟩ ≠ []) ∧
      ∀ first ∈ (p.root.outcomes x p.culture ⟨pos, fun _ => []⟩).head?,
        r.pos = first.pos ∧ ∀ n ∈ p.table.numbers,
          r.captures.surviving (p.table.numbers.idxOf n) = .ok (first.groups n) := by
  have hshaped : p.root.Everywhere Node.Shaped := hsimple.imp fun n hn => hn.shaped
  have hprogram := (p.program_reads hshaped hp.words hp.groups).ok hnamed
  obtain ⟨r, hsteps, hr⟩ := p.trial_ends hp hsimple hnamed x hpos
  have hlast : (p.trial hp x).state (p.trial hp x).last = .running p.front.length :=
    Line.state_extent p.lines_eq
  rw [hlast] at hsteps
  have hstop : p.routine.step (.running p.front.length) r = .ok (.halted, r) := by
    rw [← Line.state_extent p.lines_eq]
    exact p.routine_loaded.step_stop p.lines_eq r
  refine ⟨_, p.front.length, r, hprogram, ?_, hsteps,
    (hsteps.trans (.step hstop (.refl _ r))).exists_run, ?_⟩
  · exact congrArg (Option.map Operation.op) (p.routine_loaded.getElem?_length p.lines_eq)
  · have hmem : 0 ∈ p.table.numbers := List.mem_of_head? hzero
    have hslot : p.table.numbers.idxOf 0 = 0 := by
      obtain ⟨ns, hns⟩ := List.head?_eq_some_iff.mp hzero
      rw [hns, List.idxOf_cons_self]
    cases hos : p.root.outcomes x p.culture ⟨pos, fun _ => []⟩ with
    | nil =>
      rw [hos] at hr
      have hmatched := Captures.Logs.isMatched_iff hr hmem
      rw [hslot] at hmatched
      exact ⟨iff_of_false (fun h => hmatched.mp h rfl) (fun h => h rfl), nofun⟩
    | cons first rest =>
      rw [hos] at hr
      obtain ⟨hend, hlogs⟩ := hr
      have hfirst : first.groups 0 ≠ [] := by
        have hin : first ∈ p.root.outcomes x p.culture ⟨pos, fun _ => []⟩ := by
          rw [hos]
          exact List.mem_cons_self ..
        rw [hroot] at hin
        obtain ⟨t, -, rfl⟩ := List.mem_map.mp hin
        exact Groups.record_ne_nil t.groups 0 _
      have hmatched := hlogs.isMatched_iff hmem
      rw [hslot] at hmatched
      refine ⟨iff_of_true (hmatched.mpr hfirst) (List.cons_ne_nil _ _), ?_⟩
      intro s hs
      obtain rfl := Option.some.inj hs
      exact ⟨hend, fun n hn => hlogs.surviving hn⟩

/-- The pattern `(a|)(?=b)b??`. -/
def lookahead : Pattern where
  root := .wrap {} (.capture (some 0) none) (.many {} .concatenate
    [.wrap {} (.capture (some 1) none) (.many {} .alternate [.leaf {} (.test (.one 'a')), .leaf {} .empty]),
      .wrap {} .require (.leaf {} (.test (.one 'b'))), .leaf {} (.span true (.one 'b') 0 1)])
  table := { groups := [(0, 0), (1, 0)] }
  options := {}
  culture := .invariant

theorem attempt_finds_first_lookahead :
    ∃ (x : Subject) (program : Program) (r : Runner), x.text = #['a', 'b'] ∧ x.Inside 0 ∧
      lookahead.Small ∧ lookahead.root.Everywhere Node.Simple ∧ lookahead.program = .ok program ∧
      (∃ budget, (Routine.ofProgram program).attempt budget (x.runner 2 0) = .ok r) ∧
      r.isMatched 0 = true ∧ r.pos = 1 ∧ r.captures.surviving 1 = .ok [(0, 1)] := by
  have hsmall : lookahead.Small := ⟨by decide +kernel, by decide, by decide +kernel, by decide +kernel⟩
  have hsimple : lookahead.root.Everywhere Node.Simple := by decide
  let x : Subject := ⟨#['a', 'b'], 0, 2, 0, by decide, by decide, by decide⟩
  have hinside : x.Inside 0 := by decide
  have hhead : (lookahead.root.outcomes x lookahead.culture ⟨0, fun _ => []⟩).head?.map
      (fun s => (s.pos, s.groups 1)) = some (1, [(0, 1)]) := by decide +kernel
  obtain ⟨first, hmem, hfirst⟩ := Option.map_eq_some_iff.mp hhead
  obtain ⟨hpos, hgroup⟩ := Prod.mk.inj hfirst
  obtain ⟨program, stop, r, hprogram, -, -, hrun, hmatched, hall⟩ :=
    attempt_finds_first lookahead rfl hsimple (by decide) rfl hsmall x hinside
  obtain ⟨hend, hcaptures⟩ := hall first hmem
  refine ⟨x, program, r, rfl, hinside, hsmall, hsimple, hprogram, hrun, ?_, hend.trans hpos, ?_⟩
  · refine hmatched.mpr fun hnil => ?_
    rw [hnil] at hmem
    cases hmem
  · rw [← hgroup]
    exact hcaptures 1 (by decide)

end Pattern

end PatternCompiler
