import PatternCompiler.Program.Lower
import PatternCompiler.Proofs.FirstCharacters
import PatternCompiler.Proofs.Scoping

/-! Everything in a pattern is read in the direction of what it stands in.

A part that reads characters, and a sequence, has the direction of the innermost lookaround
around it, or that of the whole pattern if there is none (`Node.Oriented`). Reduction and
repetition keep this. The reader keeps it because the direction changes only where a
lookaround begins, and comes back where it ends: the options saved at a group that is no
lookaround have its direction (`Frame.OrientedWithin`).

`Pattern.parse_oriented` states it of every tree that is read. A literal at the beginning of
every match stands outside of lookarounds, so a search for it goes in the direction of the
program. -/
namespace PatternCompiler

namespace Node

mutual

/-- What reads characters has the given direction, and so do the sequences; inside of a lookaround, its
direction. -/
def Oriented (rightToLeft : Bool) : Node → Prop
  | .leaf o l => l.consumes = true → o.rightToLeft = rightToLeft
  | .wrap o .require n => n.Oriented o.rightToLeft
  | .wrap o .prevent n => n.Oriented o.rightToLeft
  | .wrap _ _ n => n.Oriented rightToLeft
  | .many o kind ns => (kind = .concatenate → o.rightToLeft = rightToLeft) ∧ AllOriented rightToLeft ns

def AllOriented (rightToLeft : Bool) : List Node → Prop
  | [] => True
  | n :: ns => n.Oriented rightToLeft ∧ AllOriented rightToLeft ns

end

variable {n : Node} {ns : List Node} {o : Options} {d : Bool}

theorem allOriented_iff : AllOriented d ns ↔ ∀ n ∈ ns, n.Oriented d := by
  induction ns with
  | nil => simp [AllOriented]
  | cons n ns ih => simp [AllOriented, ih]

theorem oriented_many {kind : Many} :
    (many o kind ns).Oriented d ↔ (kind = .concatenate → o.rightToLeft = d) ∧ ∀ n ∈ ns, n.Oriented d := by
  rw [Oriented, allOriented_iff]

/-! ### Reduction -/

/-- A literal reads characters. -/
theorem Oriented.literal (hn : n.Oriented d) {cs : List Char} (hcs : n.literal? = some cs) :
    n.options.rightToLeft = d := by
  rcases literal?_cases hcs with ⟨c, heq, _⟩ | heq
  · rw [heq] at hn
    exact hn rfl
  · rw [heq] at hn
    exact hn rfl

/-- **Reduction keeps all directions.** -/
theorem oriented_robust (d : Bool) : Robust (Oriented d) := by
  refine ⟨fun o => by simp [Oriented, Leaf.consumes], fun o => by simp [Oriented, Leaf.consumes],
    fun o l hl => ?_, fun _ _ _ _ _ h _ => h rfl, fun n next m h hn => ?_, fun _ _ _ _ _ hn => hn,
    fun _ _ _ h => (oriented_many.mp h).2, fun _ _ _ _ _ h hms => oriented_many.mpr ⟨(oriented_many.mp h).1, hms⟩⟩
  · cases l with
    | test | span => exact fun _ => hl rfl
    | _ => exact hl
  · unfold absorb? at h
    split at h
    · split at h
      · rename_i a b ha hb
        cases h
        exact fun _ => hn.literal ha
      · cases h
    · cases h

end Node

/-! ### Open groups -/

/-- Only these groups have a direction of their own. -/
def GroupKind.isLookaround : GroupKind → Bool
  | .require => true
  | .prevent => true
  | _ => false

namespace Frame

/-- All that has been read of an open group has its direction. -/
structure Oriented (rightToLeft : Bool) (f : Frame) : Prop where
  sequence : f.seqOptions.rightToLeft = rightToLeft
  lookaround : f.kind.isLookaround = true → f.options.rightToLeft = rightToLeft
  branches : ∀ n ∈ f.branches.toList, n.Oriented rightToLeft
  parts : ∀ n ∈ f.parts.toList, n.Oriented rightToLeft

/-- The open groups from the inside out, with the options that were saved in them: only a lookaround
has another direction than the group around it, and the outermost group has the direction `whole`. -/
def OrientedWithin (whole rightToLeft : Bool) (f : Frame) : List Frame → List Options → Prop
  | [], [] => f.Oriented rightToLeft ∧ rightToLeft = whole ∧ f.kind = .capture (some 0) none
  | g :: outer, o :: saved =>
    f.Oriented rightToLeft ∧ (f.kind.isLookaround = false → rightToLeft = o.rightToLeft) ∧
      g.OrientedWithin whole o.rightToLeft outer saved
  | _, _ => False

variable {whole d : Bool} {f g : Frame} {outer : List Frame} {saved : List Options} {o : Options} {n : Node}

theorem OrientedWithin.oriented (h : f.OrientedWithin whole d outer saved) : f.Oriented d := by
  cases outer <;> cases saved
  · exact h.1
  · exact h.elim
  · exact h.elim
  · exact h.1

theorem OrientedWithin.replace (h : f.OrientedWithin whole d outer saved) (hg : g.Oriented d)
    (hkind : g.kind = f.kind) : g.OrientedWithin whole d outer saved := by
  cases outer <;> cases saved
  · exact ⟨hg, h.2.1, hkind.trans h.2.2⟩
  · exact h.elim
  · exact h.elim
  · exact ⟨hg, hkind ▸ h.2.1, h.2.2⟩

/-- The options to return to when the innermost group is closed. -/
theorem OrientedWithin.exists_saved (h : f.OrientedWithin whole d (g :: outer) saved) :
    ∃ o saved', saved = o :: saved' ∧ f.Oriented d ∧
      (f.kind.isLookaround = false → d = o.rightToLeft) ∧
      g.OrientedWithin whole o.rightToLeft outer saved' := by
  cases saved with
  | nil => exact h.elim
  | cons o saved => exact ⟨o, saved, rfl, h⟩

theorem opened_oriented (kind : GroupKind) (o : Options) : (opened kind o).Oriented o.rightToLeft :=
  ⟨rfl, fun _ => rfl, List.forall_mem_nil _, List.forall_mem_nil _⟩

theorem add_oriented (hf : f.Oriented d) (hn : n.Oriented d) : (f.add n).Oriented d :=
  ⟨hf.sequence, hf.lookaround, hf.branches, forall_mem_push hf.parts ((Node.oriented_robust _).reduce n hn)⟩

theorem sequence_oriented (hf : f.Oriented d) : f.sequence.Oriented d := by
  refine Node.oriented_many.mpr ⟨fun _ => hf.sequence, fun n hn => ?_⟩
  split at hn
  · exact hf.parts n (List.mem_reverse.mp hn)
  · exact hf.parts n hn

theorem pushBranch_oriented (hf : f.Oriented d) (hn : n.Oriented d) :
    { f with branches := f.branches.push n.reduce }.Oriented d :=
  ⟨hf.sequence, hf.lookaround, forall_mem_push hf.branches ((Node.oriented_robust _).reduce n hn), hf.parts⟩

theorem endBranch_oriented (hf : f.Oriented d) (ho : o.rightToLeft = d) : (f.endBranch o).Oriented d :=
  ⟨ho, hf.lookaround, (pushBranch_oriented hf (sequence_oriented hf)).branches, List.forall_mem_nil _⟩

/-- The tree of a finished group has the direction of the group around it, which is its own unless it is
a lookaround. -/
theorem node_oriented (hf : f.Oriented d) {d' : Bool} (hkind : f.kind.isLookaround = false → d = d') :
    f.node.Oriented d' := by
  have hbody : (Node.many f.options .alternate f.branches.toList).reduce.Oriented d :=
    (Node.oriented_robust _).reduce _ (Node.oriented_many.mpr ⟨by simp, hf.branches⟩)
  have hlookaround := hf.lookaround
  unfold node
  cases hk : f.kind with
  | require | prevent =>
    rw [hk] at hlookaround
    show Node.Oriented f.options.rightToLeft _
    rw [hlookaround rfl]
    exact hbody
  | capture | greedy =>
    rw [hk] at hkind
    exact hkind rfl ▸ hbody
  | plain =>
    rw [hk] at hkind
    exact Node.oriented_many.mpr ⟨by simp, List.forall_mem_singleton.mpr (hkind rfl ▸ hbody)⟩
  | testref | testgroup =>
    rw [hk] at hkind
    exact Node.oriented_many.mpr ⟨by simp, hkind rfl ▸ hf.branches⟩

theorem close?_oriented (hf : f.Oriented d) {d' : Bool} (hkind : f.kind.isLookaround = false → d = d')
    (ho : o.rightToLeft = d) (h : f.close? o = some n) : n.Oriented d' := by
  obtain ⟨rfl, _⟩ := close?_eq_some h
  exact node_oriented (endBranch_oriented hf ho) hkind

end Frame

/-! ### Readers -/

namespace Reader

/-- All that a reader holds has its direction, where that of the whole pattern is `whole`. -/
structure Oriented (whole : Bool) (r : Reader) : Prop where
  within : r.frame.OrientedWithin whole r.options.rightToLeft r.outer r.saved
  unit : ∀ n ∈ r.unit, n.Oriented r.options.rightToLeft

variable {whole : Bool} {r r' : Reader} {e : Setting}

theorem oriented_of_none (h : r.frame.OrientedWithin whole r.options.rightToLeft r.outer r.saved)
    (hunit : r.unit = none) : r.Oriented whole :=
  ⟨h, fun n hn => absurd (hn.symm.trans hunit) (Option.some_ne_none n)⟩

theorem start_oriented (pattern : List Char) (o : Options) : (start pattern o).Oriented o.rightToLeft :=
  oriented_of_none ⟨Frame.opened_oriented _ o, rfl, rfl⟩ rfl

theorem add_oriented (hr : r.Oriented whole) {n : Node} (hn : n.Oriented r.options.rightToLeft) :
    (r.add n).Oriented whole :=
  ⟨hr.within.replace (Frame.add_oriented hr.within.oriented hn) rfl, hr.unit⟩

theorem place_oriented (hr : r.Oriented whole) : r.place.Oriented whole := by
  unfold place
  split
  · exact oriented_of_none (add_oriented hr (hr.unit _ ‹_›)).within rfl
  · exact hr

theorem placeQuantified_oriented (hr : r.Oriented whole) (lazy : Bool) (min max : Nat) :
    (r.placeQuantified lazy min max).Oriented whole := by
  unfold placeQuantified
  split
  · exact oriented_of_none (add_oriented hr ((Node.oriented_robust _).quantify (hr.unit _ ‹_›) lazy min max)).within rfl
  · exact hr

theorem leaf_oriented (r : Reader) (l : Leaf) : (r.leaf l).Oriented r.options.rightToLeft := fun _ => rfl

theorem addRun_oriented (hr : r.Oriented whole) (run : List Char) : (r.addRun e run).Oriented whole := by
  unfold addRun
  split
  · exact hr
  · exact add_oriented hr (leaf_oriented r _)
  · exact add_oriented hr (leaf_oriented r _)

theorem addRunQuantified_oriented (hr : r.Oriented whole) (run : List Char) :
    (r.addRunQuantified e run).Oriented whole := by
  unfold addRunQuantified
  split
  · exact hr
  · have hrun := addRun_oriented (e := e) hr run.dropLast
    have hoptions := (addRun_sameScope e r run.dropLast).options
    refine ⟨hrun.within, ?_⟩
    rintro n ⟨⟩
    show Node.Oriented (r.addRun e run.dropLast).options.rightToLeft _
    rw [hoptions]
    exact leaf_oriented r _

theorem withUnit_oriented (hr : r.Oriented whole) (l : Leaf) : (r.withUnit l).Oriented whole := by
  refine ⟨hr.within, ?_⟩
  rintro n ⟨⟩
  exact leaf_oriented r l

theorem Oriented.move (hr : r.Oriented whole) (c : Cursor) : { r with cursor := c }.Oriented whole :=
  ⟨hr.within, hr.unit⟩

/-- A group is opened in the direction of its options. -/
theorem opened_oriented (hr : r.Oriented whole) {kind : GroupKind} {o : Options}
    (hkind : kind.isLookaround = false → o.rightToLeft = r.options.rightToLeft) :
    (Frame.opened kind o).OrientedWithin whole o.rightToLeft (r.frame :: r.outer) (r.options :: r.saved) :=
  ⟨Frame.opened_oriented kind o, hkind, hr.within⟩

theorem openGroup_oriented (hr : r.Oriented whole) (hunit : r.unit = none) (h : r.openGroup e = .ok r') :
    r'.Oriented whole := by
  obtain ⟨_, rfl⟩ | ⟨p, hopening, h⟩ := openGroup_cases h
  · unfold unmarked
    split <;> exact ⟨opened_oriented hr fun _ => rfl, hr.unit⟩
  have hdirection := Cursor.opening?_rightToLeft hopening
  obtain ⟨hkind, rfl⟩ | ⟨kind, hkind, rfl⟩ := h
  · have hsame : p.options.rightToLeft = r.options.rightToLeft := by
      rw [hkind] at hdirection
      simpa using hdirection
    refine oriented_of_none ?_ hunit
    show r.frame.OrientedWithin whole p.options.rightToLeft r.outer r.saved
    rw [hsame]
    exact hr.within
  · refine oriented_of_none (opened_oriented hr fun hno => ?_) hunit
    rw [hkind] at hdirection
    rcases hdirection with hsame | heq | heq
    · exact hsame
    · cases heq
      cases hno
    · cases heq
      cases hno

theorem closeGroup_oriented (hr : r.Oriented whole) (hunit : r.unit = none) (h : r.closeGroup = .ok r') :
    r'.Oriented whole := by
  obtain ⟨f, rest, n, houter, hn, h⟩ := closeGroup_cases h
  have hwithin := hr.within
  rw [houter] at hwithin
  obtain ⟨o, saved, hsaved, hframe, hkind, hf⟩ := hwithin.exists_saved
  have hnode := Frame.close?_oriented hframe hkind rfl hn
  simp only [restore, hsaved] at h
  obtain ⟨_, rfl⟩ | ⟨_, rfl⟩ := h
  · exact oriented_of_none (hf.replace (Frame.pushBranch_oriented hf.oriented hnode) rfl) hunit
  · exact ⟨hf, fun _ hm => Option.some.inj hm ▸ hnode⟩

theorem kept_oriented (e : Setting) (whole : Bool) : Kept e (Oriented whole) where
  move _ _ hr := ⟨hr.within, hr.unit⟩
  place hr := place_oriented hr
  placeQuantified lazy _ _ hr := placeQuantified_oriented hr lazy _ _
  addRun run hr := addRun_oriented hr run
  addRunQuantified run hr := addRunQuantified_oriented hr run
  withUnit _ hr := withUnit_oriented hr _
  endBranch hr := ⟨hr.within.replace (Frame.endBranch_oriented hr.within.oriented rfl) rfl, hr.unit⟩
  openGroup hunit h hr := openGroup_oriented hr hunit h
  closeGroup hunit h hr := closeGroup_oriented hr hunit h

/-- **Reading keeps all directions.** -/
theorem run_oriented {rounds : Nat} (hr : r.Oriented whole) (hunit : r.unit = none)
    (h : run e rounds r = .ok r') : r'.Oriented whole :=
  ((kept_oriented e whole).run hr hunit h).1

theorem finish_oriented (hr : r.Oriented whole) {n : Node} (h : r.finish = .ok n) : n.Oriented whole := by
  unfold finish at h
  split at h
  · cases h
  rename_i houter
  have hwithin := hr.within
  rw [houter] at hwithin
  split at h
  · cases h
  cases h
  cases hsaved : r.saved with
  | cons o saved =>
    rw [hsaved] at hwithin
    exact hwithin.elim
  | nil =>
    rw [hsaved] at hwithin
    obtain ⟨hframe, hwhole, _⟩ := hwithin
    exact Frame.close?_oriented hframe (fun _ => hwhole) rfl ‹_›

end Reader

/-! ### Whole patterns -/

namespace Lead

/-- A literal that a leaf begins with has the direction of the leaf, which reads characters. -/
theorem findLeaf_found {o : Options} {l : Leaf} {lead : Lead} (h : findLeaf o l = .found lead) :
    l.consumes = true ∧ lead.rightToLeft = o.rightToLeft := by
  cases l with
  | test t =>
    cases t with
    | one c =>
      cases h
      exact ⟨rfl, rfl⟩
    | _ => cases h
  | span lazy t min max =>
    cases t with
    | one c =>
      by_cases hmin : min = 0
      · cases (if_pos hmin).symm.trans h
      · cases (if_neg hmin).symm.trans h
        exact ⟨rfl, rfl⟩
    | _ => cases h
  | multi cs =>
    cases h
    exact ⟨rfl, rfl⟩
  | assertion a =>
    cases ha : a.anchor?.isSome with
    | true => cases (if_pos ha).symm.trans h
    | false => cases (if_neg (Bool.not_eq_true _ ▸ ha)).symm.trans h
  | _ => cases h

theorem Find.alone_found {f : Find} {lead : Lead} (h : f.alone = .found lead) : f = .found lead := by
  cases f
  · exact h
  · cases h
  · cases h

theorem Find.gather_found {fs : List Find} {lead : Lead} (h : gather fs = .found lead) :
    .found lead ∈ fs := by
  induction fs with
  | nil => cases h
  | cons f fs ih =>
    cases f with
    | pass => exact List.mem_cons_of_mem _ (ih h)
    | found l =>
      cases h
      exact List.mem_cons_self
    | blocked => cases h

end Lead

namespace Node

theorem findLeads_eq_map (ns : List Node) : findLeads ns = ns.map findLead := by
  induction ns with
  | nil => rfl
  | cons n ns ih => rw [findLeads, ih, List.map_cons]

/-- The literal that every match begins with has the direction of the tree. -/
theorem findLead_oriented {d : Bool} {lead : Lead} (n : Node) (hn : n.Oriented d)
    (h : n.findLead = .found lead) : lead.rightToLeft = d := by
  induction n with
  | leaf o l =>
    rw [findLead] at h
    obtain ⟨hconsumes, hdirection⟩ := Lead.findLeaf_found h
    exact hdirection.trans (hn hconsumes)
  | wrap o w n ih =>
    cases w with
    | capture | greedy => exact ih hn (Lead.Find.alone_found (by simpa [findLead] using h))
    | _ => simp [findLead] at h
  | many o kind ns ih =>
    cases kind with
    | concatenate =>
      rw [findLead, findLeads_eq_map] at h
      obtain ⟨n, hmem, hfound⟩ := List.mem_map.mp (Lead.Find.gather_found h)
      exact ih n hmem ((oriented_many.mp hn).2 n hmem) hfound
    | _ => simp [findLead] at h

end Node

namespace Cursor

variable {t : GroupTable} {o : Options} {c c' : Cursor} {p : Opening} {kind : GroupKind}

theorem captureName_isLookaround {close : Char} (h : captureName t close c = .ok (kind, c')) :
    kind.isLookaround = false := by
  obtain ⟨⟨number, noName, c₁⟩, _, h⟩ := exists_ok_of_bind h
  obtain ⟨⟨uncapture, c₂⟩, _, h⟩ := exists_ok_of_bind h
  dsimp only at h
  split at h
  · split at h
    · cases h
    · split at h <;> cases h
      rfl
  · cases h

/-- **How a lookaround is written tells its direction**: one that looks behind has a less-than sign. -/
theorem opening?_lookaround (h : c.opening? t o = .ok (some p)) (hkind : p.kind = some kind)
    (hlookaround : kind.isLookaround = true) :
    ∃ mark, (mark = '=' ∨ mark = '!') ∧ c.rest =
      if p.options.rightToLeft then '?' :: '<' :: mark :: p.cursor.rest else '?' :: mark :: p.cursor.rest := by
  obtain ⟨rest, hrest, _, hmarked⟩ := opening?_marked h
  cases hmarked with
  | lookahead hc hmark | lookbehind hc hmark =>
    simp only at hc
    rw [hrest, hc]
    exact ⟨_, hmark.imp And.left And.left, rfl⟩
  | group _ hmark =>
    cases hkind
    rcases hmark with ⟨_, rfl⟩ | ⟨_, rfl⟩ <;> cases hlookaround
  | named _ _ hname =>
    cases hkind
    rw [captureName_isLookaround hname] at hlookaround
    cases hlookaround
  | flags _ _ hclose =>
    rcases hclose with ⟨_, rfl⟩ | ⟨_, rfl⟩ <;> cases hkind
    cases hlookaround
  | _ =>
    cases hkind
    cases hlookaround

end Cursor

theorem Code.program_code {c : Code} {program : Program} (h : c.program = .ok program) : program.code = c := by
  unfold Code.program at h
  cases hoperations : c.operations with
  | error fault =>
    rw [hoperations] at h
    cases h
  | ok ops =>
    rw [hoperations] at h
    cases h
    rfl

namespace Pattern

variable {text : String} {o : Options} {culture : Culture} {p : Pattern}

/-- The literal that a search looks for has the direction of the program. -/
theorem code_lead_rightToLeft (hroot : p.root.Oriented p.rightToLeft) {l : Lead} (h : p.code.lead = some l) :
    l.rightToLeft = p.code.rightToLeft := by
  have hhints : p.startHints.2 = some l := h
  unfold startHints at hhints
  split at hhints
  · rename_i lead hlead
    split at hhints
    · cases hhints
      refine Node.findLead_oriented p.root hroot ?_
      unfold Node.lead? Lead.Find.lead? at hlead
      split at hlead
      · cases hlead
        assumption
      · cases hlead
    · cases hhints
  · cases hhints

/-- **What reads characters goes in the direction of the innermost lookaround around it**, which is told by how
that is written, or in that of the pattern; and a search for a literal goes in the direction of the
program. -/
theorem parse_oriented (h : parse text o culture = .ok p) :
    (p.rightToLeft = o.rightToLeft ∧ p.root.Oriented p.rightToLeft) ∧
      (∀ t o' c opening kind, Cursor.opening? t o' c = .ok (some opening) → opening.kind = some kind →
        kind.isLookaround = true → ∃ mark, (mark = '=' ∨ mark = '!') ∧ c.rest =
          if opening.options.rightToLeft then '?' :: '<' :: mark :: opening.cursor.rest
          else '?' :: mark :: opening.cursor.rest) ∧
      ∀ program, p.program = .ok program → ∀ l, program.code.lead = some l →
        l.rightToLeft = program.code.rightToLeft := by
  obtain ⟨culture', hread⟩ := parse_read h
  obtain ⟨table, _, hread⟩ := exists_ok_of_bind hread
  obtain ⟨r, hrun, hread⟩ := exists_ok_of_bind hread
  obtain ⟨root, hfinish, hread⟩ := exists_ok_of_bind hread
  cases hread
  have hr := Reader.run_oriented (Reader.start_oriented text.toList o) rfl hrun
  have hroot := Reader.finish_oriented hr hfinish
  refine ⟨⟨rfl, hroot⟩, fun _ _ _ _ _ => Cursor.opening?_lookaround, fun program hprogram l hl => ?_⟩
  rw [Code.program_code hprogram] at hl ⊢
  exact code_lead_rightToLeft (p := ⟨root, table, o, culture'⟩) hroot hl

theorem parse_oriented_lookbehind :
    ∃ p program l, parse "(?<=a(?=b))cd" { rightToLeft := true } .invariant = .ok p ∧
      p.root.Oriented true ∧ p.program = .ok program ∧ program.code.lead = some l ∧ l.rightToLeft = true := by
  obtain ⟨p, hp, hcheck⟩ := exists_ok_of_check (parse "(?<=a(?=b))cd" { rightToLeft := true } .invariant)
    (fun p => p.program.toOption.any fun program => program.code.lead.isSome) (by decide +kernel)
  obtain ⟨program, hprogram, hlead⟩ := exists_ok_of_check p.program _ hcheck
  obtain ⟨l, hl⟩ := Option.isSome_iff_exists.mp hlead
  obtain ⟨⟨hdirection, hroot⟩, -, hsearch⟩ := parse_oriented hp
  have hcode : program.code.rightToLeft = p.rightToLeft := by
    rw [Code.program_code hprogram]
    rfl
  rw [hdirection] at hcode hroot
  exact ⟨p, program, l, hp, hroot, hprogram, hl, (hsearch program hprogram l hl).trans hcode⟩

end Pattern

end PatternCompiler
