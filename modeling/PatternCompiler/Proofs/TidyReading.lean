import PatternCompiler.Proofs.Acceptance
import PatternCompiler.Proofs.NormalForm

/-! Every pattern that is read has a tidy tree.

A part is reduced when it is put into its group, so the parts of all open groups are
tidy, and so are their finished alternatives (`Frame.Neat`). The sequences among them
have the direction of their group. A lookaround is the only group whose direction may
differ from that of the group around it, and it is no sequence itself; this is why a
group closes under the options that were saved when it was opened (`Frame.NeatWithin`).

`Reader.run_neat` carries this over a whole reading, and `Pattern.parse_tidy` is what
follows for the tree. -/
namespace PatternCompiler

/-! ### What is read -/

namespace Options

theorem ofInlineFlag?_rightToLeft {ch : Char} {flag : Options} (h : ofInlineFlag? ch = some flag) :
    flag.rightToLeft = false := by
  unfold ofInlineFlag? at h
  split at h <;> cases h <;> rfl

theorem set_rightToLeft {flag : Options} (h : flag.rightToLeft = false) (o : Options) (on : Bool) :
    (o.set flag on).rightToLeft = o.rightToLeft := by
  cases on <;> simp [set, union, difference, zipWith, h]

end Options

namespace Cursor

variable {c c' : Cursor} {o : Options}

/-- No flag changes the direction. -/
theorem flagsFrom_rightToLeft (cs : List Char) (o : Options) (on : Bool) (pos : Nat) :
    (flagsFrom o on pos cs).1.rightToLeft = o.rightToLeft := by
  induction cs generalizing o on pos with
  | nil => rfl
  | cons ch rest ih =>
    rw [flagsFrom]
    split
    · exact ih ..
    split
    · exact ih ..
    split
    · rename_i flag hflag
      exact (ih ..).trans (Options.set_rightToLeft (Options.ofInlineFlag?_rightToLeft hflag) o on)
    · rfl

/-- Only a lookaround changes the direction. -/
theorem opening?_rightToLeft {t : GroupTable} {p : Opening} (h : c.opening? t o = .ok (some p)) :
    p.options.rightToLeft = o.rightToLeft ∨ p.kind = some .require ∨ p.kind = some .prevent := by
  obtain ⟨rest, _, _, hmarked⟩ := opening?_marked h
  cases hmarked with
  | lookahead _ hmark | lookbehind _ hmark =>
    exact .inr (hmark.imp (congrArg some ·.2) (congrArg some ·.2))
  | flags => exact .inl (flagsFrom_rightToLeft ..)
  | _ => exact .inl rfl

/-- A class in brackets makes a tidy test. -/
theorem bracket_tidy {m : BracketMode} {k : CharClass} (h : c.bracket m = .ok (k, c')) :
    (Node.leaf o (.test (.set k))).reduce.TidyAt := by
  obtain ⟨⟨levels, c₁⟩, _, h⟩ := exists_ok_of_bind h
  obtain ⟨c₂, _, h⟩ := exists_ok_of_bind h
  cases h
  refine Node.simplifyTest_tidy fun k hk => ?_
  cases hk
  exact CharClass.resolveChain_nearlyAscending levels

theorem backslash_tidy {e : Setting} {l : Leaf} (h : c.backslash e o = .ok (l, c')) :
    (Node.leaf o l).reduce.TidyAt := by
  have hclass (level : CharClass.Level) :
      (Node.leaf o (.test (.set (CharClass.resolveChain [level])))).reduce.TidyAt := by
    refine Node.simplifyTest_tidy fun k hk => ?_
    cases hk
    exact CharClass.resolveChain_nearlyAscending [level]
  unfold backslash at h
  split at h
  · cases h
  dsimp only at h
  split at h
  · cases h
    trivial
  split at h
  · cases h
    exact hclass _
  split at h
  · obtain ⟨⟨k, c₁⟩, _, h⟩ := exists_ok_of_bind h
    cases h
    exact hclass _
  · obtain ⟨found, _, h⟩ := exists_ok_of_bind h
    split at h
    · cases h
      trivial
    · obtain ⟨⟨ch, c₁⟩, _, h⟩ := exists_ok_of_bind h
      cases h
      trivial

theorem decimalFrom_le {n pos m : Nat} {cs : List Char} (hn : n ≤ unbounded)
    (h : decimalFrom n pos cs = .ok (m, c)) : m ≤ unbounded := by
  induction cs generalizing n pos with
  | nil =>
    cases h
    exact hn
  | cons d rest ih =>
    rw [decimalFrom] at h
    split at h
    · dsimp only at h
      split at h
      · exact ih ‹_› h
      · cases h
    · cases h
      exact hn

theorem decimal_le {n : Nat} (h : c.decimal = .ok (n, c')) : n ≤ unbounded :=
  decimalFrom_le (Nat.zero_le _) h

theorem countMax_le {start min max : Nat} (hmin : min ≤ unbounded)
    (h : countMax start min c = .ok (max, c')) : max ≤ unbounded := by
  unfold countMax at h
  split at h
  · split at h
    · split at h
      · cases h
        exact Nat.le_refl _
      · cases h
        exact Nat.le_refl _
      · exact decimal_le h
    · cases h
      exact hmin
  · cases h
    exact hmin

/-- No quantifier asks for more than an unbounded one. -/
theorem bounds?_le {min max : Nat} (h : c.bounds? = .ok (some (min, max, c'))) : max ≤ unbounded := by
  unfold bounds? at h
  split at h
  · cases h
    exact Nat.le_refl _
  · cases h
    decide
  · cases h
    exact Nat.le_refl _
  · obtain ⟨⟨min', c₁⟩, hmin, h⟩ := exists_ok_of_bind h
    obtain ⟨⟨max', c₂⟩, hmax, h⟩ := exists_ok_of_bind h
    dsimp only at h
    split at h
    · cases h
    split at h
    · cases h
      exact countMax_le (decimal_le hmin) hmax
    · cases h
  · cases h

end Cursor

/-! ### Open groups -/

namespace Frame

/-- The trees of an open group are tidy and have its direction. -/
structure Neat (rightToLeft : Bool) (f : Frame) : Prop where
  direction : f.seqOptions.rightToLeft = rightToLeft
  branches : ∀ n ∈ f.branches.toList, n.Neat rightToLeft
  parts : ∀ n ∈ f.parts.toList, n.Neat rightToLeft

/-- The open groups from the inside out are neat, each in the direction of the options that were saved
in it. A plain group, which will be replaced by what it holds, has the direction of the one around it,
and the outermost group is the whole match. -/
def NeatWithin (rightToLeft : Bool) (f : Frame) : List Frame → List Options → Prop
  | [], [] => f.Neat rightToLeft ∧ f.kind = .capture (some 0) none
  | g :: outer, o :: saved =>
    f.Neat rightToLeft ∧ (f.kind = .plain → rightToLeft = o.rightToLeft) ∧
      g.NeatWithin o.rightToLeft outer saved
  | _, _ => False

variable {d : Bool} {f g : Frame} {outer : List Frame} {saved : List Options} {o : Options} {n : Node}

theorem NeatWithin.neat (h : f.NeatWithin d outer saved) : f.Neat d := by
  match outer, saved, h with
  | [], [], h => exact h.1
  | _ :: _, _ :: _, h => exact h.1

theorem NeatWithin.replace (h : f.NeatWithin d outer saved) (hg : g.Neat d) (hkind : g.kind = f.kind) :
    g.NeatWithin d outer saved := by
  match outer, saved, h with
  | [], [], h => exact ⟨hg, hkind.trans h.2⟩
  | _ :: _, _ :: _, h => exact ⟨hg, hkind ▸ h.2.1, h.2.2⟩

/-- The options to return to when the innermost group is closed. -/
theorem NeatWithin.exists_saved (h : f.NeatWithin d (g :: outer) saved) :
    ∃ o saved', saved = o :: saved' ∧ f.Neat d ∧ (f.kind = .plain → d = o.rightToLeft) ∧
      g.NeatWithin o.rightToLeft outer saved' := by
  match saved, h with
  | o :: saved', h => exact ⟨o, saved', rfl, h⟩

/-- The outermost group is the whole match. -/
theorem NeatWithin.whole (h : f.NeatWithin d [] saved) : f.kind = .capture (some 0) none := by
  match saved, h with
  | [], h => exact h.2

/-- There are as many options to return to as groups to close. -/
theorem NeatWithin.length_eq (h : f.NeatWithin d outer saved) : saved.length = outer.length := by
  induction outer generalizing f d saved with
  | nil =>
    match saved, h with
    | [], _ => rfl
  | cons g outer ih =>
    obtain ⟨o, saved', rfl, _, _, hg⟩ := h.exists_saved
    exact congrArg Nat.succ (ih hg)

theorem opened_neat (kind : GroupKind) (o : Options) : (opened kind o).Neat o.rightToLeft :=
  ⟨rfl, fun _ hn => absurd hn List.not_mem_nil, fun _ hn => absurd hn List.not_mem_nil⟩

theorem add_neat (hf : f.Neat d) (hn : n.reduce.Neat d) : (f.add n).Neat d :=
  ⟨hf.direction, hf.branches, forall_mem_push hf.parts hn⟩

theorem sequence_neat (hf : f.Neat d) : f.sequence.reduce.Neat d := by
  have hparts := hf.parts
  rw [← hf.direction] at hparts ⊢
  refine Node.reduce_concatenate_neat fun n hn => ?_
  split at hn
  · exact hparts n (List.mem_reverse.mp hn)
  · exact hparts n hn

theorem pushBranch_neat (hf : f.Neat d) (hn : n.reduce.Neat d) :
    { f with branches := f.branches.push n.reduce }.Neat d :=
  ⟨hf.direction, forall_mem_push hf.branches hn, hf.parts⟩

theorem endBranch_neat (hf : f.Neat d) (ho : o.rightToLeft = d) : (f.endBranch o).Neat d :=
  ⟨ho, (pushBranch_neat hf (sequence_neat hf)).branches, fun _ hn => absurd hn List.not_mem_nil⟩

/-- The tree of a finished group fits into the group around it, whose direction is `d'`. -/
theorem node_neat (hf : f.Neat d) {d' : Bool} (hkind : f.kind = .plain → d = d')
    (hmin : 0 < f.branches.size) (hmax : ∀ limit ∈ f.limit?, f.branches.size ≤ limit) :
    f.node.reduce.Neat d' := by
  have hbody : (Node.many f.options .alternate f.branches.toList).reduce.Neat d :=
    Node.reduce_alternate_neat (fun hnil => by simp [Array.toList_eq_nil_iff.mp hnil] at hmin) hf.branches
  have hbranches : ∀ n ∈ f.branches.toList, n.Everywhere Node.TidyAt := fun n hn => (hf.branches n hn).tidy
  unfold node
  cases hk : f.kind with
  | plain =>
    rw [← hkind hk]
    exact Node.reduce_group_neat hbody
  | testref n =>
    have hsize := hmax 2 (by rw [limit?, hk]; rfl)
    exact ⟨Node.everywhere_many.mpr ⟨⟨hmin, hsize⟩, hbranches⟩,
      Node.along_of_kind (by simp [Node.reduce, Node.kind?])⟩
  | testgroup =>
    have hsize := hmax 3 (by rw [limit?, hk]; rfl)
    exact ⟨Node.everywhere_many.mpr ⟨⟨hmin, hsize⟩, hbranches⟩,
      Node.along_of_kind (by simp [Node.reduce, Node.kind?])⟩
  | _ => exact Node.wrap_neat trivial hbody.tidy

theorem close?_neat (hf : f.Neat d) {d' : Bool} (hkind : f.kind = .plain → d = d')
    (ho : o.rightToLeft = d) (h : f.close? o = some n) : n.reduce.Neat d' := by
  obtain ⟨rfl, hmax⟩ := close?_eq_some h
  refine node_neat (endBranch_neat hf ho) hkind ?_ hmax
  rw [endBranch, Array.size_push]
  exact Nat.succ_pos _

end Frame

/-! ### Readers -/

namespace Reader

/-- All trees that a reader holds are neat. -/
structure Neat (r : Reader) : Prop where
  within : r.frame.NeatWithin r.options.rightToLeft r.outer r.saved
  unit : ∀ n ∈ r.unit, n.reduce.Neat r.options.rightToLeft

variable {r r' : Reader} {e : Setting}

theorem start_neat (pattern : List Char) (o : Options) : (start pattern o).Neat :=
  ⟨⟨Frame.opened_neat _ o, rfl⟩, nofun⟩

theorem neat_of_none (h : r.frame.NeatWithin r.options.rightToLeft r.outer r.saved) (hunit : r.unit = none) :
    r.Neat :=
  ⟨h, fun _ hn => nomatch hunit.symm.trans hn⟩

theorem add_neat (hr : r.Neat) {n : Node} (hn : n.reduce.Neat r.options.rightToLeft) : (r.add n).Neat :=
  ⟨hr.within.replace (Frame.add_neat hr.within.neat hn) rfl, hr.unit⟩

theorem place_neat (hr : r.Neat) : r.place.Neat := by
  unfold place
  split
  · exact ⟨(add_neat hr (hr.unit _ ‹_›)).within, nofun⟩
  · exact hr

theorem placeQuantified_neat (hr : r.Neat) (lazy : Bool) {min max : Nat} (hle : min ≤ max)
    (hmax : max ≤ unbounded) : (r.placeQuantified lazy min max).Neat := by
  unfold placeQuantified
  split
  · exact ⟨(add_neat hr (Node.quantify_neat (hr.unit _ ‹_›) lazy hle hmax)).within, nofun⟩
  · exact hr

theorem addRun_neat (hr : r.Neat) (run : List Char) : (r.addRun e run).Neat := by
  unfold addRun
  split
  · exact hr
  · exact add_neat hr (Node.leaf_neat trivial)
  · rename_i hnil hone
    refine add_neat hr (Node.leaf_neat ?_)
    match run, hnil, hone with
    | [], hnil, _ => exact absurd rfl hnil
    | [c], _, hone => exact absurd rfl (hone _)
    | _ :: _ :: rest, _, _ =>
      show 2 ≤ List.length (_ :: _ :: rest.map _)
      exact Nat.le_add_left 2 _

theorem addRunQuantified_neat (hr : r.Neat) (run : List Char) : (r.addRunQuantified e run).Neat := by
  unfold addRunQuantified
  split
  · exact hr
  · have hrun := addRun_neat (e := e) hr run.dropLast
    refine ⟨hrun.within, ?_⟩
    rintro n ⟨⟩
    exact Node.leaf_neat trivial

theorem withUnit_neat (hr : r.Neat) {l : Leaf} (hl : (Node.leaf r.options l).reduce.TidyAt) :
    (r.withUnit l).Neat := by
  refine ⟨hr.within, ?_⟩
  rintro n ⟨⟩
  show (Node.leaf r.options l).reduce.Neat _
  cases l <;> exact Node.leaf_neat hl

/-- A group is opened in the direction of its options. -/
theorem opened_neat (hr : r.Neat) {kind : GroupKind} {o : Options}
    (hkind : kind = .plain → o.rightToLeft = r.options.rightToLeft) :
    (Frame.opened kind o).NeatWithin o.rightToLeft (r.frame :: r.outer) (r.options :: r.saved) :=
  ⟨Frame.opened_neat kind o, hkind, hr.within⟩

theorem openGroup_neat (hr : r.Neat) (hunit : r.unit = none) (h : r.openGroup e = .ok r') :
    r'.Neat := by
  obtain ⟨_, rfl⟩ | ⟨p, hopening, h⟩ := openGroup_cases h
  · unfold unmarked
    split
    · exact ⟨opened_neat hr fun _ => rfl, hr.unit⟩
    · exact ⟨opened_neat hr nofun, hr.unit⟩
  have hdirection := Cursor.opening?_rightToLeft hopening
  obtain ⟨hkind, rfl⟩ | ⟨kind, hkind, rfl⟩ := h
  · have hsame : p.options.rightToLeft = r.options.rightToLeft := by
      rw [hkind] at hdirection
      simpa using hdirection
    refine neat_of_none ?_ hunit
    show r.frame.NeatWithin p.options.rightToLeft r.outer r.saved
    rw [hsame]
    exact hr.within
  · refine neat_of_none (opened_neat hr fun hplain => ?_) hunit
    rw [hkind, hplain] at hdirection
    simpa using hdirection

theorem closeGroup_neat (hr : r.Neat) (hunit : r.unit = none) (h : r.closeGroup = .ok r') : r'.Neat := by
  obtain ⟨f, rest, n, houter, hn, h⟩ := closeGroup_cases h
  have hwithin := hr.within
  rw [houter] at hwithin
  obtain ⟨o, saved, hsaved, hframe, hkind, hf⟩ := hwithin.exists_saved
  have hnode := Frame.close?_neat hframe hkind rfl hn
  simp only [restore, hsaved] at h
  obtain ⟨_, rfl⟩ | ⟨_, rfl⟩ := h
  · exact neat_of_none (hf.replace (Frame.pushBranch_neat hf.neat hnode) rfl) hunit
  · exact ⟨hf, fun _ hm => Option.some.inj hm ▸ hnode⟩

theorem kept_neat (e : Setting) : Kept e Neat where
  move _ _ hr := ⟨hr.within, hr.unit⟩
  place hr := place_neat hr
  placeQuantified lazy hle hread hr := placeQuantified_neat hr lazy hle (Cursor.bounds?_le hread)
  addRun run hr := addRun_neat hr run
  addRunQuantified run hr := addRunQuantified_neat hr run
  withUnit hl hr := by
    refine withUnit_neat hr ?_
    cases hl with
    | bracket h => exact Cursor.bracket_tidy h
    | backslash h => exact Cursor.backslash_tidy h
    | assertion a => trivial
    | any singleline =>
      refine Node.simplifyTest_tidy fun k hk => ?_
      split at hk
      · cases hk
        exact CharClass.any_nearlyAscending
      · cases hk
  endBranch hr := ⟨hr.within.replace (Frame.endBranch_neat hr.within.neat rfl) rfl, hr.unit⟩
  openGroup hunit h hr := openGroup_neat hr hunit h
  closeGroup hunit h hr := closeGroup_neat hr hunit h

/-- **Reading keeps all trees neat**, and puts each part into its group before the next one. -/
theorem run_neat {rounds : Nat} (hr : r.Neat) (hunit : r.unit = none) (h : run e rounds r = .ok r') :
    r'.Neat ∧ r'.unit = none :=
  (kept_neat e).run hr hunit h

theorem finish_neat (hr : r.Neat) {o : Options} {body : Node}
    (h : r.finish = .ok (.wrap o (.capture (some 0) none) body)) : body.Everywhere Node.TidyAt := by
  unfold finish at h
  split at h
  · cases h
  rename_i houter
  have hwithin := hr.within
  rw [houter] at hwithin
  split at h
  · cases h
  cases h
  have hroot := Frame.close?_neat hwithin.neat (fun _ => rfl) rfl ‹_›
  exact (Node.everywhere_wrap.mp hroot.tidy).2

end Reader

namespace Pattern

variable {text : String} {o : Options} {culture : Culture} {p : Pattern}

/-- **Every pattern that is read has a tidy tree**, which is the whole match around its body. -/
theorem parse_tidy (h : parse text o culture = .ok p) :
    ∃ o' body, p.root = .wrap o' (.capture (some 0) none) body ∧ p.root.Everywhere Node.TidyAt := by
  obtain ⟨culture', hread⟩ := parse_read h
  obtain ⟨_, r, hrun, hfinish, hholds⟩ := read_sound hread
  obtain ⟨o', body, hroot, _⟩ := read_root hread hfinish hholds
  obtain ⟨hneat, _⟩ := Reader.run_neat (Reader.start_neat text.toList o) rfl hrun
  rw [hroot] at hfinish ⊢
  exact ⟨o', body, rfl, Node.everywhere_wrap.mpr ⟨trivial, Reader.finish_neat hneat hfinish⟩⟩

theorem parse_tidy_lookbehind :
    ∃ p, parse "(a|(?<=bc+)[^q])(?(1)x|(?i:[u-w]|y))" {} .invariant = .ok p ∧
      ∃ o' body, p.root = .wrap o' (.capture (some 0) none) body ∧ p.root.Everywhere Node.TidyAt := by
  obtain ⟨p, hp, _⟩ := exists_ok_of_check
    (parse "(a|(?<=bc+)[^q])(?(1)x|(?i:[u-w]|y))" {} .invariant) (fun _ => true) (by decide +kernel)
  exact ⟨p, hp, parse_tidy hp⟩

/-- All characters but `a`, in three ranges. -/
def allButA : CharClass :=
  ⟨#[⟨Char.ofNat 0, '`'⟩, ⟨'b', '\uD7FF'⟩, ⟨'\uE000', Scalar.top⟩]⟩

theorem contains_allButA (d : Char) : allButA.contains d = true ↔ d ≠ 'a' := by
  have hzero := Scalar.toNat_zero
  have htop := Scalar.toNat_top
  have hordered : CharClass.Ordered allButA.ranges.toList := by
    constructor
    · simp [allButA, CharRange.Proper, htop]
    · simp [allButA]
  have hvalid := Scalar.toNat_valid d
  rw [CharClass.contains_iff hordered, ne_eq, ← Char.toNat_inj]
  simp only [allButA, CharClass.has_cons, CharClass.has_nil, CharRange.contains_iff, or_false, hzero, htop,
    Char.reduceToNat]
  omega

/-- A range up to U+D7FF and one from U+E000 on are not joined, so that a class of all characters but
one is not recognised. -/
theorem parse_surrogates :
    ∃ p o' k, parse ("[\\0-`b-\\uD7FF\\uE000-" ++ String.singleton Scalar.top ++ "]") {} .invariant = .ok p ∧
      .leaf o' (.test (.set k)) ∈ p.root.subtrees ∧ ∀ d, k.contains d = true ↔ d ≠ 'a' := by
  obtain ⟨p, hp, hcheck⟩ := exists_ok_of_check
    (parse ("[\\0-`b-\\uD7FF\\uE000-" ++ String.singleton Scalar.top ++ "]") {} .invariant)
    (fun p => decide (.test (.set allButA) ∈ p.root.leaves)) (by cbv)
  obtain ⟨o', hmem⟩ := Node.mem_leaves.mp (of_decide_eq_true hcheck)
  exact ⟨p, o', allButA, hp, hmem, contains_allButA⟩

end Pattern

end PatternCompiler
