import PatternCompiler.Proofs.Orientation
import PatternCompiler.Proofs.Skipping

/-! Every match begins with the literal of its pattern.

A literal `Begins` at a position if the text next to the position is the literal, in the
literal's own direction and case mode. What a part of a tree says about the literal is
right about each match of the part (`Node.findLead_tells`): a literal that is found begins
where the match does, and a part that is passed over does not move. A literal is found at a
leaf, which gives it some of its characters and no more than are kept
(`Node.exists_leaf_of_findLead`, `Lead.size_of_findLeaf`). `Node.lead_sound` puts the two
together. -/
namespace PatternCompiler

namespace Lead

variable {l : Lead} {x : Subject} {k : Culture} {o : Options} {pos : Nat}

/-- The text next to a position is the literal. -/
def Begins (l : Lead) (x : Subject) (k : Culture) (pos : Nat) : Prop :=
  if l.rightToLeft then x.beg + l.size ≤ pos ∧ l.Occurs k x.text (pos - l.size)
  else pos + l.size ≤ x.finish ∧ l.Occurs k x.text pos

/-- The literal begins at a position if the characters ahead begin with it. -/
theorem begins_of_isPrefix (hcase : l.ignoreCase = o.ignoreCase) (hdir : l.rightToLeft = o.rightToLeft)
    (hpos : x.Inside pos)
    (h : (if o.rightToLeft then l.literal.reverse else l.literal) <+: x.ahead k o pos) :
    l.Begins x k pos := by
  have hfold : l.fold k = fun c => if o.ignoreCase then k.toLower c else c := by
    funext c
    rw [fold, hcase]
  have hread : ∀ n < l.size, (if o.rightToLeft then l.literal.reverse else l.literal)[n]? =
      x.text[if o.rightToLeft then pos - 1 - n else pos + n]?.map (l.fold k) := by
    intro n hn
    have hn : n < (if o.rightToLeft then l.literal.reverse else l.literal).length := by
      split
      · rwa [List.length_reverse]
      · exact hn
    rw [hfold, ← x.ahead_getElem? k o hpos (Nat.lt_of_lt_of_le hn h.length_le)]
    obtain ⟨rest, hrest⟩ := h
    rw [← hrest, List.getElem?_append_left hn]
  have hlength := h.length_le
  rw [x.ahead_length k o hpos] at hlength
  obtain ⟨hbeg, hfinish⟩ := hpos
  unfold Begins
  rw [hdir]
  cases hrtl : o.rightToLeft with
  | true =>
    simp only [hrtl, if_true, List.length_reverse] at hread hlength
    refine ⟨by rw [size]; omega, fun n hn => ?_⟩
    have hlast := hread (l.size - 1 - n) (by omega)
    rw [List.getElem?_reverse (by rw [← size]; omega), ← size] at hlast
    rw [show l.size - 1 - (l.size - 1 - n) = n by omega] at hlast
    rw [hlast]
    congr 2
    simp only [size] at *
    omega
  | false =>
    simp only [hrtl, Bool.false_eq_true, if_false] at hread hlength
    refine ⟨by rw [size]; omega, fun n hn => (hread n hn).symm⟩

/-- The characters that are kept are those matched first. -/
theorem ofText_isPrefix (o : Options) (cs : List Char) :
    (if o.rightToLeft then (ofText o cs).literal.reverse else (ofText o cs).literal) <+:
      if o.rightToLeft then cs.reverse else cs := by
  unfold ofText
  split
  · exact List.reverse_prefix.mpr (List.drop_suffix ..)
  · exact List.take_prefix ..

theorem ofText_size (o : Options) (cs : List Char) : (ofText o cs).size = min cs.length maxLength := by
  unfold ofText size
  dsimp only
  split
  · rw [List.length_drop]
    omega
  · rw [List.length_take]
    omega

theorem ofText_begins {cs : List Char} (hpos : x.Inside pos)
    (h : (if o.rightToLeft then cs.reverse else cs) <+: x.ahead k o pos) : (ofText o cs).Begins x k pos :=
  begins_of_isPrefix rfl rfl hpos ((ofText_isPrefix o cs).trans h)

/-! ### Leaves -/

/-- As many equal characters as a repetition needs are ahead of it. -/
theorem replicate_isPrefix {cs : List Char} {c : Char} {n : Nat}
    (h : n ≤ (cs.takeWhile (CharTest.one c).accepts).length) : List.replicate n c <+: cs := by
  have hall : cs.takeWhile (CharTest.one c).accepts =
      List.replicate (cs.takeWhile (CharTest.one c).accepts).length c := by
    refine List.eq_replicate_iff.mpr ⟨rfl, fun d hd => ?_⟩
    have haccepts := List.mem_takeWhile_imp hd
    exact beq_iff_eq.mp haccepts
  have hprefix : List.replicate n c <+: cs.takeWhile (CharTest.one c).accepts := by
    rw [hall, ← Nat.min_eq_left h, ← List.take_replicate]
    exact List.take_prefix ..
  exact hprefix.trans (List.takeWhile_prefix _)

/-- The leaves that have a literal, with the text it is cut from. -/
theorem findLeaf_cases {leaf : Leaf} (hl : findLeaf o leaf = .found l) :
    ∃ cs, l = ofText o cs ∧
      ((∃ c, leaf = .test (.one c) ∧ cs = [c]) ∨
        (∃ lazy c min max, leaf = .span lazy (.one c) min max ∧ min ≠ 0 ∧
          cs = List.replicate (Nat.min min maxLength) c) ∨
        leaf = .multi cs) := by
  cases leaf with
  | test t =>
    cases t with
    | one c =>
      cases hl
      exact ⟨[c], rfl, .inl ⟨c, rfl, rfl⟩⟩
    | _ => cases hl
  | span lazy t min max =>
    cases t with
    | one c =>
      by_cases hmin : min = 0
      · cases (if_pos hmin).symm.trans hl
      · cases (if_neg hmin).symm.trans hl
        exact ⟨_, rfl, .inr (.inl ⟨lazy, c, min, max, rfl, hmin, rfl⟩)⟩
    | _ => cases hl
  | multi cs =>
    cases hl
    exact ⟨cs, rfl, .inr (.inr rfl)⟩
  | assertion a => cases (findLeaf_found hl).1
  | _ => cases hl

/-- A leaf that matches begins with its literal. -/
theorem findLeaf_begins {leaf : Leaf} (hl : findLeaf o leaf = .found l) {g : Groups} {next : Nat}
    (hpos : x.Inside pos) (h : leaf.Reaches x k o g pos next) : l.Begins x k pos := by
  obtain ⟨cs, rfl, ⟨c, rfl, rfl⟩ | ⟨lazy, c, min, max, rfl, -, rfl⟩ | rfl⟩ := findLeaf_cases hl
  · have h : next ∈ if (x.ahead k o pos).head?.any (CharTest.one c).accepts then [moved o pos 1] else [] := h
    obtain ⟨d, hd, hc⟩ := (Option.any_eq_true _ _).mp (List.mem_ite_nil_right.mp h).1
    obtain rfl : d = c := beq_iff_eq.mp hc
    obtain ⟨rest, hrest⟩ := List.head?_eq_some_iff.mp hd
    refine ofText_begins hpos ?_
    rw [List.reverse_singleton, ite_self]
    exact ⟨rest, hrest.symm⟩
  · obtain ⟨n, hn, -⟩ := List.mem_map.mp h
    obtain ⟨hmin, hlongest⟩ := mem_spanCounts hn
    refine ofText_begins hpos ?_
    rw [List.reverse_replicate, ite_self]
    exact replicate_isPrefix ((Nat.min_le_left ..).trans (hmin.trans hlongest))
  · have h : next ∈ if (x.ahead k o pos).take cs.length = (if o.rightToLeft then cs.reverse else cs) then
      [moved o pos cs.length] else [] := h
    refine ofText_begins hpos ?_
    rw [← (List.mem_ite_nil_right.mp h).1]
    exact List.take_prefix ..

/-- A leaf gives the literal some of its characters, and not too many. -/
theorem size_of_findLeaf {leaf : Leaf} (hl : findLeaf o leaf = .found l)
    (hspelled : ∀ cs, leaf = .multi cs → cs ≠ []) : 0 < l.size ∧ l.size ≤ maxLength := by
  obtain ⟨cs, rfl, hcases⟩ := findLeaf_cases hl
  have hcs : cs ≠ [] := by
    obtain ⟨c, -, rfl⟩ | ⟨lazy, c, min, max, -, hmin, rfl⟩ | rfl := hcases
    · exact List.cons_ne_nil c []
    · simp [maxLength, hmin]
    · exact hspelled cs rfl
  have := List.length_pos_of_ne_nil hcs
  rw [ofText_size, maxLength]
  omega

/-- A leaf that is passed over does not move. -/
theorem findLeaf_pass {leaf : Leaf} (hl : findLeaf o leaf = .pass) {g : Groups} {next : Nat}
    (h : leaf.Reaches x k o g pos next) : next = pos := by
  cases leaf with
  | test t => cases t <;> cases hl
  | span lazy t min max =>
    cases t with
    | one c =>
      by_cases hmin : min = 0
      · cases (if_pos hmin).symm.trans hl
      · cases (if_neg hmin).symm.trans hl
    | _ => cases hl
  | assertion a =>
    have h : next ∈ if x.holds pos a then [pos] else [] := h
    exact List.mem_singleton.mp (List.mem_ite_nil_right.mp h).2
  | empty => exact List.mem_singleton.mp h
  | _ => cases hl

/-! ### Parts -/

/-- What a part says about the literal is right about a match from `s` to `t`. -/
def Find.Tells (x : Subject) (k : Culture) (s t : Outcome) : Find → Prop
  | found l => l.Begins x k s.pos
  | pass => t.pos = s.pos
  | blocked => True

theorem Find.Tells.of_pos {f : Find} {s t u : Outcome} (hpos : u.pos = s.pos) (h : f.Tells x k u t) :
    f.Tells x k s t := by
  cases f with
  | found l =>
    show l.Begins x k s.pos
    rw [← hpos]
    exact h
  | pass => exact Eq.trans h hpos
  | blocked => trivial

theorem Find.alone_tells {f : Find} {s t u : Outcome} (h : f.Tells x k s u) : f.alone.Tells x k s t := by
  cases f with
  | found l => exact h
  | pass => trivial
  | blocked => trivial

end Lead

namespace Node

variable {x : Subject} {k : Culture} {fails : Node → Outcome → Prop}

/-- A literal text has characters. -/
def Spelled : Node → Prop
  | .leaf _ (.multi cs) => cs ≠ []
  | _ => True

/-- The first part that is not passed over begins where the whole sequence does. -/
theorem gather_tells {ns : List Node} {s t : Outcome}
    (ih : ∀ n ∈ ns, ∀ s t, x.Inside s.pos → n.Matches x k fails s t → n.findLead.Tells x k s t)
    (hs : x.Inside s.pos) (h : MatchesAll x k fails ns s t) :
    (Lead.Find.gather (findLeads ns)).Tells x k s t := by
  induction ns generalizing s with
  | nil => trivial
  | cons n ns ihn =>
    obtain ⟨u, hu, hrest⟩ := h
    have hhead := ih n (List.mem_cons_self ..) s u hs hu
    rw [findLeads]
    cases hfind : n.findLead with
    | found l =>
      rw [hfind] at hhead
      exact hhead
    | pass =>
      rw [hfind] at hhead
      have hpos : u.pos = s.pos := hhead
      have htail := ihn (fun m hm => ih m (List.mem_cons_of_mem n hm)) (hpos ▸ hs) hrest
      exact htail.of_pos hpos
    | blocked => trivial

theorem findLead_tells (n : Node) {s t : Outcome} (hs : x.Inside s.pos) (h : n.Matches x k fails s t) :
    n.findLead.Tells x k s t := by
  induction n generalizing s t with
  | leaf o l =>
    rw [findLead]
    cases hfind : Lead.findLeaf o l with
    | found lead => exact Lead.findLeaf_begins hfind hs h.1
    | pass => exact Lead.findLeaf_pass hfind h.1
    | blocked => trivial
  | wrap o w n ih =>
    cases w with
    | loop lazy min max => trivial
    | capture number uncapture =>
      obtain ⟨u, hu, -⟩ := h
      exact Lead.Find.alone_tells (ih hs hu)
    | require =>
      obtain ⟨u, -, rfl⟩ := h
      rfl
    | prevent =>
      obtain ⟨-, rfl⟩ := h
      rfl
    | greedy => exact Lead.Find.alone_tells (ih hs h)
  | many o m ns ih =>
    cases m with
    | concatenate => exact gather_tells (fun n hn s t hs h => ih n hn hs h) hs h
    | _ => trivial

/-- A literal is found at a leaf. -/
theorem exists_leaf_of_findLead {n : Node} {l : Lead} (h : n.findLead = .found l) :
    ∃ o leaf, .leaf o leaf ∈ n.subtrees ∧ Lead.findLeaf o leaf = .found l := by
  induction n with
  | leaf o leaf => exact ⟨o, leaf, List.mem_singleton_self _, h⟩
  | wrap o w n ih =>
    have hinside : n.findLead = .found l := by
      cases w with
      | capture | greedy => exact Lead.Find.alone_found h
      | _ => cases h
    obtain ⟨o', leaf, hmem, hleaf⟩ := ih hinside
    exact ⟨o', leaf, List.mem_cons_of_mem _ hmem, hleaf⟩
  | many o m ns ih =>
    cases m with
    | concatenate =>
      rw [findLead, findLeads_eq_map] at h
      obtain ⟨n, hn, hfound⟩ := List.mem_map.mp (Lead.Find.gather_found h)
      obtain ⟨o', leaf, hmem, hleaf⟩ := ih n hn hfound
      exact ⟨o', leaf, List.mem_cons_of_mem _ (mem_subtreesOf.mpr ⟨n, hn, hmem⟩), hleaf⟩
    | _ => cases h

theorem findLead_of_lead? {n : Node} {l : Lead} (h : n.lead? = some l) : n.findLead = .found l := by
  unfold lead? Lead.Find.lead? at h
  split at h
  · cases h
    assumption
  · cases h

/-- **Every match begins with the literal.** The literal has at least one character and at most 64, and
wherever the tree matches from a position on, the text next to the position is the literal. -/
theorem lead_sound {root : Node} (hroot : root.Everywhere Spelled) {l : Lead} (hl : root.lead? = some l) :
    (l.literal ≠ [] ∧ l.literal.length ≤ 64) ∧
      ∀ (x : Subject) (k : Culture) (fails : Node → Outcome → Prop) (s t : Outcome), x.Inside s.pos →
        root.Matches x k fails s t → l.Begins x k s.pos := by
  have hfound := findLead_of_lead? hl
  constructor
  · obtain ⟨o, leaf, hmem, hleaf⟩ := exists_leaf_of_findLead hfound
    have hspelled : ∀ cs, leaf = .multi cs → cs ≠ [] := by
      rintro cs rfl
      exact hroot _ hmem
    obtain ⟨hpos, hmax⟩ := Lead.size_of_findLeaf hleaf hspelled
    exact ⟨List.ne_nil_of_length_pos hpos, hmax⟩
  · intro x k fails s t hs h
    have htells := findLead_tells root hs h
    rwa [hfound] at htells

/-- A text to be read from its end. -/
def initials : Subject := ⟨#['x', 'A', 'B'], 0, 3, 3, by decide, by decide, by decide⟩

/-- The tree of `(?!c)x(?>(?i:ab))$`, right to left. -/
def ending : Node :=
  let o : Options := { rightToLeft := true }
  .wrap o (.capture (some 0) none) (.many o .concatenate
    [.leaf o (.assertion .endZ), .wrap o .greedy (.leaf { o with ignoreCase := true } (.multi ['a', 'b'])),
      .leaf o (.test (.one 'x')), .wrap {} .prevent (.leaf {} (.test (.one 'c')))])

theorem lead_sound_ending :
    ∃ l s t, ending.Everywhere Spelled ∧ ending.lead? = some l ∧ l.rightToLeft = true ∧ l.ignoreCase = true ∧
      ending.Matches initials .invariant (fun m s => m.outcomes initials .invariant s = []) s t ∧
      l.Begins initials .invariant s.pos := by
  have hspelled : ending.Everywhere Spelled := by simp [ending, Spelled]
  have hlead : ending.lead? = some ⟨['a', 'b'], true, true⟩ := rfl
  have hend : 3 ∈ (Leaf.assertion .endZ).landings initials .invariant { rightToLeft := true } 3 := by decide +kernel
  have htext : 1 ∈ (Leaf.multi ['a', 'b']).landings initials .invariant
      { rightToLeft := true, ignoreCase := true } 3 := by decide +kernel
  have htest : 0 ∈ (Leaf.test (.one 'x')).landings initials .invariant { rightToLeft := true } 1 := by decide +kernel
  have hmatch : ending.Matches initials .invariant (fun m s => m.outcomes initials .invariant s = [])
      ⟨3, fun _ => []⟩ ⟨0, Groups.record (fun _ => []) 0 (0, 3)⟩ :=
    ⟨⟨0, fun _ => []⟩, ⟨⟨3, fun _ => []⟩, ⟨hend, rfl⟩, ⟨1, fun _ => []⟩, ⟨htext, rfl⟩, ⟨0, fun _ => []⟩,
      ⟨htest, rfl⟩, ⟨0, fun _ => []⟩, ⟨rfl, rfl⟩, rfl⟩, rfl, rfl⟩
  exact ⟨_, _, _, hspelled, hlead, rfl, rfl, hmatch,
    (lead_sound hspelled hlead).2 initials .invariant _ _ _ (by decide) hmatch⟩

end Node

end PatternCompiler
