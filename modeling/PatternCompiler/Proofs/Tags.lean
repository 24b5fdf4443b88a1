import PatternCompiler.Proofs.States

/-! Tags and the cases that take them.

The tags of a program are numbered through, in the order in which the code of its operations
leaves them (`flatMap_tag`), so what is done first leaves each tag exactly once. What is
done on a resumption leaves only tags of the same operation. `Routine.Dispatches` puts this
together with the cases of the dispatcher: there is one for each tag and none besides. It holds
of every accepted program (`Code.program_dispatches`), also of one that was not written for a
pattern. -/
namespace PatternCompiler

open Source

theorem Op.resumptions_nodup (op : Op) : op.resumptions.Nodup := by
  cases op <;> simp [resumptions]

theorem Op.map_idxOf_resumptions (op : Op) :
    op.resumptions.map op.resumptions.idxOf = List.range op.resumptions.length := by
  cases op <;> rfl

namespace Program.Numbered

variable {p : Program} {before after : List Operation} {o : Operation}

theorem resumptionsOf_nodup (h : p.Numbered) : (Routine.resumptionsOf p.operations.toList).Nodup := by
  rw [Routine.resumptionsOf, List.nodup_flatMap]
  refine ⟨fun o _ => (o.op.resumptions_nodup).map fun _ _ hs => (Resumption.mk.inj hs).2, ?_⟩
  refine h.ascending.imp fun {x y} hxy => ?_
  -- Resumptions of different operations differ in the number.
  intro s hx hy
  obtain ⟨_, _, rfl⟩ := List.mem_map.mp hx
  obtain ⟨_, _, heq⟩ := List.mem_map.mp hy
  exact Nat.ne_of_gt hxy (Resumption.mk.inj heq).1

theorem firstTag (h : p.Numbered) (hsplit : p.operations.toList = before ++ o :: after) :
    (Routine.ofProgram p).firstTags.getD o.id 0 = (Routine.resumptionsOf before).length := by
  rw [Routine.ofProgram, hsplit, h.id_eq_length hsplit, Array.getD_eq_getD_getElem?,
    List.getElem?_toArray, Routine.firstTagsFrom_get]
  simp

theorem map_tag (h : p.Numbered) (hsplit : p.operations.toList = before ++ o :: after) :
    o.op.resumptions.map ((Routine.ofProgram p).tag o) =
      List.range' (Routine.resumptionsOf before).length o.op.resumptions.length := by
  have htag : (Routine.ofProgram p).tag o =
      ((Routine.resumptionsOf before).length + ·) ∘ o.op.resumptions.idxOf := by
    funext second
    rw [Routine.tag, h.firstTag hsplit, Function.comp_apply]
  rw [htag, ← List.map_map, Op.map_idxOf_resumptions, List.range'_eq_map_range]

/-- Operations leave their tags one after the other. -/
theorem flatMap_tag (h : p.Numbered) (hsplit : p.operations.toList = before ++ after) :
    (after.flatMap fun o => o.op.resumptions.map ((Routine.ofProgram p).tag o)) =
      List.range' (Routine.resumptionsOf before).length (Routine.resumptionsOf after).length := by
  induction after generalizing before with
  | nil => rfl
  | cons o after ih =>
    have hbefore : (Routine.resumptionsOf (before ++ [o])).length =
        (Routine.resumptionsOf before).length + o.op.resumptions.length := by
      simp [Routine.resumptionsOf]
    have hcons : (Routine.resumptionsOf (o :: after)).length =
        o.op.resumptions.length + (Routine.resumptionsOf after).length := by
      simp [Routine.resumptionsOf]
    have hnext : p.operations.toList = (before ++ [o]) ++ after := by
      rw [hsplit, List.append_assoc, List.singleton_append]
    rw [List.flatMap_cons, h.map_tag hsplit, ih hnext, hbefore, hcons, List.range'_append_1]

/-- The tag of a resumption of an operation leads back to it. -/
theorem resumption_of_tag (h : p.Numbered) (ho : o ∈ p.operations.toList) {second : Bool}
    (hsecond : second ∈ o.op.resumptions) :
    (Routine.resumptionsOf p.operations.toList)[(Routine.ofProgram p).tag o second]? =
      some ⟨o.id, second⟩ := by
  obtain ⟨before, after, hsplit⟩ := List.append_of_mem ho
  have htag := Routine.resumptions_tag (m := Routine.ofProgram p) (by rw [← hsplit]; rfl)
    (by rw [← hsplit]; rfl) (h.id_eq_length hsplit) hsecond
  simpa [Routine.ofProgram] using htag

end Program.Numbered

namespace Routine

variable {m : Routine} {p : Program}

theorem tagsOf_operationsCode (ops : List Operation) :
    Stmt.tagsOf (m.operationsCode ops) = ops.flatMap fun o => o.op.resumptions.map (m.tag o) := by
  rw [Stmt.tagsOf, operationsCode, Stmt.statementsOf_flatMap, List.filterMap_flatMap]
  refine List.flatMap_congr fun o _ => ?_
  rw [← tagsOf_forwardCode]
  rfl

theorem tagsOf_armEnd (last : Operation) (next : Option Nat) : Stmt.tagsOf (armEnd last next) = [] := by
  refine List.eq_nil_iff_forall_not_mem.mpr fun t ht => ?_
  rcases mem_armEnd (Stmt.mem_tagsOf.mp ht) with hpassive | ⟨k, _, hk⟩
  · exact hpassive
  · cases hk

/-- The arms leave the tags of all operations. -/
theorem tagsOf_arms (m : Routine) {isLabel : Nat → Bool} {segs : List (List Operation)}
    (h : Segmented isLabel segs) :
    ((m.armsOf segs).flatMap fun a => Stmt.tagsOf a.body) =
      segs.flatten.flatMap fun o => o.op.resumptions.map (m.tag o) := by
  induction h with
  | nil => rfl
  | @cons o seg rest _ _ _ ih =>
    rw [armsOf, List.flatMap_cons, ih, Stmt.tagsOf_append, tagsOf_operationsCode, tagsOf_armEnd,
      List.append_nil, List.flatten_cons, List.flatMap_append]

/-- The tags of the routine are those of its cases, and each is left by its own operation. -/
structure Dispatches (m : Routine) (rs : List Resumption) : Prop where
  distinct : rs.Nodup
  inside : ∀ s ∈ rs, s.id < m.operations.size
  /-- Besides the cases there is only the one for what is no tag. -/
  written : .scope (.plain "BACKTRACK => match r.track_pop()")
    (m.cases.map (fun c => .block (toString c.tag ++ " =>") c.body) ++
      [.code "_ => unreachable!(\"unknown backtrack tag\"),"]) "," ∈ Stmt.statementsOf m.code
  tags : m.cases.map (·.tag) = List.range rs.length
  /-- A case resumes the operation that its tag stands for. -/
  bodies : ∀ c ∈ m.cases, ∃ s o, rs[c.tag]? = some s ∧ m.operations[s.id]? = some o ∧
    s.secondary ∈ o.op.resumptions ∧ c.body = m.resumeCode o s.secondary
  /-- The arms leave every tag once. -/
  left : (m.arms.flatMap fun a => Stmt.tagsOf a.body) = List.range rs.length
  forward : ∀ o ∈ m.operations.toList, ∀ t ∈ Stmt.tagsOf (m.forwardCode o),
    ∃ second, rs[t]? = some ⟨o.id, second⟩
  resumed : ∀ c ∈ m.cases, ∀ t ∈ Stmt.tagsOf c.body,
    ∃ s second, rs[c.tag]? = some s ∧ rs[t]? = some ⟨s.id, second⟩
  /-- No tag is left anywhere else, nor by a line that is no statement of its own. -/
  only : ∀ t ∈ Stmt.tagsOf m.code, (∃ o ∈ m.operations.toList, t ∈ Stmt.tagsOf (m.forwardCode o)) ∨
    ∃ c ∈ m.cases, t ∈ Stmt.tagsOf c.body
  lines : ∀ l, .line l ∈ Stmt.statementsOf m.code → ∀ t : Nat,
    l.toText ≠ "r.track_push(" ++ toString t ++ ");"

/-- Where a case comes from. -/
theorem exists_of_mem_cases (h : p.Numbered) {c : DispatchCase} (hc : c ∈ (ofProgram p).cases) :
    ∃ s o, (resumptionsOf p.operations.toList)[c.tag]? = some s ∧ o ∈ p.operations.toList ∧ o.id = s.id ∧
      s.secondary ∈ o.op.resumptions ∧ c.body = (ofProgram p).resumeCode o s.secondary := by
  rw [cases, casesFrom_eq] at hc
  obtain ⟨i, hi, rfl⟩ := List.mem_mapIdx.mp hc
  have hs := List.getElem_mem hi
  obtain ⟨o, ho, hmem⟩ := List.mem_flatMap.mp hs
  obtain ⟨second, hsecond, heq⟩ := List.mem_map.mp hmem
  refine ⟨_, o, ?_, ho, congrArg Resumption.id heq, ?_, ?_⟩
  · rw [Nat.zero_add]
    exact List.getElem?_eq_getElem hi
  · rw [← heq]
    exact hsecond
  · rw [resumptionCode, ← heq]
    show ((ofProgram p).operations[o.id]?).elim [] _ = _
    rw [operations, ofProgram, h.getElem? ho]
    rfl

/-- **The tags of the routine of a numbered program are those of its cases.** -/
theorem dispatches (h : p.Numbered) :
    (ofProgram p).Dispatches (ofProgram p).resumptions.toList where
  distinct := h.resumptionsOf_nodup
  inside s hs := by
    obtain ⟨o, ho, hmem⟩ := List.mem_flatMap.mp hs
    obtain ⟨second, _, rfl⟩ := List.mem_map.mp hmem
    exact h.id_lt ho
  written := by
    show (ofProgram p).dispatchCode ∈ _
    simp [code, loopCode, Stmt.block]
  tags := by
    rw [cases, casesFrom_eq]
    exact List.ext_getElem (by simp) (by simp)
  bodies c hc := by
    obtain ⟨s, o, hs, ho, hid, hsecond, hbody⟩ := exists_of_mem_cases h hc
    exact ⟨s, o, hs, hid ▸ h.getElem? ho, hsecond, hbody⟩
  left := by
    obtain ⟨hsegmented, hflatten⟩ := segments_segmented p.isLabel p.operations.toList
    have htags := h.flatMap_tag (List.nil_append p.operations.toList).symm
    rw [List.range_eq_range']
    exact (tagsOf_arms (ofProgram p) hsegmented).trans (by rw [hflatten, htags]; rfl)
  forward o ho t ht := by
    rw [tagsOf_forwardCode] at ht
    obtain ⟨second, hsecond, rfl⟩ := List.mem_map.mp ht
    exact ⟨second, h.resumption_of_tag ho hsecond⟩
  resumed c hc t ht := by
    obtain ⟨s, o, hs, ho, hid, _, hbody⟩ := exists_of_mem_cases h hc
    rw [hbody] at ht
    obtain ⟨second, hsecond, rfl⟩ := resumeCode_obeys _ o _ _ (Stmt.mem_tagsOf.mp ht)
    exact ⟨s, second, hs, hid ▸ h.resumption_of_tag ho hsecond⟩
  only t ht := by
    rcases mem_code (Stmt.mem_tagsOf.mp ht) with hpassive | ⟨a, ha, hs⟩ | ⟨c, hc, hs⟩
    · cases hpassive
    · rcases mem_arm h ha hs with hpassive | ⟨o, ho, hs⟩ | ⟨k, _, hk⟩
      · cases hpassive
      · exact .inl ⟨o, ho, Stmt.mem_tagsOf.mpr hs⟩
      · cases hk
    · exact .inr ⟨c, hc, Stmt.mem_tagsOf.mpr hs⟩
  lines _ hl t := (inert_of_mem_code h hl).ne_tag t

end Routine

namespace Code

/-- **Tags and cases correspond one to one**, in the routine of every program that is accepted. -/
theorem program_dispatches {c : Code} {p : Program} (h : c.program = .ok p) (config : SourceConfig) :
    ∃ k, p.compile config = .ok k ∧ (Routine.ofProgram p).Dispatches k.resumptions := by
  obtain ⟨k, hk, _, hresumptions⟩ := p.compile_ok config
  exact ⟨k, hk, hresumptions ▸ Routine.dispatches (program_numbered h)⟩

/-- A counted loop by itself, without an end: no pattern has this program. -/
theorem program_dispatches_loop :
    ∃ p k, ({ words := #[26, 0, 28, 0, 3] } : Code).program = .ok p ∧ p.compile {} = .ok k ∧
      (Routine.ofProgram p).Dispatches k.resumptions ∧
      k.resumptions = [⟨0, false⟩, ⟨1, true⟩, ⟨1, false⟩] := by
  obtain ⟨p, hp, hresumptions⟩ := exists_ok_of_check ({ words := #[26, 0, 28, 0, 3] } : Code).program
    (fun p => (Routine.ofProgram p).resumptions.toList == [⟨0, false⟩, ⟨1, true⟩, ⟨1, false⟩])
    (by decide +kernel)
  obtain ⟨k, hk, hdispatches⟩ := program_dispatches hp {}
  obtain ⟨k', hk', _, htags⟩ := p.compile_ok {}
  obtain rfl := Except.ok.inj (hk.symm.trans hk')
  exact ⟨p, k, hp, hk, hdispatches, htags.trans (eq_of_beq hresumptions)⟩

end Code

end PatternCompiler
