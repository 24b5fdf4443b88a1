import PatternCompiler.Proofs.Acceptance
import PatternCompiler.Proofs.Encoding

/-! The operations of an accepted program.

They are numbered from zero on, and a jump stays among them, whatever the words were that the
program came from (`Code.program_numbered`). A program that was written for a pattern also ends
with the end of the match (`Pattern.program_stops`), even where a jump without a target has
overwritten words of another instruction: the last four words are never touched. -/
namespace PatternCompiler

namespace Operation

variable {b : Bounds} {id a : Nat} {is : List Instruction} {ws : List Int} {ops : List Operation}

theorem decode_ids (h : decode b id is = .ok ops) : ops.map (·.id) = List.range' id is.length := by
  induction is generalizing id ops with
  | nil =>
    cases h
    rfl
  | cons i is ih =>
    rw [decode] at h
    split at h
    · cases h
    · obtain ⟨rest, hrest, rfl⟩ := exists_ok_of_map h
      rw [List.map_cons, ih hrest, List.length_cons, List.range'_succ]

/-- Every operation comes from an instruction, and the last one from the last words. -/
theorem decode_inverts (hlaid : Instruction.Laid a is ws) (h : decode b id is = .ok ops)
    {before after : List Operation} {o : Operation} (ho : ops = before ++ o :: after) :
    ∃ i : Instruction, ∃ pre post : List Int, i.Inverts b o.op ∧
      ws = pre ++ i.head.word :: (i.operands ++ post) ∧ (after = [] → post = []) := by
  induction hlaid generalizing id ops before with
  | nil a =>
    cases h
    simp at ho
  | @cons a head operands is ws harity hrest ih =>
    rw [decode] at h
    split at h
    · cases h
    · rename_i op hop
      obtain ⟨rest, hdecode, rfl⟩ := exists_ok_of_map h
      cases before with
      | nil =>
        obtain ⟨rfl, rfl⟩ := List.cons.inj ho
        refine ⟨⟨a, head, operands⟩, [], ws, Instruction.op_inverts harity hop, rfl, ?_⟩
        rintro rfl
        have hlength := congrArg List.length (decode_ids hdecode)
        cases hrest with
        | nil => rfl
        | cons => simp at hlength
      | cons o' before =>
        obtain ⟨i, pre, post, hinverts, rfl, hpost⟩ := ih hdecode (List.cons.inj ho).2
        exact ⟨i, head.word :: (operands ++ pre), post, hinverts, by simp, hpost⟩

end Operation

/-! ### Numbers -/

/-- Operations are numbered from zero on, and jumps stay among them. -/
structure Program.Numbered (p : Program) : Prop where
  nonempty : 0 < p.operations.size
  ids : p.operations.toList.map (·.id) = List.range p.operations.size
  targets : ∀ o ∈ p.operations.toList, ∀ x ∈ o.op.target?, x < p.operations.size

namespace Program.Numbered

variable {p : Program} {o : Operation}

theorem id_eq (h : p.Numbered) {k : Nat} (hk : p.operations.toList[k]? = some o) : o.id = k := by
  have hid : (p.operations.toList.map (·.id))[k]? = some o.id := by rw [List.getElem?_map, hk]; rfl
  rw [h.ids] at hid
  exact (List.getElem?_eq_some_iff.mp hid).2.symm.trans (List.getElem_range _)

theorem id_eq_length (h : p.Numbered) {before after : List Operation}
    (hsplit : p.operations.toList = before ++ o :: after) : o.id = before.length :=
  h.id_eq (by rw [hsplit]; simp)

theorem getElem? (h : p.Numbered) (ho : o ∈ p.operations.toList) : p.operations[o.id]? = some o := by
  obtain ⟨before, after, hsplit⟩ := List.append_of_mem ho
  rw [h.id_eq_length hsplit, ← Array.getElem?_toList, hsplit]
  simp

theorem id_lt (h : p.Numbered) (ho : o ∈ p.operations.toList) : o.id < p.operations.size :=
  (Array.getElem?_eq_some_iff.mp (h.getElem? ho)).1

end Program.Numbered

namespace Code

variable {c : Code} {p : Program}

/-- What an accepted program was decoded from. -/
theorem program_decoded (h : c.program = .ok p) :
    ∃ is, Instruction.Laid 0 is c.words.toList ∧ is ≠ [] ∧
      Operation.decode (c.bounds is) 0 is = .ok p.operations.toList := by
  obtain ⟨ops, hops, rfl⟩ := exists_ok_of_map h
  rw [Code.operations] at hops
  split at hops
  · cases hops
  · rename_i hne
    obtain ⟨is, his, hdecode⟩ := exists_ok_of_bind hops
    have hlaid := Instruction.split_laid his
    refine ⟨is, hlaid, ?_, hdecode⟩
    rintro rfl
    cases hwords : c.words.toList with
    | nil => exact hne (by simpa using hwords)
    | cons w ws =>
      rw [hwords] at hlaid
      cases hlaid

theorem program_numbered (h : c.program = .ok p) : p.Numbered := by
  obtain ⟨is, hlaid, hne, hdecode⟩ := program_decoded h
  have hids := Operation.decode_ids hdecode
  have hlength : is.length = p.operations.size := by simpa using (congrArg List.length hids).symm
  refine ⟨hlength ▸ List.length_pos_of_ne_nil hne, ?_, fun o ho x hx => ?_⟩
  · rw [hids, hlength, List.range_eq_range']
  · obtain ⟨before, after, hsplit⟩ := List.append_of_mem ho
    obtain ⟨i, pre, post, hinverts, _⟩ := Operation.decode_inverts hlaid hdecode hsplit
    have hlt := hinverts.target x hx
    rwa [bounds, List.length_map, hlength] at hlt

end Code

/-! ### The last operation -/

/-- The program ends with the end of the match. -/
def Program.Stops (p : Program) : Prop :=
  ∃ before last, p.operations.toList = before ++ [last] ∧ last.op = .stop

/-- If the last words are the end of a capture into the first slot and the end of the match, the last
operation is the end of the match: as operands of anything else they do not decode. -/
theorem Instruction.Inverts.eq_stop {b : Bounds} {i : Instruction} {op : Op} {pre pre' : List Int}
    (h : i.Inverts b op) (hwords : pre ++ i.head.word :: i.operands = pre' ++ [32, 0, -1, 40]) :
    op = .stop := by
  have hhead := OpcodeWord.ofWord?_word i.head
  have harity : i.operands.length ≤ 2 := by
    rw [← h.operands, Line.operands_length]
    cases (op.retarget (b.starts.getD · 0)).opcode <;> simp [Opcode.arity]
  -- The instruction is as many of the last words as it has operands, and one more.
  have hend : ∀ start tail : List Int, start ++ tail = [32, 0, -1, 40] →
      tail.length = i.operands.length + 1 → i.head.word :: i.operands = tail := by
    intro start tail hstart hlength
    rw [← hstart, ← List.append_assoc] at hwords
    exact (List.append_inj' hwords (by simpa using hlength.symm)).2
  have hopcode : ∀ {w : Int} {c : Opcode}, i.head.word = w → (OpcodeWord.ofWord? w).map (·.opcode) = some c →
      op.opcode = c := by
    rintro w c rfl hw
    rw [hhead] at hw
    exact h.opcode.trans (Option.some_inj.mp hw)
  rcases hoperands : i.operands with _ | ⟨x, _ | ⟨y, _ | _⟩⟩ <;> rw [hoperands] at hend harity
  · -- Only the last word.
    have hstop := hopcode (List.cons.inj (hend [32, 0, -1] [40] rfl rfl)).1 rfl
    cases op <;> first | rfl | cases hstop
  · have hword := (List.cons.inj (hend [32, 0] [-1, 40] rfl rfl)).1
    rw [hword] at hhead
    cases hhead
  · -- The first operand would be a character.
    obtain ⟨hword, hrest⟩ := List.cons.inj (hend [32] [0, -1, 40] rfl rfl)
    have hrep := hopcode hword rfl
    have hchar := h.operands.trans (hoperands.trans hrest)
    cases op with
    | rep t n =>
      cases t with
      | one c =>
        have hnegative : (c.toNat : Int) = -1 := (List.cons.inj hchar).1
        omega
      | _ => cases hrep
    | _ => cases hrep
  · simp at harity

/-- The last words of a capture around a tree. No jump can reach them: the entry is patched two words
from the start, and every other jump before they are written. -/
theorem Draft.ofRoot_words_end (numbers : List Nat) (o : Options) (number uncapture : Option Nat) (n : Node) :
    ∃ pre, (ofRoot numbers (.wrap o (.capture number uncapture) n)).words.toList =
      pre ++ [32, slot? numbers number, slot? numbers uncapture, 40] := by
  have hgrows := node_grows numbers n ((({} : Draft).emit .lazybranch [0]).before (.capture number uncapture))
  rw [ofRoot_eq, ofTree, node]
  generalize ((({} : Draft).emit .lazybranch [0]).before (.capture number uncapture)).node numbers n = d at *
  have hsize : 0 + 1 < d.words.toList.length :=
    Nat.lt_of_lt_of_le (by simp [before, emit, emitWord]) hgrows.size
  simp only [patch, emit, emitWord, after, Array.toList_append, Array.toList_push,
    Array.toList_setIfInBounds]
  rw [List.append_assoc d.words.toList, List.set_append_left _ _ hsize]
  exact ⟨_, by simp only [List.append_assoc]; rfl⟩

namespace Pattern

variable {p : Pattern} {o : Options} {culture : Culture} {q : Program}

theorem code_words_end {text : String} (h : parse text o culture = .ok p) :
    ∃ pre, p.code.words.toList = pre ++ [32, 0, -1, 40] := by
  obtain ⟨culture', hread⟩ := parse_read h
  obtain ⟨htable, r, _, hfinish, hholds⟩ := read_sound hread
  obtain ⟨o', body, hroot, _⟩ := read_root hread hfinish hholds
  obtain ⟨rest, hnumbers⟩ := (GroupTable.ofPattern_noted htable).1.numbers
  have hslot : Draft.slot? p.table.numbers (some 0) = 0 := by
    simp [Draft.slot?, Draft.slot, hnumbers, wordOfNat, List.idxOf?_cons]
  have hend := Draft.ofRoot_words_end p.table.numbers o' (some 0) none body
  rw [← hroot, hslot] at hend
  exact hend

/-- **The program of a pattern ends with the end of the match.** -/
theorem program_stops {text : String} (h : parse text o culture = .ok p) (hq : p.program = .ok q) :
    q.Stops := by
  obtain ⟨is, hlaid, hne, hdecode⟩ := Code.program_decoded hq
  obtain ⟨pre, hwords⟩ := code_words_end h
  have hops : q.operations.toList ≠ [] := by
    have hpos := (Code.program_numbered hq).nonempty
    rintro hnil
    rw [← Array.length_toList, hnil] at hpos
    cases hpos
  have hsplit := (List.dropLast_append_getLast hops).symm
  obtain ⟨i, pre', post, hinverts, hwords', hpost⟩ := Operation.decode_inverts hlaid hdecode hsplit
  rw [hpost rfl, List.append_nil, hwords] at hwords'
  exact ⟨_, _, hsplit, hinverts.eq_stop hwords'.symm⟩

end Pattern

end PatternCompiler
