import PatternCompiler.Proofs.Groups
import PatternCompiler.Proofs.Stepping

/-! Decoding accepts the encodings of valid lists of operations, and nothing else.

Here the targets of lines are numbers of lines, as in decoded operations. `Line.encode`
writes such lines down: each target becomes the offset of the line that it names.
`Line.Encodes c ls` says that the words of `c` are what the lines `ls` are written as,
that their places are in the tables of `c`, and that their counts and targets are in
range.

Words that are accepted come apart into instructions in one way only (`split_laid`), and
an instruction that decodes holds the operands of its operation (`op_inverts`), so the
decoded lines encode the words again: `Line.encodes_of_program`. The other way is
`Line.program_of_encodes`. Both together are `Code.program_ok_iff_encodes`. -/
namespace PatternCompiler

/-! ### Encoding -/

/-- A number that a word of 32 bits holds. -/
def FitsWord (w : Int) : Prop := -2 ^ 31 ≤ w ∧ w < 2 ^ 31

instance (w : Int) : Decidable (FitsWord w) := inferInstanceAs (Decidable (_ ∧ _))

/-- The counts, maxima and limits among the operands. -/
def Op.counts : Op → List Int
  | .rep _ count => [count]
  | .span _ _ max => [max]
  | .nullcount n => [n]
  | .setcount n => [n]
  | .branchcount _ _ limit => [limit]
  | _ => []

namespace Line

def retarget (f : Nat → Nat) (l : Line) : Line := { l with op := l.op.retarget f }

/-- Where a line begins. -/
def offset (ls : List Line) (i : Nat) : Nat := extent (ls.take i)

/-- The words of lines whose targets are numbers of lines. -/
def encode (ls : List Line) : List Int := wordsOf (ls.map (retarget (offset ls)))

/-- The operations that lines stand for. -/
def numbered (ls : List Line) : List Operation :=
  ls.mapIdx fun i l => ⟨i, offset ls i, l.op, l.rightToLeft, l.ignoreCase⟩

/-- The words of a program are those of some lines, whose operands are in range. -/
structure Encodes (c : Code) (ls : List Line) : Prop where
  ne_nil : ls ≠ []
  words : c.words.toList = encode ls
  placed : ∀ l ∈ ls, l.op.Placed (bounds c ls)
  targets : ∀ l ∈ ls, ∀ x ∈ l.op.target?, x < ls.length
  counts : ∀ l ∈ ls, ∀ n ∈ l.op.counts, FitsWord n

end Line

/-! ### Targets as numbers and as offsets -/

namespace Op

@[simp] theorem opcode_retarget (f : Nat → Nat) (op : Op) : (op.retarget f).opcode = op.opcode := by
  cases op <;> rfl

theorem target?_retarget (f : Nat → Nat) (op : Op) : (op.retarget f).target? = op.target?.map f := by
  cases op <;> rfl

theorem placed_retarget (b : Bounds) (f : Nat → Nat) (op : Op) :
    (op.retarget f).Placed b ↔ op.Placed b := by
  cases op <;> rfl

theorem retarget_retarget (f g : Nat → Nat) (op : Op) :
    (op.retarget f).retarget g = op.retarget (g ∘ f) := by
  cases op <;> rfl

theorem retarget_congr {f g : Nat → Nat} {op : Op} (h : ∀ x ∈ op.target?, f x = g x) :
    op.retarget f = op.retarget g := by
  cases op <;> simp_all [retarget, target?]

theorem retarget_eq_self {f : Nat → Nat} {op : Op} (h : ∀ x ∈ op.target?, f x = x) :
    op.retarget f = op := by
  cases op <;> simp_all [retarget, target?]

theorem counts_subset (f : Nat → Nat) (op : Op) : op.counts ⊆ (op.retarget f).operands := by
  cases op <;> simp [counts, retarget, operands]

end Op

namespace Line

@[simp] theorem size_retarget (f : Nat → Nat) (l : Line) : (l.retarget f).size = l.size := by
  simp [retarget, size]

@[simp] theorem extent_map_retarget (f : Nat → Nat) (ls : List Line) :
    extent (ls.map (retarget f)) = extent ls := by
  simp only [extent, List.map_map]
  exact congrArg List.sum (List.map_congr_left fun l _ => size_retarget f l)

theorem offsets_map_retarget (f : Nat → Nat) (a : Nat) (ls : List Line) :
    offsets a (ls.map (retarget f)) = offsets a ls := by
  induction ls generalizing a with
  | nil => rfl
  | cons l ls ih => rw [List.map_cons, offsets, offsets, size_retarget, ih]

theorem offset_zero (ls : List Line) : offset ls 0 = 0 := by simp [offset]

variable {ls : List Line} {i : Nat}

theorem offset_succ (h : i < ls.length) : offset ls (i + 1) = offset ls i + ls[i].op.opcode.size := by
  rw [offset, List.take_add_one, extent_append, List.getElem?_eq_getElem h, offset]
  rfl

theorem offset_length (ls : List Line) : offset ls ls.length = (encode ls).length := by
  rw [offset, List.take_length, encode, wordsOf_length, extent_map_retarget]

/-- The line of a number stands between those before it and those after it. -/
theorem eq_take_append (h : i < ls.length) : ls = ls.take i ++ ls[i] :: ls.drop (i + 1) := by
  rw [← List.drop_eq_getElem_cons h, List.take_append_drop]

theorem idxOf_offset (h : i < ls.length) : (offsets 0 ls).idxOf (offset ls i) = i := by
  rw [offset, idxOf_extent (eq_take_append h), List.length_take, Nat.min_eq_left (Nat.le_of_lt h)]

theorem offset_mem {ls : List Line} {i : Nat} (h : i < ls.length) : offset ls i ∈ offsets 0 ls := by
  have hmem := mem_offsets_split 0 (ls.take i) ls[i] (ls.drop (i + 1))
  rw [← eq_take_append h, Nat.zero_add] at hmem
  exact hmem

theorem getD_offsets (h : i < ls.length) : (offsets 0 ls).getD i 0 = offset ls i := by
  have hoffsets := offsets_append 0 (ls.take i) (ls[i] :: ls.drop (i + 1))
  have hlength : (offsets 0 (ls.take i)).length = i := by
    rw [offsets_length, List.length_take, Nat.min_eq_left (Nat.le_of_lt h)]
  rw [← eq_take_append h] at hoffsets
  rw [hoffsets, List.getD_eq_getElem?_getD, List.getElem?_append_right (Nat.le_of_eq hlength), hlength,
    Nat.sub_self, Nat.zero_add]
  rfl

theorem operations_eq_mapIdx (f : Nat → Nat) (id a : Nat) (ls : List Line) :
    operations f id a ls = ls.mapIdx fun i l =>
      ⟨id + i, a + offset ls i, l.op.retarget f, l.rightToLeft, l.ignoreCase⟩ := by
  induction ls generalizing id a with
  | nil => rfl
  | cons l ls ih =>
    rw [operations, ih, List.mapIdx_cons]
    simp only [offset, List.take_succ_cons, List.take_zero, extent_cons, extent_nil, Nat.add_zero,
      Nat.add_assoc, Nat.add_comm 1]

theorem numbered_injective {ls ms : List Line} (h : numbered ls = numbered ms) : ls = ms := by
  have hlines : ∀ ks : List Line,
      (numbered ks).map (fun o => Line.mk o.op o.rightToLeft o.ignoreCase) = ks := by
    intro ks
    exact List.ext_getElem (by simp [numbered]) fun i _ _ => by simp [numbered]
  rw [← hlines ls, h, hlines]

end Line

/-! ### Encodings are accepted -/

namespace Line

variable {c : Code} {ls : List Line}

/-- Lines that are written with offsets read back with numbers. -/
theorem retarget_offset (htargets : ∀ l ∈ ls, ∀ x ∈ l.op.target?, x < ls.length) {l : Line}
    (hl : l ∈ ls) : (l.op.retarget (offset ls)).retarget ((offsets 0 ls).idxOf ·) = l.op := by
  rw [Op.retarget_retarget]
  exact Op.retarget_eq_self fun x hx => idxOf_offset (htargets l hl x hx)

theorem operations_encode (htargets : ∀ l ∈ ls, ∀ x ∈ l.op.target?, x < ls.length) :
    operations ((offsets 0 ls).idxOf ·) 0 0 (ls.map (retarget (offset ls))) = numbered ls := by
  have hoffset : ∀ i, offset (ls.map (retarget (offset ls))) i = offset ls i := by
    intro i
    rw [offset, ← List.map_take, extent_map_retarget, offset]
  rw [operations_eq_mapIdx, numbered]
  refine List.ext_getElem (by simp) fun i hi _ => ?_
  have hi : i < ls.length := by simpa using hi
  simp only [List.getElem_mapIdx, List.getElem_map, Nat.zero_add, hoffset, retarget]
  rw [retarget_offset htargets (List.getElem_mem hi)]

theorem program_of_encodes (h : Encodes c ls) : c.program = .ok ⟨c, (numbered ls).toArray⟩ := by
  have hne : ls.map (retarget (offset ls)) ≠ [] := by simpa using h.ne_nil
  have hreads := program_reads c (ls.map (retarget (offset ls))) hne h.words
  rw [offsets_map_retarget, operations_encode h.targets] at hreads
  refine hreads.ok fun l' hl' => ?_
  obtain ⟨l, hl, rfl⟩ := List.mem_map.mp hl'
  refine (Op.valid_iff _ _).mpr ⟨(Op.placed_retarget _ _ _).mpr (h.placed l hl), ?_⟩
  intro x hx
  rw [retarget, Op.target?_retarget] at hx
  obtain ⟨i, hi, rfl⟩ := Option.map_eq_some_iff.mp hx
  rw [bounds, offsets_map_retarget]
  exact offset_mem (h.targets l hl i hi)

end Line

/-! ### Only encodings are accepted -/

theorem Opcode.index_of_ofIndex? {n : Nat} {c : Opcode} (h : Opcode.ofIndex? n = some c) :
    c.index = n := by
  unfold ofIndex? at h
  split at h <;> cases h <;> rfl

theorem OpcodeWord.word_of_ofWord? {w : Int} {h : OpcodeWord} (hw : OpcodeWord.ofWord? w = some h) :
    h.word = w := by
  unfold ofWord? at hw
  split at hw
  · cases hw
  · rename_i hneg
    dsimp only at hw
    split at hw
    · rename_i hclear
      obtain ⟨c, hc, rfl⟩ := Option.map_eq_some_iff.mp hw
      have hindex := Opcode.index_of_ofIndex? hc
      have hbits : ∀ n : Nat, (n % 2 == 1).toNat = n % 2 := by
        intro n
        rcases Nat.mod_two_eq_zero_or_one n with h | h <;> simp [h]
      simp only [word, hindex, hbits]
      omega
    · cases hw

namespace Instruction

/-- Instructions that stand one after the other in some words. -/
inductive Laid : Nat → List Instruction → List Int → Prop where
  | nil (a : Nat) : Laid a [] []
  | cons {a : Nat} {head : OpcodeWord} {operands : List Int} {is : List Instruction} {ws : List Int}
      (arity : operands.length = head.opcode.arity) (rest : Laid (a + head.opcode.size) is ws) :
      Laid a (⟨a, head, operands⟩ :: is) (head.word :: (operands ++ ws))

variable {n : Nat} {op : Op}

theorem Laid.of_head {a : Nat} {w : Int} {head : OpcodeWord} {rest : List Int}
    {is : List Instruction} (operands : List Int) (hw : OpcodeWord.ofWord? w = some head)
    (harity : head.opcode.arity = operands.length) (hn : n = 1 + operands.length)
    (ih : ∀ {js}, split (a + n) rest = .ok js → Laid (a + n) js rest)
    (h : (⟨a, head, operands⟩ :: ·) <$> split (a + n) rest = .ok is) :
    Laid a is (w :: (operands ++ rest)) := by
  cases hrest : split (a + n) rest with
  | error e =>
    rw [hrest] at h
    cases h
  | ok js =>
    rw [hrest] at h
    cases h
    have hsize : head.opcode.size = n := by rw [Opcode.size, harity, hn]
    rw [← OpcodeWord.word_of_ofWord? hw]
    exact .cons harity.symm (hsize ▸ ih hrest)

theorem split_laid {a : Nat} {ws : List Int} {is : List Instruction} (h : split a ws = .ok is) :
    Laid a is ws := by
  fun_induction split a ws generalizing is with
  | case1 a =>
    cases h
    exact .nil a
  | case2 => cases h
  | case3 a w head hw rest harity ih => exact Laid.of_head [] hw harity rfl ih h
  | case4 a w head hw x rest harity ih => exact Laid.of_head [x] hw harity rfl ih h
  | case5 a w head hw x y rest harity ih => exact Laid.of_head [x, y] hw harity rfl ih h
  | case6 => cases h

variable {b : Bounds} {i : Instruction} {k : Nat}

theorem below_inverts {bound : Nat} {e : Nat → Int → ProgramError} (h : i.below k bound e = .ok n) :
    n < bound ∧ i.operand k = n := by
  simp only [below] at h
  split at h
  · rename_i hw
    cases h
    exact ⟨hw.2, by omega⟩
  · cases h

theorem char_inverts {c : Char} (h : i.char k = .ok c) : i.operand k = c.toNat := by
  simp only [char] at h
  split at h
  · cases h
  · rename_i hneg
    split at h
    · rename_i hcode
      cases h
      rw [Scalar.ofCode?] at hcode
      split at hcode
      · rename_i hvalid
        cases hcode
        have hcode : (Char.ofNat (i.operand k).toNat).toNat = (i.operand k).toNat := by
          rw [Char.ofNat, dif_pos hvalid]
          rfl
        omega
      · cases hcode
    · cases h

theorem count_inverts {n : Nat} (h : i.count k = .ok n) : i.operand k = n := by
  simp only [count] at h
  split at h
  · cases h
  · cases h
    omega

theorem target_inverts {id : Nat} (h : i.target b k = .ok id) :
    id < b.starts.length ∧ i.operand k = b.starts.getD id 0 := by
  simp only [target] at h
  split at h
  · cases h
  · split at h
    · rename_i hidx
      cases h
      obtain ⟨hlt, hget, _⟩ := List.idxOf?_eq_some_iff.mp hidx
      refine ⟨hlt, ?_⟩
      rw [List.getD_eq_getElem?_getD, List.getElem?_eq_getElem hlt]
      simp at hget ⊢
      omega
    · cases h

theorem slot?_inverts {s : Option Nat} (h : i.slot? b k = .ok s) :
    (∀ n ∈ s, n < b.slots) ∧ i.operand k = Op.slotWord s := by
  simp only [slot?] at h
  split at h
  · rename_i hw
    cases h
    exact ⟨by simp, hw⟩
  · obtain ⟨n, hn, rfl⟩ := exists_ok_of_map h
    obtain ⟨hlt, hword⟩ := below_inverts hn
    exact ⟨by simpa using hlt, hword⟩

theorem test_inverts {kind : TestKind} {t : CharTest Nat} (h : i.test b kind = .ok t) :
    t.kind = kind ∧ t.Valid b.classes ∧ i.operand 0 = t.word := by
  cases kind with
  | one | notone =>
    obtain ⟨c, hc, rfl⟩ := exists_ok_of_map h
    exact ⟨rfl, trivial, char_inverts hc⟩
  | set =>
    obtain ⟨c, hc, rfl⟩ := exists_ok_of_map h
    exact ⟨rfl, below_inverts hc⟩

theorem operands_eq_one (h : i.operands.length = 1) : i.operands = [i.operand 0] := by
  obtain ⟨x, hx⟩ := List.length_eq_one_iff.mp h
  rw [operand, hx]
  rfl

theorem operands_eq_two (h : i.operands.length = 2) : i.operands = [i.operand 0, i.operand 1] := by
  obtain ⟨x, y, hxy⟩ := List.length_eq_two.mp h
  rw [operand, operand, hxy]
  rfl

/-- The operation of an instruction, with its target as an offset again, has the opcode and
the operands of the instruction. -/
structure Inverts (b : Bounds) (i : Instruction) (op : Op) : Prop where
  opcode : op.opcode = i.head.opcode
  operands : (op.retarget (b.starts.getD · 0)).operands = i.operands
  placed : op.Placed b
  target : ∀ x ∈ op.target?, x < b.starts.length

/-- An operation whose only operand is a place in a table. -/
theorem inverts_place {bound : Nat} (harity : i.operands.length = 1)
    (hn : n < bound ∧ i.operand 0 = n) (hopcode : op.opcode = i.head.opcode)
    (hoperands : (op.retarget (b.starts.getD · 0)).operands = [(n : Int)]) (htarget : op.target? = none)
    (hplaced : op.Placed b ↔ n < bound) : Inverts b i op := by
  refine ⟨hopcode, ?_, hplaced.mpr hn.1, by simp [htarget]⟩
  rw [operands_eq_one harity, hn.2, hoperands]

/-- An operation whose only operand is a target. -/
theorem inverts_jump (harity : i.operands.length = 1)
    (hn : i.target b 0 = .ok n) (hopcode : op.opcode = i.head.opcode)
    (hoperands : (op.retarget (b.starts.getD · 0)).operands = [((b.starts.getD n 0 : Nat) : Int)])
    (htarget : op.target? = some n) (hplaced : op.Placed b) : Inverts b i op := by
  obtain ⟨hlt, hword⟩ := target_inverts hn
  refine ⟨hopcode, ?_, hplaced, by simpa [htarget] using hlt⟩
  rw [operands_eq_one harity, hword, hoperands]

theorem op_inverts (harity : i.operands.length = i.head.opcode.arity) (h : i.op b = .ok op) :
    Inverts b i op := by
  obtain ⟨a, ⟨opcode, rightToLeft, ignoreCase⟩, operands⟩ := i
  cases opcode with
  | rep | span =>
    obtain ⟨t, ht, h⟩ := exists_ok_of_bind h
    obtain ⟨n, hn, h⟩ := exists_ok_of_bind h
    cases h
    obtain ⟨rfl, hvalid, hword⟩ := test_inverts ht
    refine ⟨rfl, ?_, hvalid, by simp [Op.target?]⟩
    rw [operands_eq_two harity, hword, count_inverts hn]
    rfl
  | test kind =>
    obtain ⟨t, ht, h⟩ := exists_ok_of_bind h
    cases h
    obtain ⟨rfl, hvalid, hword⟩ := test_inverts ht
    refine ⟨rfl, ?_, hvalid, by simp [Op.target?]⟩
    rw [operands_eq_one harity, hword]
    rfl
  | multi | ref | testref =>
    obtain ⟨n, hn, h⟩ := exists_ok_of_bind h
    cases h
    exact inverts_place harity (below_inverts hn) rfl rfl rfl Iff.rfl
  | lazybranch | branchmark | goto =>
    obtain ⟨n, hn, h⟩ := exists_ok_of_bind h
    cases h
    exact inverts_jump harity hn rfl rfl rfl trivial
  | branchcount lazy =>
    obtain ⟨n, hn, h⟩ := exists_ok_of_bind h
    obtain ⟨limit, hlimit, h⟩ := exists_ok_of_bind h
    cases h
    obtain ⟨hlt, hword⟩ := target_inverts hn
    refine ⟨rfl, ?_, trivial, by simpa [Op.target?] using hlt⟩
    rw [operands_eq_two harity, hword, count_inverts hlimit]
    rfl
  | nullcount | setcount =>
    cases h
    exact ⟨rfl, (operands_eq_one harity).symm, trivial, by simp [Op.target?]⟩
  | capturemark =>
    obtain ⟨slot, hslot, h⟩ := exists_ok_of_bind h
    obtain ⟨uncapture, huncapture, h⟩ := exists_ok_of_bind h
    cases h
    obtain ⟨hlt, hword⟩ := slot?_inverts hslot
    obtain ⟨hlt', hword'⟩ := slot?_inverts huncapture
    refine ⟨rfl, ?_, ⟨hlt, hlt'⟩, by simp [Op.target?]⟩
    rw [operands_eq_two harity, hword, hword']
    rfl
  | _ =>
    cases h
    exact ⟨rfl, (List.eq_nil_of_length_eq_zero harity).symm, trivial, by simp [Op.target?]⟩

end Instruction

namespace Line

/-- What decodes is lines, written down where the instructions are. -/
theorem exists_of_decode {b : Bounds} {id a : Nat} {is : List Instruction} {ws : List Int}
    {ops : List Operation} (hlaid : Instruction.Laid a is ws) (h : Operation.decode b id is = .ok ops) :
    ∃ ls : List Line, ws = wordsOf (ls.map (retarget (b.starts.getD · 0))) ∧
      is.map (·.offset) = offsets a ls ∧
      ∀ l ∈ ls, l.op.Placed b ∧ ∀ x ∈ l.op.target?, x < b.starts.length := by
  induction hlaid generalizing id ops with
  | nil a => exact ⟨[], rfl, rfl, by simp⟩
  | @cons a head operands is ws harity _ ih =>
    rw [Operation.decode] at h
    split at h
    · cases h
    · rename_i op hop
      obtain ⟨rest, hrest, _⟩ := exists_ok_of_map h
      obtain ⟨ls, hws, hoffsets, hall⟩ := ih hrest
      have hinverts := Instruction.op_inverts harity hop
      refine ⟨⟨op, head.rightToLeft, head.ignoreCase⟩ :: ls, ?_, ?_, ?_⟩
      · have hwords : (retarget (b.starts.getD · 0) ⟨op, head.rightToLeft, head.ignoreCase⟩).words =
            head.word :: operands := by
          rw [words, Line.head, retarget, Op.opcode_retarget, hinverts.opcode, hinverts.operands]
        rw [List.map_cons, wordsOf_cons, hwords, hws, List.cons_append]
      · have hsize : size ⟨op, head.rightToLeft, head.ignoreCase⟩ = head.opcode.size :=
          congrArg Opcode.size hinverts.opcode
        rw [List.map_cons, offsets, hoffsets, hsize]
      · exact List.forall_mem_cons.mpr ⟨⟨hinverts.placed, hinverts.target⟩, hall⟩

theorem encodes_of_program {c : Code} {p : Program} (hfits : ∀ w ∈ c.words, FitsWord w)
    (h : c.program = .ok p) : ∃ ls, Encodes c ls := by
  obtain ⟨ops, hops, _⟩ := exists_ok_of_map h
  rw [Code.operations] at hops
  split at hops
  · cases hops
  · rename_i hne
    obtain ⟨is, his, hdecode⟩ := exists_ok_of_bind hops
    obtain ⟨ls, hwords, hoffsets, hall⟩ := exists_of_decode (Instruction.split_laid his) hdecode
    have hstarts : (c.bounds is).starts = offsets 0 ls := hoffsets
    have hbounds : c.bounds is = bounds c ls := by rw [Code.bounds, hoffsets, bounds]
    have htargets : ∀ l ∈ ls, ∀ x ∈ l.op.target?, x < ls.length := by
      intro l hl x hx
      have hlt := (hall l hl).2 x hx
      rwa [hstarts, offsets_length] at hlt
    have hencode : c.words.toList = encode ls := by
      rw [hwords, encode, hstarts]
      refine congrArg wordsOf (List.map_congr_left fun l hl => ?_)
      rw [retarget, retarget, Op.retarget_congr fun x hx => getD_offsets (htargets l hl x hx)]
    refine ⟨ls, ?_, hencode, fun l hl => hbounds ▸ (hall l hl).1, htargets, fun l hl n hn => ?_⟩
    · rintro rfl
      exact hne (by simpa [encode] using hencode)
    · have hmem : n ∈ c.words.toList := by
        rw [hencode, encode]
        refine List.mem_flatMap.mpr ⟨l.retarget (offset ls), List.mem_map_of_mem hl, ?_⟩
        exact List.mem_cons_of_mem _ (Op.counts_subset _ _ hn)
      exact hfits n (Array.mem_toList_iff.mp hmem)

end Line

namespace Code

/-- **Decoding accepts just the encodings of valid lists of operations, and is inverse to
encoding.** -/
theorem program_ok_iff_encodes (c : Code) (hfits : ∀ w ∈ c.words, FitsWord w) :
    ((∃ p, c.program = .ok p) ↔ ∃ ls, Line.Encodes c ls) ∧
      (∀ ls, Line.Encodes c ls →
        c.program = .ok ⟨c, (Line.numbered ls).toArray⟩ ∧
          Line.offset ls 0 = 0 ∧
          (∀ i (h : i < ls.length), Line.offset ls (i + 1) = Line.offset ls i + ls[i].op.opcode.size) ∧
          Line.offset ls ls.length = c.words.size) ∧
      ∀ (c' : Code) (p p' : Program), (∀ w ∈ c'.words, FitsWord w) → c.program = .ok p →
        c'.program = .ok p' → p.operations = p'.operations → c.words = c'.words := by
  refine ⟨⟨fun ⟨p, hp⟩ => Line.encodes_of_program hfits hp, fun ⟨ls, hls⟩ => ⟨_, Line.program_of_encodes hls⟩⟩,
    fun ls hls => ⟨Line.program_of_encodes hls, Line.offset_zero ls, fun i h => Line.offset_succ h, ?_⟩, ?_⟩
  · rw [Line.offset_length, ← hls.words, Array.length_toList]
  · intro c' p p' hfits' hp hp' hoperations
    obtain ⟨ls, hls⟩ := Line.encodes_of_program hfits hp
    obtain ⟨ls', hls'⟩ := Line.encodes_of_program hfits' hp'
    rw [Line.program_of_encodes hls] at hp
    rw [Line.program_of_encodes hls'] at hp'
    cases hp
    cases hp'
    have heq : ls = ls' := Line.numbered_injective (by simpa using hoperations)
    rw [← Array.toList_inj, hls.words, hls'.words, heq]

/-- A group captured lazily and from right to left, with a way past it. -/
def lazyGroup : Code :=
  { words := #[23, 9, 31, 582, 97, 2147483647, 32, 1, -1, 40], groupNumbers := [0, 1] }

def lazyGroupLines : List Line :=
  [{ op := .lazybranch 4 }, { op := .setmark }, ⟨.span true (.one 'a') 2147483647, true, true⟩,
    { op := .capturemark (some 1) none }, { op := .stop }]

theorem program_ok_iff_encodes_lazyGroup :
    (∀ w ∈ lazyGroup.words, FitsWord w) ∧ Line.Encodes lazyGroup lazyGroupLines ∧
      lazyGroup.program = .ok ⟨lazyGroup, (Line.numbered lazyGroupLines).toArray⟩ ∧
      Line.offset lazyGroupLines 5 = 10 := by
  have hfits : ∀ w ∈ lazyGroup.words, FitsWord w := by decide
  have hencodes : Line.Encodes lazyGroup lazyGroupLines :=
    ⟨by decide, by decide, by simp [lazyGroupLines, Op.Placed, CharTest.Valid, Line.bounds, lazyGroup],
      by decide, by decide⟩
  obtain ⟨hprogram, _, _, hend⟩ := (program_ok_iff_encodes lazyGroup hfits).2.1 _ hencodes
  exact ⟨hfits, hencodes, hprogram, hend⟩

end Code

end PatternCompiler
