import PatternCompiler.Proofs.Lowering

/-! Decoding reads lines back.

The words of lines split into one instruction for each line (`split_wordsOf`). A
line is valid when its places are in the tables and its target is where a line
begins; `program_reads` says that a program is accepted just when all its lines
are valid, and is then the list of its lines with their targets as numbers of
lines.

The translation of a tree jumps only to where one of its lines begins or to its
own end (`translate_lands`), and its literals and classes are in its tables, so
only the groups that are named can be missing: `Pattern.program_reads`. -/
namespace PatternCompiler

/-! ### Splitting -/

theorem Opcode.index_lt (c : Opcode) : c.index < 64 := by
  cases c with
  | rep k => cases k <;> decide
  | span lazy k => cases lazy <;> cases k <;> decide
  | test k => cases k <;> decide
  | assertion a => cases a <;> decide
  | branchmark lazy | branchcount lazy => cases lazy <;> decide
  | _ => decide

theorem OpcodeWord.ofWord?_word (h : OpcodeWord) : OpcodeWord.ofWord? h.word = some h := by
  obtain ⟨c, rightToLeft, ignoreCase⟩ := h
  have hc := c.index_lt
  have hindex := Opcode.ofIndex?_index c
  have hword : (OpcodeWord.mk c rightToLeft ignoreCase).word =
      ((c.index + 64 * rightToLeft.toNat + 512 * ignoreCase.toNat : Nat) : Int) := rfl
  rw [ofWord?, hword, if_neg (by omega), Int.toNat_natCast]
  have hmod : (c.index + 64 * rightToLeft.toNat + 512 * ignoreCase.toNat) % 64 = c.index := by
    omega
  have hclear : (c.index + 64 * rightToLeft.toNat + 512 * ignoreCase.toNat) / 128 % 4 = 0 ∧
      (c.index + 64 * rightToLeft.toNat + 512 * ignoreCase.toNat) / 1024 = 0 := by
    cases rightToLeft <;> cases ignoreCase <;> simp <;> omega
  rw [if_pos hclear, hmod, hindex]
  simp only [Option.map_some, Option.some.injEq, mk.injEq, true_and]
  constructor <;> cases rightToLeft <;> cases ignoreCase <;> simp <;> omega

namespace Line

/-- The instructions of lines, the first of which begins at offset `a`. -/
def instructions (a : Nat) : List Line → List Instruction
  | [] => []
  | l :: ls => ⟨a, l.head, l.op.operands⟩ :: instructions (a + l.size) ls

/-- Where lines begin, the first of them at offset `a`. -/
def offsets (a : Nat) : List Line → List Nat
  | [] => []
  | l :: ls => a :: offsets (a + l.size) ls

theorem instructions_offset (a : Nat) (ls : List Line) :
    (instructions a ls).map (·.offset) = offsets a ls := by
  induction ls generalizing a with
  | nil => rfl
  | cons l ls ih => rw [instructions, List.map_cons, ih, offsets]

theorem split_words (a : Nat) (l : Line) (rest : List Int) :
    Instruction.split a (l.words ++ rest) =
      (⟨a, l.head, l.op.operands⟩ :: ·) <$> Instruction.split (a + l.size) rest := by
  obtain ⟨op, rightToLeft, ignoreCase⟩ := l
  rw [words, List.cons_append, Instruction.split, OpcodeWord.ofWord?_word]
  cases op <;> rfl

theorem split_wordsOf (a : Nat) (ls : List Line) :
    Instruction.split a (wordsOf ls) = .ok (instructions a ls) := by
  induction ls generalizing a with
  | nil => rfl
  | cons l ls ih =>
    rw [wordsOf_cons, split_words, ih]
    rfl

end Line

/-! ### Decoding -/

/-- A check that succeeds with `a` just when `P` holds. -/
structure Reads {α : Type} (x : Except ProgramError α) (P : Prop) (a : α) : Prop where
  ok : P → x = .ok a
  error : ¬ P → ∃ e, x = .error e

namespace Reads

theorem pure {α : Type} (a : α) : Reads (.ok a) True a := ⟨fun _ => rfl, fun h => absurd trivial h⟩

variable {α β : Type} {P : Prop}

theorem bind {x : Except ProgramError α} {f : α → Except ProgramError β} {Q : Prop}
    {a : α} {b : β} (hx : Reads x P a) (hf : Reads (f a) Q b) : Reads (x >>= f) (P ∧ Q) b := by
  refine ⟨fun ⟨hP, hQ⟩ => ?_, fun hnot => ?_⟩
  · rw [hx.ok hP]
    exact hf.ok hQ
  · by_cases hP : P
    · rw [hx.ok hP]
      exact hf.error fun hQ => hnot ⟨hP, hQ⟩
    · obtain ⟨e, he⟩ := hx.error hP
      exact ⟨e, by rw [he]; rfl⟩

theorem congr {x : Except ProgramError α} {Q : Prop} {a : α} (h : Reads x P a) (hPQ : P ↔ Q) : Reads x Q a :=
  ⟨fun hQ => h.ok (hPQ.mpr hQ), fun hQ => h.error fun hP => hQ (hPQ.mp hP)⟩

theorem andThen {x : Except ProgramError α} {f : α → Except ProgramError β}
    {a : α} {b : β} (hx : Reads x P a) (hf : Reads (f a) True b) : Reads (x >>= f) P b :=
  (hx.bind hf).congr (and_iff_left trivial)

theorem map {x : Except ProgramError α} {a : α} (h : Reads x P a) (f : α → β) : Reads (f <$> x) P (f a) :=
  h.andThen (Reads.pure (f a))

theorem isOk_iff {x : Except ProgramError α} {a : α} (h : Reads x P a) : (∃ b, x = .ok b) ↔ P := by
  refine ⟨fun ⟨b, hb⟩ => ?_, fun hP => ⟨a, h.ok hP⟩⟩
  by_cases hP : P
  · exact hP
  · obtain ⟨e, he⟩ := h.error hP
    rw [hb] at he
    cases he

end Reads

/-- A class is in its table. -/
def CharTest.Valid (classes : Nat) : CharTest Nat → Prop
  | .set k => k < classes
  | _ => True

/-- Places are in the tables, and the target is where an instruction begins. -/
def Op.Valid (b : Bounds) : Op → Prop
  | .rep t _ => t.Valid b.classes
  | .span _ t _ => t.Valid b.classes
  | .test t => t.Valid b.classes
  | .multi i => i < b.strings
  | .ref slot => slot < b.slots
  | .lazybranch target => target ∈ b.starts
  | .branchmark _ target => target ∈ b.starts
  | .branchcount _ target _ => target ∈ b.starts
  | .capturemark slot uncapture => (∀ s ∈ slot, s < b.slots) ∧ ∀ s ∈ uncapture, s < b.slots
  | .testref slot => slot < b.slots
  | .goto target => target ∈ b.starts
  | _ => True

/-- The operation with another target. -/
def Op.retarget (f : Nat → Nat) : Op → Op
  | .lazybranch target => .lazybranch (f target)
  | .branchmark lazy target => .branchmark lazy (f target)
  | .branchcount lazy target limit => .branchcount lazy (f target) limit
  | .goto target => .goto (f target)
  | op => op

namespace Instruction

variable {b : Bounds} {i : Instruction} {k : Nat}

theorem below_reads {n bound : Nat} (e : Nat → Int → ProgramError) (hk : i.operand k = n) :
    Reads (i.below k bound e) (n < bound) n := by
  have hbelow : i.below k bound e = if n < bound then .ok n else .error (e i.offset n) := by
    simp [below, hk]
  rw [hbelow]
  exact ⟨fun h => if_pos h, fun h => ⟨_, if_neg h⟩⟩

theorem char_reads {c : Char} (hk : i.operand k = c.toNat) : Reads (i.char k) True c := by
  have hcode : Scalar.ofCode? c.toNat = some c := by
    have hvalid : c.toNat.isValidChar := c.valid
    rw [Scalar.ofCode?, if_pos hvalid, Char.ofNat_toNat]
  have hchar : i.char k = .ok c := by
    simp only [char, hk, Int.toNat_natCast, hcode]
    exact if_neg (by omega)
  rw [hchar]
  exact Reads.pure c

theorem count_reads {n : Nat} (hk : i.operand k = n) : Reads (i.count k) True n := by
  have hcount : i.count k = .ok n := by
    simp only [count, hk, Int.toNat_natCast]
    exact if_neg (by omega)
  rw [hcount]
  exact Reads.pure n

theorem target_reads {n : Nat} (hk : i.operand k = n) :
    Reads (i.target b k) (n ∈ b.starts) (b.starts.idxOf n) := by
  have hw : ¬ (n : Int) < 0 := by omega
  simp only [target, hk, Int.toNat_natCast, if_neg hw]
  rw [List.idxOf_eq_getD_idxOf?]
  cases hidx : b.starts.idxOf? n with
  | none => exact ⟨fun h => absurd h (List.idxOf?_eq_none_iff.mp hidx), fun _ => ⟨_, rfl⟩⟩
  | some id => exact ⟨fun _ => rfl, fun h => absurd (List.idxOf?_eq_none_iff.mpr h) (by simp [hidx])⟩

theorem slot?_reads {s : Option Nat} (hk : i.operand k = Op.slotWord s) :
    Reads (i.slot? b k) (∀ n ∈ s, n < b.slots) s := by
  cases s with
  | none =>
    have hslot : i.slot? b k = .ok none := if_pos hk
    rw [hslot]
    exact (Reads.pure none).congr (by simp)
  | some n =>
    have hk : i.operand k = n := hk
    have hslot : i.slot? b k = some <$> i.slot b k := if_neg (by omega)
    rw [hslot]
    exact ((below_reads _ hk).map some).congr (by simp)

theorem test_reads {t : CharTest Nat} (hk : i.operand 0 = t.word) :
    Reads (i.test b t.kind) (t.Valid b.classes) t := by
  cases t with
  | one c => exact (char_reads hk).map CharTest.one
  | notone c => exact (char_reads hk).map CharTest.notone
  | set n => exact (below_reads _ hk).map CharTest.set

theorem op_reads (b : Bounds) (a : Nat) (l : Line) :
    Reads (Instruction.op b ⟨a, l.head, l.op.operands⟩) (l.op.Valid b)
      (l.op.retarget (b.starts.idxOf ·)) := by
  obtain ⟨op, rightToLeft, ignoreCase⟩ := l
  cases op with
  | rep t count => exact Reads.andThen (test_reads rfl) (Reads.andThen (count_reads rfl) (Reads.pure _))
  | span lazy t max =>
    exact Reads.andThen (test_reads rfl) (Reads.andThen (count_reads rfl) (Reads.pure _))
  | test t => exact Reads.andThen (test_reads rfl) (Reads.pure _)
  | multi | ref => exact Reads.andThen (below_reads _ rfl) (Reads.pure _)
  | lazybranch | branchmark => exact Reads.andThen (target_reads rfl) (Reads.pure _)
  | branchcount lazy n limit =>
    exact Reads.andThen (target_reads rfl) (Reads.andThen (count_reads rfl) (Reads.pure _))
  | capturemark slot uncapture =>
    exact Reads.bind (slot?_reads rfl) (Reads.andThen (slot?_reads rfl) (Reads.pure _))
  | testref n => exact Reads.andThen (below_reads _ rfl) (Reads.pure _)
  | goto n => exact Reads.andThen (target_reads rfl) (Reads.pure _)
  | _ => exact Reads.pure _

end Instruction

namespace Line

/-- The operations of lines, numbered from `id` on, where `f` finds the number of a target. -/
def operations (f : Nat → Nat) (id a : Nat) : List Line → List Operation
  | [] => []
  | l :: ls =>
    ⟨id, a, l.op.retarget f, l.rightToLeft, l.ignoreCase⟩ ::
      operations f (id + 1) (a + l.size) ls

variable {a x : Nat} {ls : List Line} {others : List Nat}

theorem exists_of_mem_operations {f : Nat → Nat} {id : Nat} {o : Operation}
    (h : o ∈ operations f id a ls) : ∃ l ∈ ls, o.op = l.op.retarget f := by
  induction ls generalizing id a with
  | nil => cases h
  | cons l ls ih =>
    rcases List.mem_cons.mp h with rfl | h
    · exact ⟨l, List.mem_cons_self .., rfl⟩
    · obtain ⟨m, hm, hop⟩ := ih h
      exact ⟨m, List.mem_cons_of_mem l hm, hop⟩

theorem decode_reads (b : Bounds) (id a : Nat) (ls : List Line) :
    Reads (Operation.decode b id (instructions a ls)) (∀ l ∈ ls, l.op.Valid b)
      (operations (b.starts.idxOf ·) id a ls) := by
  induction ls generalizing id a with
  | nil => exact (Reads.pure []).congr (by simp)
  | cons l ls ih =>
    have hdecode : Operation.decode b id (instructions a (l :: ls)) =
        Instruction.op b ⟨a, l.head, l.op.operands⟩ >>= fun op =>
          (⟨id, a, op, l.rightToLeft, l.ignoreCase⟩ :: ·) <$>
            Operation.decode b (id + 1) (instructions (a + l.size) ls) := by
      rw [instructions, Operation.decode]
      cases Instruction.op b ⟨a, l.head, l.op.operands⟩ <;> rfl
    rw [hdecode]
    exact ((Instruction.op_reads b a l).bind ((ih (id + 1) (a + l.size)).map _)).congr (by simp)

/-- What the operands of a program are checked against. -/
def bounds (c : Code) (ls : List Line) : Bounds :=
  ⟨c.strings.size, c.classes.size, c.groupNumbers.length, offsets 0 ls⟩

/-- **A program is accepted just when all its lines are valid**, and it is then these lines. -/
theorem program_reads (c : Code) (ls : List Line) (hne : ls ≠ []) (hwords : c.words.toList = wordsOf ls) :
    Reads c.program (∀ l ∈ ls, l.op.Valid (bounds c ls))
      ⟨c, (operations ((offsets 0 ls).idxOf ·) 0 0 ls).toArray⟩ := by
  have hsome : ¬ c.words.isEmpty := by
    obtain ⟨l, rest, rfl⟩ := List.exists_cons_of_ne_nil hne
    intro hempty
    have hnil : c.words.toList = [] := by simpa using hempty
    rw [hnil, wordsOf_cons, words] at hwords
    cases hwords
  have hoperations : c.operations = Operation.decode (bounds c ls) 0 (instructions 0 ls) := by
    rw [Code.operations, if_neg hsome, hwords, split_wordsOf]
    show Operation.decode (c.bounds (instructions 0 ls)) 0 (instructions 0 ls) = _
    rw [Code.bounds, instructions_offset, bounds]
  rw [Code.program, hoperations]
  exact (decode_reads (bounds c ls) 0 0 ls).map _

/-! ### Targets -/

theorem offsets_append (a : Nat) (ls ms : List Line) :
    offsets a (ls ++ ms) = offsets a ls ++ offsets (a + extent ls) ms := by
  induction ls generalizing a with
  | nil => simp [offsets]
  | cons l ls ih => simp [offsets, ih, Nat.add_assoc]

/-- Where lines begin, and where they end. -/
def edges (a : Nat) (ls : List Line) : List Nat := offsets a ls ++ [a + extent ls]

theorem mem_edges_nil {a x : Nat} : x ∈ edges a [] ↔ x = a := by simp [edges, offsets]

theorem mem_edges_cons {l : Line} : x ∈ edges a (l :: ls) ↔ x = a ∨ x ∈ edges (a + l.size) ls := by
  simp [edges, offsets, Nat.add_assoc]

theorem start_mem_edges (a : Nat) (ls : List Line) : a ∈ edges a ls := by
  cases ls with
  | nil => exact mem_edges_nil.mpr rfl
  | cons l ls => exact mem_edges_cons.mpr (.inl rfl)

theorem mem_edges_append {ms : List Line} :
    x ∈ edges a (ls ++ ms) ↔ x ∈ edges a ls ∨ x ∈ edges (a + extent ls) ms := by
  induction ls generalizing a with
  | nil =>
    rw [List.nil_append, mem_edges_nil, extent_nil, Nat.add_zero]
    refine ⟨.inr, ?_⟩
    rintro (rfl | h)
    · exact start_mem_edges x ms
    · exact h
  | cons l ls ih =>
    rw [List.cons_append, mem_edges_cons, mem_edges_cons, ih, extent_cons, Nat.add_assoc, or_assoc]

theorem size_eq (op : Op) (rightToLeft ignoreCase : Bool) :
    size ⟨op, rightToLeft, ignoreCase⟩ = 1 + op.operands.length := by
  rw [size, Opcode.size, operands_length]

theorem mem_edges_split (before after : List Line)
    (hls : ls = before ++ after) (hx : x = a + extent before) : x ∈ edges a ls := by
  rw [hls, hx]
  exact mem_edges_append.mpr (.inr (start_mem_edges _ after))

/-- Every target is an edge of the lines, or one of `others`. -/
def Lands (a : Nat) (ls : List Line) (others : List Nat) : Prop :=
  ∀ l ∈ ls, ∀ x ∈ l.op.target?, x ∈ edges a ls ∨ x ∈ others

theorem lands_nil (a : Nat) (others : List Nat) : Lands a [] others :=
  fun _ hl => absurd hl List.not_mem_nil

theorem lands_of_none (h : ∀ l ∈ ls, l.op.target? = none) (a : Nat)
    (others : List Nat) : Lands a ls others := by
  intro l hl x hx
  rw [h l hl] at hx
  cases hx

theorem Lands.cons (l : Line) (hl : ∀ x ∈ l.op.target?, x ∈ others) (h : Lands (a + l.size) ls others) :
    Lands a (l :: ls) others := by
  intro m hm x hx
  rcases List.mem_cons.mp hm with rfl | hm
  · exact .inr (hl x hx)
  · exact (h m hm x hx).imp_left fun hedge => mem_edges_cons.mpr (.inr hedge)

theorem Lands.append {ms : List Line} (h : Lands a ls others)
    (h' : Lands (a + extent ls) ms others) : Lands a (ls ++ ms) others := by
  intro m hm x hx
  rcases List.mem_append.mp hm with hm | hm
  · exact (h m hm x hx).imp_left fun hedge => mem_edges_append.mpr (.inl hedge)
  · exact (h' m hm x hx).imp_left fun hedge => mem_edges_append.mpr (.inr hedge)

theorem Lands.close {others' : List Nat} (h : Lands a ls others)
    (hother : ∀ x ∈ others, x ∈ edges a ls ∨ x ∈ others') : Lands a ls others' := by
  intro l hl x hx
  rcases h l hl x hx with hedge | hx
  · exact .inl hedge
  · exact hother x hx

theorem Lands.mono {others' : List Nat} (h : Lands a ls others)
    (hsub : others ⊆ others') : Lands a ls others' :=
  h.close fun _ hx => .inr (hsub hx)

end Line

namespace Tables

open Line (Lands lands_nil lands_of_none mem_edges_split size_eq)

theorem leafLines_lands (t : Tables) (a : Nat) (o : Options) (l : Leaf) :
    Lands a (t.leafLines o l) [] := by
  refine lands_of_none ?_ a []
  cases l with
  | span lazy c min max =>
    intro m hm
    simp only [leafLines, List.mem_append] at hm
    rcases hm with hm | hm <;> split at hm <;> simp_all [Op.target?]
  | _ => simp [leafLines, Op.target?]

theorem loopHead_target (min max : Nat) : (loopHead min max).op.target? = none := by
  unfold loopHead
  split <;> split <;> rfl

theorem loopTest_target (lazy : Bool) (min max body : Nat) :
    (loopTest lazy min max body).op.target? = some body := by
  unfold loopTest
  split <;> rfl

variable {t : Tables}

theorem loop_lands {n : Node} (ih : ∀ a, Lands a (t.translate a n) []) (a : Nat)
    (o : Options) (lazy : Bool) (min max : Nat) :
    Lands a (t.translate a (.wrap o (.loop lazy min max) n)) [] := by
  have hbody : ∀ body, Lands body (t.translate body n ++ [loopTest lazy min max body])
      [body, body + Line.extent (t.translate body n)] := fun body =>
    ((ih body).mono (List.nil_subset _)).append (Lands.cons _ (by simp [loopTest_target]) (lands_nil _ _))
  simp only [translate]
  by_cases hmin : min = 0
  · simp only [if_pos hmin, show Opcode.goto.size = 2 from rfl]
    have h := hbody (a + (loopHead min max).size + 2)
    generalize t.translate (a + (loopHead min max).size + 2) n = ls at h ⊢
    refine ((h.cons { op := .goto (a + (loopHead min max).size + 2 + Line.extent ls) }
      (by simp [Op.target?])).cons (loopHead min max) (by simp [loopHead_target])).close
        fun x hx => .inl ?_
    simp only [List.mem_cons, List.not_mem_nil, or_false] at hx
    rcases hx with rfl | rfl
    · exact mem_edges_split [loopHead min max, { op := .goto _ }] (ls ++ [loopTest lazy min max _]) rfl
        (by simp; omega)
    · exact mem_edges_split (loopHead min max :: { op := .goto _ } :: ls) [loopTest lazy min max _] rfl
        (by simp; omega)
  · simp only [if_neg hmin, Nat.add_zero]
    have h := hbody (a + (loopHead min max).size)
    generalize t.translate (a + (loopHead min max).size) n = ls at h ⊢
    refine (h.cons (loopHead min max) (by simp [loopHead_target])).close fun x hx => .inl ?_
    simp only [List.mem_cons, List.not_mem_nil, or_false] at hx
    rcases hx with rfl | rfl
    · exact mem_edges_split [loopHead min max] (ls ++ [loopTest lazy min max _]) rfl (by simp)
    · exact mem_edges_split (loopHead min max :: ls) [loopTest lazy min max _] rfl
        (by simp [Nat.add_assoc])

theorem prevent_lands {n : Node} (ih : ∀ a, Lands a (t.translate a n) []) (a : Nat)
    (o : Options) : Lands a (t.translate a (.wrap o .prevent n)) [] := by
  simp only [translate]
  generalize hls : t.translate (a + 3) n = ls
  have hbody : Lands (a + 3) ls [a + 3 + Line.extent ls + 1] := hls ▸ (ih (a + 3)).mono (List.nil_subset _)
  have h := hbody.append (Lands.cons { op := .backjump } (by simp [Op.target?])
    (Lands.cons { op := .forejump } (by simp [Op.target?]) (lands_nil _ _)))
  refine ((h.cons (a := a + 1) { op := .lazybranch _ } (by simp [Op.target?])).cons { op := .setjump }
    (by simp [Op.target?])).close fun x hx => .inl ?_
  rw [List.mem_singleton] at hx
  exact mem_edges_split ({ op := .setjump } :: { op := .lazybranch (a + 3 + Line.extent ls + 1) } ::
    ls ++ [{ op := .backjump }]) [{ op := .forejump }] (by simp) (by simp [hx, size_eq, Op.operands]; omega)

theorem sequence_lands {ns : List Node} (ih : ∀ n ∈ ns, ∀ a, Lands a (t.translate a n) [])
    (a : Nat) : Lands a (t.sequence a ns) [] := by
  induction ns generalizing a with
  | nil => exact lands_nil a []
  | cons n ns ihn =>
    rw [sequence]
    exact (ih n (List.mem_cons_self ..) a).append
      (ihn (fun x hx => ih x (List.mem_cons_of_mem n hx)) _)

theorem alternatives_lands {ns : List Node}
    (ih : ∀ n ∈ ns, ∀ a, Lands a (t.translate a n) []) (a finish : Nat) :
    Lands a (t.alternatives a finish ns) [finish] := by
  induction ns generalizing a with
  | nil => exact lands_nil a [finish]
  | cons n ns ihn =>
    have hn := ih n (List.mem_cons_self ..)
    cases ns with
    | nil => exact (hn a).mono (List.nil_subset _)
    | cons m ns =>
      have hrest := ihn (fun x hx => ih x (List.mem_cons_of_mem n hx))
      rw [alternatives]
      have hfirst := (hn (a + 2)).mono (List.nil_subset
        [a + 2 + Line.extent (t.translate (a + 2) n) + 2, finish])
      generalize t.translate (a + 2) n = ls at hfirst ⊢
      have hnext := (hrest (a + 2 + Line.extent ls + 2)).mono
        (List.subset_cons_self (a + 2 + Line.extent ls + 2) [finish])
      generalize t.alternatives (a + 2 + Line.extent ls + 2) finish (m :: ns) = ms at hnext ⊢
      have h := hfirst.append (hnext.cons { op := .goto finish } (by simp [Op.target?]))
      refine (h.cons { op := .lazybranch (a + 2 + Line.extent ls + 2) } (by simp [Op.target?])).close ?_
      intro x hx
      rcases List.mem_cons.mp hx with rfl | hx
      · exact .inl (mem_edges_split ({ op := .lazybranch (a + 2 + Line.extent ls + 2) } :: ls ++
          [{ op := .goto finish }]) ms (by simp) (by simp; omega))
      · exact .inr hx

/-- Two ways on: what comes before them does not matter. -/
theorem choice_lands {a other finish : Nat} {ls ks ms : List Line} (hls : Lands (a + 2) ls [])
    (hks : Lands other ks []) (hms : Lands (other + Line.extent ks) ms [])
    (hother : other = a + 2 + Line.extent ls + 2)
    (hfinish : finish = other + Line.extent ks + Line.extent ms) :
    Lands a ({ op := .lazybranch other } :: ls ++ { op := .goto finish } :: (ks ++ ms)) [] := by
  have hrest := (hks.append hms).mono (List.nil_subset [other, finish])
  rw [hother] at hrest
  have hjump := hrest.cons { op := .goto finish } (by simp [Op.target?])
  have h := (hls.mono (List.nil_subset _)).append hjump
  rw [← hother] at h
  refine (h.cons { op := .lazybranch other } (by simp [Op.target?])).close fun x hx => .inl ?_
  simp only [List.mem_cons, List.not_mem_nil, or_false] at hx
  rcases hx with rfl | rfl
  · exact mem_edges_split ({ op := .lazybranch x } :: ls ++ [{ op := .goto finish }]) (ks ++ ms)
      (by simp) (by simp; omega)
  · exact mem_edges_split ({ op := .lazybranch other } :: ls ++ { op := .goto x } :: (ks ++ ms)) []
      (by simp) (by simp; omega)

theorem testref_lands (o : Options) (k : Nat) {yes : Node} {no : List Node}
    (ih : ∀ n ∈ yes :: no, ∀ a, Lands a (t.translate a n) []) (a : Nat) :
    Lands a (t.translate a (.many o (.testref k) (yes :: no))) [] := by
  simp only [translate]
  have hyes := ih yes (List.mem_cons_self ..) (a + 6)
  generalize t.translate (a + 6) yes = ls at hyes ⊢
  generalize hother : a + 6 + Line.extent ls + 2 = other
  have hno := sequence_lands (fun n hn => ih n (List.mem_cons_of_mem yes hn)) (other + 1)
  generalize t.sequence (other + 1) no = ms at hno ⊢
  generalize hfinish : other + 1 + Line.extent ms = finish
  have htest : Lands (a + 3) ({ op := .testref (t.slot k) } :: { op := .forejump } :: ls) [] :=
    (hyes.cons { op := .forejump } (by simp [Op.target?])).cons { op := .testref (t.slot k) }
      (by simp [Op.target?])
  have hclear : Lands other [{ op := .forejump }] [] :=
    (lands_nil _ _).cons { op := .forejump } (by simp [Op.target?])
  have h := choice_lands htest hclear hno (by simp [size_eq, Op.operands]; omega) hfinish.symm
  simpa using h.cons { op := .setjump } (by simp [Op.target?])

theorem testgroup_lands (o : Options) {condition yes : Node} {no : List Node}
    (ih : ∀ n ∈ condition :: yes :: no, ∀ a, Lands a (t.translate a n) []) (a : Nat) :
    Lands a (t.translate a (.many o .testgroup (condition :: yes :: no))) [] := by
  simp only [translate]
  have hcondition := ih condition (List.mem_cons_self ..) (a + 4)
  generalize t.translate (a + 4) condition = cs at hcondition ⊢
  have hyes := ih yes (List.mem_cons_of_mem _ (List.mem_cons_self ..)) (a + 4 + Line.extent cs + 2)
  generalize t.translate (a + 4 + Line.extent cs + 2) yes = ls at hyes ⊢
  generalize hother : a + 4 + Line.extent cs + 2 + Line.extent ls + 2 = other
  have hno := sequence_lands
    (fun n hn => ih n (List.mem_cons_of_mem _ (List.mem_cons_of_mem yes hn))) (other + 2)
  generalize t.sequence (other + 2) no = ms at hno ⊢
  generalize hfinish : other + 2 + Line.extent ms = finish
  have htest : Lands (a + 4) (cs ++ { op := .getmark } :: { op := .forejump } :: ls) [] :=
    hcondition.append ((hyes.cons { op := .forejump } (by simp [Op.target?])).cons { op := .getmark }
      (by simp [Op.target?]))
  have hclear : Lands other [{ op := .getmark }, { op := .forejump }] [] :=
    ((lands_nil _ _).cons { op := .forejump } (by simp [Op.target?])).cons { op := .getmark }
      (by simp [Op.target?])
  have h := choice_lands htest hclear hno (by simp [size_eq, Op.operands]; omega) hfinish.symm
  simpa using (h.cons { op := .setmark } (by simp [Op.target?])).cons { op := .setjump }
    (by simp [Op.target?])

/-- **A tree jumps only to one of its lines or to its end.** -/
theorem translate_lands (t : Tables) (n : Node) (a : Nat) : Lands a (t.translate a n) [] := by
  induction n generalizing a with
  | leaf o l => exact leafLines_lands t a o l
  | wrap o w n ih =>
    cases w with
    | loop lazy min max => exact loop_lands ih a o lazy min max
    | capture number uncapture =>
      rw [translate]
      exact ((ih _).cons { op := .setmark } (by simp [Op.target?])).append
        (lands_of_none (by simp [Op.target?]) _ _)
    | require =>
      rw [translate]
      exact ((lands_of_none (by simp [Op.target?]) a []).append (ih _)).append
        (lands_of_none (by simp [Op.target?]) _ _)
    | prevent => exact prevent_lands ih a o
    | greedy =>
      rw [translate]
      exact ((ih _).cons { op := .setjump } (by simp [Op.target?])).append
        (lands_of_none (by simp [Op.target?]) _ _)
  | many o m ns ih =>
    cases m with
    | alternate =>
      rw [translate]
      refine (alternatives_lands ih a _).close fun x hx => .inl ?_
      rw [List.mem_singleton] at hx
      exact mem_edges_split _ [] (List.append_nil _).symm
        (hx.trans (congrArg (a + ·) (Draft.extent_alternatives t a 0 _ ns)))
    | concatenate | group =>
      rw [translate]
      exact sequence_lands ih a
    | testref k =>
      cases ns with
      | nil => exact lands_nil a []
      | cons yes no => exact testref_lands o k ih a
    | testgroup =>
      rcases ns with _ | ⟨condition, _ | ⟨yes, no⟩⟩
      · exact lands_nil a []
      · exact lands_nil a []
      · exact testgroup_lands o ih a

/-- Every target of a program is where one of its lines begins. -/
theorem program_targets (t : Tables) (root : Node) :
    ∀ l ∈ t.program root, ∀ x ∈ l.op.target?, x ∈ Line.offsets 0 (t.program root) := by
  have hbody := (translate_lands t root 2).mono (List.nil_subset [2 + Line.extent (t.translate 2 root)])
  generalize hls : t.translate 2 root = ls at hbody
  have hprogram : t.program root = { op := .lazybranch (2 + Line.extent ls) } :: ls ++ [{ op := .stop }] := by
    rw [program, hls]
  have hlands : Lands 0 ({ op := .lazybranch (2 + Line.extent ls) } :: ls) [] := by
    refine (hbody.cons { op := .lazybranch (2 + Line.extent ls) } (by simp [Op.target?])).close
      fun x hx => .inl ?_
    rw [List.mem_singleton] at hx
    exact mem_edges_split _ [] (List.append_nil _).symm (by simp [hx])
  intro l hl x hx
  rw [hprogram] at hl ⊢
  rw [Line.offsets_append]
  rcases List.mem_append.mp hl with hl | hl
  · exact (hlands l hl x hx).resolve_right List.not_mem_nil
  · rw [List.mem_singleton.mp hl] at hx
    cases hx

end Tables

/-! ### What a tree needs -/

/-- Places are in the tables. -/
def Op.Placed (b : Bounds) : Op → Prop
  | .rep t _ => t.Valid b.classes
  | .span _ t _ => t.Valid b.classes
  | .test t => t.Valid b.classes
  | .multi i => i < b.strings
  | .ref slot => slot < b.slots
  | .capturemark slot uncapture => (∀ s ∈ slot, s < b.slots) ∧ ∀ s ∈ uncapture, s < b.slots
  | .testref slot => slot < b.slots
  | _ => True

theorem Op.valid_iff (b : Bounds) (op : Op) :
    op.Valid b ↔ op.Placed b ∧ ∀ x ∈ op.target?, x ∈ b.starts := by
  cases op <;> simp [Valid, Placed, target?]

/-- The places of all lines are in the tables. -/
def Line.AllPlaced (b : Bounds) (ls : List Line) : Prop := ∀ l ∈ ls, l.op.Placed b

@[simp] theorem Line.allPlaced_nil (b : Bounds) : AllPlaced b [] := by simp [AllPlaced]

@[simp] theorem Line.allPlaced_cons (b : Bounds) (l : Line) (ls : List Line) :
    AllPlaced b (l :: ls) ↔ l.op.Placed b ∧ AllPlaced b ls := by
  simp only [AllPlaced, List.mem_cons, forall_eq_or_imp]

@[simp] theorem Line.allPlaced_append (b : Bounds) (ls ms : List Line) :
    AllPlaced b (ls ++ ms) ↔ AllPlaced b ls ∧ AllPlaced b ms := by
  simp only [AllPlaced, List.mem_append, or_imp, forall_and]

/-- The sizes of tables that hold all of a tree but maybe its groups. -/
structure Tables.Sized (t : Tables) (b : Bounds) : Prop where
  strings : b.strings = t.strings.length
  classes : b.classes = t.classes.length
  slots : b.slots = t.numbers.length
  numbers : t.numbers.length ≤ unbounded

namespace Tables

variable {t : Tables} {b : Bounds}

theorem slot_lt_iff (hb : t.Sized b) (n : Nat) : t.slot n < b.slots ↔ n ∈ t.numbers := by
  have hlen := hb.numbers
  rw [hb.slots, slot, capped]
  by_cases hn : n ∈ t.numbers
  · have := List.idxOf_lt_length_iff.mpr hn
    refine ⟨fun _ => hn, fun _ => by omega⟩
  · have := List.idxOf_eq_length hn
    refine ⟨fun h => by omega, fun h => absurd h hn⟩

theorem string_lt (hb : t.Sized b) {cs : List Char} (hcs : cs ∈ t.strings) : t.string cs < b.strings := by
  have := List.idxOf_lt_length_iff.mpr hcs
  rw [hb.strings, string, capped]
  omega

theorem test_valid (hb : t.Sized b) {c : CharTest CharClass} (hc : c.classes ⊆ t.classes) :
    (t.test c).Valid b.classes := by
  cases c with
  | set k =>
    have := List.idxOf_lt_length_iff.mpr (hc (List.mem_singleton_self k))
    show capped (t.classes.idxOf k) < b.classes
    rw [hb.classes, capped]
    omega
  | _ => trivial

theorem leafLines_placed_iff (hb : t.Sized b) (o : Options) (l : Leaf) (hl : l.literals ⊆ t.strings)
    (hc : l.classes ⊆ t.classes) :
    Line.AllPlaced b (t.leafLines o l) ↔ (Node.leaf o l).Named t.numbers := by
  cases l with
  | test c => simp [leafLines, Op.Placed, Node.Named, Node.mentions, test_valid hb hc]
  | span lazy c min max =>
    have hrep : ∀ count, Op.Placed b (.rep (t.test c) count) := fun _ => test_valid hb hc
    have hspan : ∀ count, Op.Placed b (.span lazy (t.test c) count) := fun _ => test_valid hb hc
    simp only [leafLines, Line.allPlaced_append, Node.Named, Node.mentions]
    split <;> split <;> simp [hrep, hspan]
  | multi cs =>
    simp [leafLines, Op.Placed, Node.Named, Node.mentions, string_lt hb (hl (List.mem_singleton_self cs))]
  | ref n => simp [leafLines, Op.Placed, Node.Named, Node.mentions, slot_lt_iff hb]
  | _ => simp [leafLines, Op.Placed, Node.Named, Node.mentions]

theorem loopHead_placed (min max : Nat) : (loopHead min max).op.Placed b := by
  unfold loopHead
  split <;> split <;> trivial

theorem loopTest_placed (lazy : Bool) (min max body : Nat) :
    (loopTest lazy min max body).op.Placed b := by
  unfold loopTest
  split <;> trivial

theorem sequence_placed_iff {P : Node → Prop} {ns : List Node}
    (ih : ∀ n ∈ ns, ∀ a, Line.AllPlaced b (t.translate a n) ↔ P n) (a : Nat) :
    Line.AllPlaced b (t.sequence a ns) ↔ ∀ n ∈ ns, P n := by
  induction ns generalizing a with
  | nil => simp [sequence]
  | cons n ns ihn =>
    have hns := ihn fun x hx => ih x (List.mem_cons_of_mem n hx)
    rw [sequence, Line.allPlaced_append, ih n (List.mem_cons_self ..), hns, List.forall_mem_cons]

theorem alternatives_placed_iff {P : Node → Prop} {ns : List Node}
    (ih : ∀ n ∈ ns, ∀ a, Line.AllPlaced b (t.translate a n) ↔ P n) (a finish : Nat) :
    Line.AllPlaced b (t.alternatives a finish ns) ↔ ∀ n ∈ ns, P n := by
  induction ns generalizing a with
  | nil => simp [alternatives]
  | cons n ns ihn =>
    have hn := ih n (List.mem_cons_self ..)
    cases ns with
    | nil => simpa [alternatives] using hn a
    | cons m ns =>
      have hns := ihn fun x hx => ih x (List.mem_cons_of_mem n hx)
      rw [alternatives, List.forall_mem_cons]
      simp [hn, hns, Op.Placed]

/-- The lines of a tree refer to its tables just when all groups that it names are there. -/
theorem translate_placed_iff (hb : t.Sized b) (n : Node) (hn : n.Everywhere Node.Shaped)
    (hl : n.literals ⊆ t.strings) (hc : n.classes ⊆ t.classes) (a : Nat) :
    Line.AllPlaced b (t.translate a n) ↔ n.Everywhere (Node.Named t.numbers) := by
  induction n generalizing a with
  | leaf o l =>
    rw [Node.literals_leaf] at hl
    rw [Node.classes_leaf] at hc
    rw [Node.everywhere_leaf]
    exact leafLines_placed_iff hb o l hl hc
  | wrap o w n ih =>
    have ih := ih (Node.everywhere_wrap.mp hn).2 hl hc
    rw [Node.everywhere_wrap]
    cases w with
    | loop lazy min max =>
      have hgoto : ∀ target, Op.Placed b (.goto target) := fun _ => trivial
      by_cases hmin : min = 0 <;>
        simp [translate, hmin, ih, loopHead_placed, loopTest_placed, hgoto, Node.Named, Node.mentions]
    | capture number uncapture =>
      simp [translate, ih, Op.Placed, Node.Named, Node.mentions, slot_lt_iff hb, or_imp, forall_and,
        and_comm]
    | require | prevent | greedy => simp [translate, ih, Op.Placed, Node.Named, Node.mentions]
  | many o m ns ih =>
    obtain ⟨hshape, hparts⟩ := Node.everywhere_many.mp hn
    rw [Node.literals_many] at hl
    rw [Node.classes_many] at hc
    have ih : ∀ n ∈ ns, ∀ a, Line.AllPlaced b (t.translate a n) ↔ n.Everywhere (Node.Named t.numbers) :=
      fun n hn => ih n hn (hparts n hn)
        (fun x hx => hl (List.mem_flatMap.mpr ⟨n, hn, hx⟩)) fun x hx => hc (List.mem_flatMap.mpr ⟨n, hn, hx⟩)
    rw [Node.everywhere_many]
    cases m with
    | alternate => simp [translate, alternatives_placed_iff ih, Node.Named, Node.mentions]
    | concatenate | group => simp [translate, sequence_placed_iff ih, Node.Named, Node.mentions]
    | testref k =>
      obtain ⟨yes, no, rfl, -⟩ := hshape.testref
      have hno := sequence_placed_iff fun x hx => ih x (List.mem_cons_of_mem yes hx)
      simp [translate, ih, hno, Op.Placed, Node.Named, Node.mentions, slot_lt_iff hb]
    | testgroup =>
      obtain ⟨condition, yes, no, rfl, -⟩ := hshape.testgroup
      have hno := sequence_placed_iff fun x hx =>
        ih x (List.mem_cons_of_mem condition (List.mem_cons_of_mem yes hx))
      simp [translate, ih, hno, Op.Placed, Node.Named, Node.mentions]

end Tables

namespace Pattern

/-- The lines of the program of a pattern. -/
def lines (p : Pattern) : List Line := (p.root.tables p.table.numbers).program p.root

theorem code_words (p : Pattern) (hroot : p.root.Everywhere Node.Shaped)
    (hsize : p.code.words.size < 2 ^ 31) : p.code.words.toList = Line.wordsOf p.lines :=
  Draft.ofRoot_words p.table.numbers p.root hroot (Nat.le_of_lt_succ hsize)

/-- The operations of the program of a pattern. -/
def operations (p : Pattern) : List Operation :=
  Line.operations ((Line.offsets 0 p.lines).idxOf ·) 0 0 p.lines

/-- **A program is accepted just when all groups that the tree names are in the table**, and it
is then the translation of the tree. -/
theorem program_reads (p : Pattern) (hroot : p.root.Everywhere Node.Shaped)
    (hsize : p.code.words.size < 2 ^ 31) (hgroups : p.table.numbers.length < 2 ^ 31) :
    Reads p.program (p.root.Everywhere (Node.Named p.table.numbers))
      ⟨p.code, p.operations.toArray⟩ := by
  have hne : p.lines ≠ [] := List.cons_ne_nil _ _
  refine (Line.program_reads p.code p.lines hne (p.code_words hroot hsize)).congr ?_
  obtain ⟨hstrings, hclasses⟩ := Draft.ofRoot_tables p.table.numbers p.root
  have hsized : (p.root.tables p.table.numbers).Sized (Line.bounds p.code p.lines) :=
    ⟨congrArg List.length hstrings, congrArg List.length hclasses, rfl, Nat.le_of_lt_succ hgroups⟩
  have hplaced := Tables.translate_placed_iff hsized p.root hroot
    (fun x hx => List.mem_eraseDups.mpr hx) (fun x hx => List.mem_eraseDups.mpr hx) 2
  have hlines : Line.AllPlaced (Line.bounds p.code p.lines) p.lines ↔
      p.root.Everywhere (Node.Named p.table.numbers) := by
    rw [← show _ ↔ p.root.Everywhere (Node.Named p.table.numbers) from hplaced]
    simp only [lines, Tables.program, Line.allPlaced_append, Line.allPlaced_cons, Op.Placed, true_and,
      Line.allPlaced_nil, and_true]
  rw [← hlines]
  refine ⟨fun h l hl => ((Op.valid_iff _ _).mp (h l hl)).1, fun h l hl => ?_⟩
  exact (Op.valid_iff _ _).mpr ⟨h l hl, Tables.program_targets _ p.root l hl⟩

end Pattern

end PatternCompiler
