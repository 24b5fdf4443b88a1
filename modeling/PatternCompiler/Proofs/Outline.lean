import PatternCompiler.Proofs.Mirror
import PatternCompiler.Proofs.Spacing

/-! What a list of tokens says.

An `Outline` is what is known of a tree when some of its tokens have been taken, one by one: the
groups that are open, each with its finished branches and the parts of its last one, and the part
that a quantifier may still follow. Neighbouring literals are merged as they come.

All nodes of the tree have the same options, so under other options the tokens give the same tree,
but for the options (`Outline.read_under`). -/
namespace PatternCompiler

/-! ### Trees under the same options everywhere

What is done to a tree is done to the same tree under no options, and then put under the options. Under no
options this says that the result is under none, which is how two such steps are put together. -/

namespace Node

/-- The tree under the given options everywhere. -/
def under (o : Options) (n : Node) : Node := n.mapOptions fun _ => o

variable {n m : Node} {ns ms : List Node} {o o' : Options}

@[simp] theorem under_leaf (o o' : Options) (l : Leaf) : (leaf o' l).under o = leaf o l := rfl

@[simp] theorem under_wrap (o o' : Options) (w : Wrap) (n : Node) : (wrap o' w n).under o = wrap o w (n.under o) := rfl

@[simp] theorem under_many (o o' : Options) (kind : Many) (ns : List Node) :
    (many o' kind ns).under o = many o kind (ns.map (under o)) := by
  rw [under, mapOptions, mapOptionsAll_eq_map]
  rfl

@[simp] theorem options_under (o : Options) (n : Node) : (n.under o).options = o := by
  cases n <;> rfl

@[simp] theorem literal?_under (o : Options) (n : Node) : (n.under o).literal? = n.literal? := by
  cases n with
  | leaf o' l =>
    cases l with
    | test t => cases t <;> rfl
    | _ => rfl
  | wrap o' w n => rfl
  | many o' kind ns => rw [under_many]; rfl

theorem mapOptions_mapOptions (f g : Options → Options) (n : Node) :
    (n.mapOptions f).mapOptions g = n.mapOptions (g ∘ f) := by
  induction n with
  | leaf o l => rfl
  | wrap o w n ih => rw [mapOptions, mapOptions, mapOptions, ih]; rfl
  | many o kind ns ih =>
    simp only [mapOptions, mapOptionsAll_eq_map, List.map_map, many.injEq, true_and, Function.comp_apply]
    exact List.map_congr_left ih

@[simp] theorem under_under (o o' : Options) (n : Node) : (n.under o').under o = n.under o :=
  mapOptions_mapOptions _ _ n

@[simp] theorem map_under_under (o o' : Options) (ns : List Node) :
    (ns.map (under o')).map (under o) = ns.map (under o) := by
  rw [List.map_map]
  exact List.map_congr_left fun n _ => under_under o o' n

theorem absorb?_under (ho : o.rightToLeft = false) (n m : Node) :
    (n.under o).absorb? (m.under o) = ((n.under {}).absorb? (m.under {})).map (under o) := by
  cases ha : n.literal? with
  | none =>
    rw [absorb?_of_none (.inl (by simpa)), absorb?_of_none (.inl (by simpa))]
    rfl
  | some a =>
  cases hb : m.literal? with
  | none =>
    rw [absorb?_of_none (.inr (by simpa)), absorb?_of_none (.inr (by simpa))]
    rfl
  | some b =>
    have hmerged (o' : Options) := absorb?_of_some (n := n.under o') (m := m.under o') (by simpa) (by simpa)
    rw [hmerged o, hmerged {}]
    simp [ho]

theorem append_under (ho : o.rightToLeft = false) (ms : List Node) (n : Node) :
    append (ms.map (under o)) (n.under o) = (append (ms.map (under {})) (n.under {})).map (under o) := by
  fun_induction append ms n with
  | case1 => simp [append]
  | case2 m n k hk =>
    simp only [List.map_cons, List.map_nil, append, absorb?_under ho m n]
    cases (m.under {}).absorb? (n.under {}) <;> simp
  | case3 m n hk =>
    simp only [List.map_cons, List.map_nil, append, absorb?_under ho m n]
    cases (m.under {}).absorb? (n.under {}) <;> simp
  | case4 m m' ms n ih =>
    simp only [List.map_cons, append, under_under] at ih ⊢
    rw [ih]

theorem prepend_under (ho : o.rightToLeft = false) (n : Node) (ms : List Node) :
    prepend (n.under o) (ms.map (under o)) = (prepend (n.under {}) (ms.map (under {}))).map (under o) := by
  cases ms with
  | nil => simp [prepend]
  | cons m ms =>
    simp only [List.map_cons, prepend, absorb?_under ho n m]
    cases (n.under {}).absorb? (m.under {}) <;> simp

theorem mergeLiterals_under (ho : o.rightToLeft = false) (ns : List Node) :
    mergeLiterals (ns.map (under o)) = (mergeLiterals (ns.map (under {}))).map (under o) := by
  induction ns generalizing o with
  | nil => rfl
  | cons n ns ih =>
    rw [List.map_cons, List.map_cons, mergeLiterals_cons, mergeLiterals_cons, ih ho, prepend_under ho,
      ← @ih {} rfl]

theorem alternatives_under (o : Options) (n : Node) : (n.under o).alternatives = n.alternatives.map (under o) := by
  induction n with
  | leaf o' l => cases l <;> rfl
  | wrap o' w n _ => rfl
  | many o' kind ns ih =>
    cases kind with
    | alternate =>
      rw [under_many, alternatives, alternatives]
      exact alternativesOf_map ih
    | _ => simp [alternatives]

theorem partsOf_under (hns : ∀ n ∈ ns, (n.under o).parts false = ((n.under {}).parts false).map (under o)) :
    partsOf false (ns.map (under o)) = (partsOf false (ns.map (under {}))).map (under o) := by
  rw [partsOf_eq_flatMap, partsOf_eq_flatMap, List.flatMap_map, List.flatMap_map, List.map_flatMap]
  exact List.flatMap_congr hns

theorem parts_under (ho : o.rightToLeft = false) (n : Node) :
    (n.under o).parts false = ((n.under {}).parts false).map (under o) := by
  induction n with
  | leaf o' l => cases l <;> rfl
  | wrap o' w n _ => simp [parts]
  | many o' kind ns ih =>
    cases kind with
    | concatenate =>
      rw [under_many, under_many, parts, parts, if_pos ho, if_pos rfl]
      exact partsOf_under ih
    | _ => simp [parts]

theorem strip_under (o : Options) (kind : Many) (none : Leaf) (ns : List Node) :
    strip o kind none (ns.map (under o)) = (strip {} kind none (ns.map (under {}))).under o := by
  rcases ns with _ | ⟨n, _ | ⟨m, ns⟩⟩ <;> simp [strip]

theorem kind?_under (o : Options) (n : Node) : (n.under o).kind? = n.kind? := by
  cases n with
  | leaf | wrap => rfl
  | many o' kind ns => rw [under_many]; rfl

theorem ungroup_under (o : Options) (n : Node) : (n.under o).ungroup = n.ungroup.under o :=
  (ungroup_map (kind?_under o) (fun o' ns => ⟨o, under_many o o' .group ns⟩) n).symm

/-- **Reduction does the same under any options of one direction.** -/
theorem reduce_under (ho : o.rightToLeft = false) (n : Node) : (n.under o).reduce = (n.under {}).reduce.under o := by
  cases n with
  | leaf o' l => cases l <;> rfl
  | wrap o' w n => simp [reduce]
  | many o' kind ns =>
    rw [under_many, under_many]
    cases kind with
    | alternate =>
      have halternatives (o : Options) : alternativesOf (ns.map (under o)) = (alternativesOf ns).map (under o) :=
        alternativesOf_map fun n _ => alternatives_under o n
      rw [reduce, reduce, halternatives, halternatives, strip_under]
    | concatenate =>
      have hparts : (partsOf false (ns.map (under {}))).map (under {}) = partsOf false (ns.map (under {})) :=
        (partsOf_under fun n _ => parts_under rfl n).symm
      have hmerged : (mergeLiterals (partsOf false (ns.map (under {})))).map (under {}) =
          mergeLiterals (partsOf false (ns.map (under {}))) := by
        rw [← hparts, ← mergeLiterals_under rfl]
      rw [reduce, reduce, ho, partsOf_under fun n _ => parts_under ho n, mergeLiterals_under ho, hparts,
        strip_under, hmerged]
    | group =>
      rw [reduce, reduce, ← under_many o {}, ← under_many {} {}, ungroup_under, ungroup_under, under_under]
    | _ => simp [reduce]

theorem parts_reduce_under (ho : o.rightToLeft = false) (n : Node) :
    (n.under o).reduce.parts false = ((n.under {}).reduce.parts false).map (under o) := by
  rw [reduce_under ho, parts_under ho, ← reduce_under rfl]

/-- **Repetition does the same under any options of one direction.** -/
theorem quantify_under (ho : o.rightToLeft = false) (n : Node) (lazy : Bool) (min max : Nat) :
    (n.under o).quantify lazy min max = ((n.under {}).quantify lazy min max).under o := by
  unfold quantify
  by_cases hzero : min = 0 ∧ max = 0
  · rw [if_pos hzero, if_pos hzero, options_under, under_leaf]
  by_cases hone : min = 1 ∧ max = 1
  · rw [if_neg hzero, if_neg hzero, if_pos hone, if_pos hone, under_under]
  rw [if_neg hzero, if_neg hzero, if_neg hone, if_neg hone]
  have hloop : wrap (n.under o).options (.loop lazy min max) (n.under o).reduce =
      (wrap (n.under {}).options (.loop lazy min max) (n.under {}).reduce).under o := by
    rw [options_under, under_wrap, reduce_under ho]
  cases n with
  | leaf o' l =>
    cases l with
    | test t => rfl
    | _ => exact hloop
  | wrap o' w n => exact hloop
  | many o' kind ns =>
    rw [under_many, under_many] at hloop ⊢
    exact hloop

/-! ### Merging more than one part -/

theorem mergeLiterals_append (ns ms : List Node) :
    mergeLiterals (ns ++ ms) = ms.foldl append (mergeLiterals ns) := by
  induction ms generalizing ns with
  | nil => simp
  | cons m ms ih => rw [← List.singleton_append, ← List.append_assoc, ih, mergeLiterals_concat]; rfl

theorem foldl_append_under (ho : o.rightToLeft = false) (ms ns : List Node) :
    (ns.map (under o)).foldl append (ms.map (under o)) =
      ((ns.map (under {})).foldl append (ms.map (under {}))).map (under o) := by
  induction ns generalizing ms with
  | nil => simp
  | cons n ns ih =>
    simp only [List.map_cons, List.foldl_cons]
    rw [append_under ho, ih, ← append_under rfl]

/-- Only the last of the others can be merged with what is put behind them. -/
theorem append_concat (ms : List Node) (m n : Node) : append (ms ++ [m]) n = ms ++ append [m] n := by
  induction ms with
  | nil => rfl
  | cons k ms ih =>
    obtain ⟨h, t, heq⟩ := List.exists_cons_of_ne_nil (l := ms ++ [m]) (by simp)
    rw [List.cons_append, List.cons_append, ← ih, heq, append]

/-- It does not matter if two literals are merged before they are put behind the others. -/
theorem append_append {k : Node} (h : n.absorb? m = some k) (ms : List Node) :
    append (append ms n) m = append ms k := by
  rcases List.eq_nil_or_concat ms with rfl | ⟨ms, m', rfl⟩
  · simp [append, h]
  · have hassoc := absorb?_assoc m' n m
    rw [h, Option.bind_some] at hassoc
    rw [List.concat_eq_append, append_concat, append_concat]
    cases hj : m'.absorb? n with
    | some j =>
      obtain ⟨l, hl⟩ := exists_absorb? hj h
      rw [hj, Option.bind_some, hl] at hassoc
      simp only [append, hj, append_concat, hassoc, hl]
    | none =>
      rw [hj, Option.bind_none] at hassoc
      have hlast : append (ms ++ [m', n]) m = ms ++ m' :: append [n] m := by
        simpa using append_concat (ms ++ [m']) n m
      simp only [append, hj, h, ← hassoc] at hlast ⊢
      exact hlast

/-- A literal character. -/
def single (o : Options) (c : Char) : Node := .leaf o (.test (.one c))

/-- Characters are put behind a literal one by one or as a text. -/
theorem foldl_append_single (ho : o.rightToLeft = false) {a : List Char} (hn : n.literal? = some a)
    (hoptions : n.options = o) (ms : List Node) {cs : List Char} (hcs : cs ≠ []) :
    (cs.map (single o)).foldl append (append ms n) = append ms (.leaf o (.multi (a ++ cs))) := by
  induction cs generalizing n a with
  | nil => exact absurd rfl hcs
  | cons c cs ih =>
    have habsorb : n.absorb? (single o c) = some (.leaf o (.multi (a ++ [c]))) := by
      rw [absorb?_of_some hn rfl, hoptions, ho]
      exact if_pos rfl
    rw [List.map_cons, List.foldl_cons, append_append habsorb]
    by_cases hnil : cs = []
    · simp [hnil]
    · have hlit : (leaf o (.multi (a ++ [c]))).literal? = some (a ++ [c]) := rfl
      rw [ih hlit rfl hnil, List.append_assoc, List.singleton_append]

end Node

/-! ### Outlines -/

/-- A group that is still open. -/
structure Level where
  kind : GroupKind
  /-- The finished alternatives. -/
  branches : List Node := []
  /-- The parts of the current alternative, with neighbouring literals merged. -/
  parts : List Node := []

namespace Level

/-- Puts a part into the current alternative. -/
def add (l : Level) (n : Node) : Level := { l with parts := (n.reduce.parts false).foldl Node.append l.parts }

def endBranch (o : Options) (l : Level) : Level :=
  { l with branches := l.branches ++ [Node.strip o .concatenate .empty l.parts], parts := [] }

/-- The tree of the finished group. -/
def node (o : Options) (l : Level) : Node :=
  Frame.node { kind := l.kind, options := o, seqOptions := o, branches := l.branches.toArray }

end Level

/-- What a quantifier may still follow. -/
inductive Pending where
  | none
  | part (n : Node)
  /-- A part with its bounds, which may still be marked as lazy. -/
  | counted (n : Node) (min max : Nat)

/-- What is known of a tree when some of its tokens have been taken. -/
structure Outline where
  /-- The innermost open group. -/
  level : Level
  /-- The groups around it, from the inside out. -/
  outer : List Level := []
  /-- The number of the next group. -/
  next : Nat := 1
  pending : Pending := .none

namespace Outline

/-- The part that was taken last is complete. -/
def flush (s : Outline) : Outline :=
  match s.pending with
  | .none => s
  | .part n => { s with level := s.level.add n, pending := .none }
  | .counted n min max => { s with level := s.level.add (n.quantify false min max), pending := .none }

/-- Takes a quantifier, or the suffix of one. -/
def quantify? (s : Outline) (t : Token) : Option Outline :=
  match s.pending with
  | .none => none
  | .part n => do
    let (min, max) ← t.bounds?
    if max < min then none else some { s with pending := .counted n min max }
  | .counted n min max =>
    if t.isMark then some { s with level := s.level.add (n.quantify true min max), pending := .none } else none

/-- Takes any other token, after a part that is complete. -/
def extend? (o : Options) (known : Nat → Bool) (s : Outline) : Token → Option Outline
  | .opener g =>
    some { s with level := { kind := g.kind s.next }, outer := s.level :: s.outer, next := s.next + g.count }
  | .bar => some { s with level := s.level.endBranch o }
  | .close =>
    match s.outer with
    | [] => none
    | l :: outer => some { s with level := l, outer := outer, pending := .part ((s.level.endBranch o).node o) }
  | t => do some { s with pending := .part (.leaf o (← t.leaf? known)) }

def take? (o : Options) (known : Nat → Bool) (s : Outline) (t : Token) : Option Outline :=
  if t.isQuantifier then s.quantify? t else s.flush.extend? o known t

/-- The tree, once there are no more tokens. -/
def finish? (o : Options) (s : Outline) : Option Node :=
  match s.outer with
  | [] => some ((s.flush.level.endBranch o).node o)
  | _ :: _ => none

/-- The tree that the rest of the tokens lead to; `known` tells which groups there are. -/
def read (o : Options) (known : Nat → Bool) (s : Outline) : List Token → Option Node
  | [] => s.finish? o
  | t :: ts => do (← s.take? o known t).read o known ts

/-- Before the first token: the whole pattern is group 0. -/
def start : Outline := { level := { kind := .capture (some 0) none } }

end Outline

/-! ### What is taken together -/

namespace Level

/-- Puts literal characters into the current alternative, one by one. -/
def addAll (o : Options) (l : Level) (cs : List Char) : Level := cs.foldl (fun l c => l.add (.single o c)) l

theorem addAll_parts (o : Options) (l : Level) (cs : List Char) :
    l.addAll o cs = { l with parts := (cs.map (Node.single o)).foldl Node.append l.parts } := by
  induction cs generalizing l with
  | nil => rfl
  | cons c cs ih => exact ih _

/-- It does not matter if literal characters are put there one by one or as a text. -/
theorem addAll_multi {o : Options} (ho : o.rightToLeft = false) (l : Level) (c d : Char) (cs : List Char) :
    l.addAll o (c :: d :: cs) = l.add (.leaf o (.multi (c :: d :: cs))) := by
  rw [addAll_parts]
  exact congrArg (fun parts => { l with parts := parts })
    (Node.foldl_append_single (n := .single o c) (a := [c]) ho rfl rfl l.parts (List.cons_ne_nil d cs))

end Level

namespace Outline

variable {o : Options} {known : Nat → Bool} {s : Outline} {ts : List Token}

theorem flush_of_none (h : s.pending = .none) : s.flush = s := by
  rw [flush, h]

@[simp] theorem flush_pending (s : Outline) : s.flush.pending = .none := by
  obtain ⟨level, outer, next, pending⟩ := s
  cases pending <;> rfl

@[simp] theorem flush_outer (s : Outline) : s.flush.outer = s.outer := by
  obtain ⟨level, outer, next, pending⟩ := s
  cases pending <;> rfl

@[simp] theorem flush_flush (s : Outline) : s.flush.flush = s.flush := flush_of_none s.flush_pending

/-- A quantifier that cannot be taken. -/
theorem quantify?_none {t : Token} (h : s.pending = .none) : s.quantify? t = none := by
  rw [quantify?, h]

/-- A part is complete before any token but a quantifier. -/
theorem read_flush (hts : ∀ t ∈ ts.head?, t.isQuantifier = false) : s.flush.read o known ts = s.read o known ts := by
  cases ts with
  | nil => simp [read, finish?]
  | cons t ts => simp [read, take?, hts t rfl]

/-- A part with its bounds is complete before any token but a mark. -/
theorem read_flush_counted {n : Node} {min max : Nat} (h : s.pending = .counted n min max)
    (hts : ∀ t ∈ ts.head?, t.isMark = false) : s.flush.read o known ts = s.read o known ts := by
  cases ts with
  | nil => exact read_flush (by simp)
  | cons t ts =>
    cases ht : t.isQuantifier with
    | false => exact read_flush (by simpa using ht)
    | true =>
      have hmark : s.quantify? t = none := by simp [quantify?, h, hts t rfl]
      simp [read, take?, ht, hmark, quantify?_none]

/-- A token that stands for something by itself. -/
theorem read_leaf (s : Outline) {t : Token} (ht : t.isLeaf = true) (ts : List Token) :
    s.read o known (t :: ts) = t.leaf? known >>= fun l =>
      { s.flush with pending := .part (.leaf o l) }.read o known ts := by
  have hextend : s.take? o known t = t.leaf? known >>= fun l => some { s.flush with pending := .part (.leaf o l) } := by
    cases t with
    | literal | bracket | assertion | reference => rfl
    | _ => cases ht
  rw [read, hextend, bind_assoc]
  rfl

/-- Literal characters are taken one by one; the last one may be quantified. -/
theorem read_literals (s : Outline) (cs : List Char) (c : Char) (ts : List Token) :
    s.read o known ((cs ++ [c]).map Token.literal ++ ts) =
      { s.flush with level := s.flush.level.addAll o cs, pending := .part (.single o c) }.read o known ts := by
  induction cs generalizing s with
  | nil => rfl
  | cons d cs ih => exact ih { s.flush with pending := .part (.single o d) }

/-- A run of literal characters that no quantifier follows. -/
theorem read_run (hs : s.pending = .none) (cs : List Char) (hts : ∀ t ∈ ts.head?, t.isQuantifier = false) :
    s.read o known (cs.map Token.literal ++ ts) = { s with level := s.level.addAll o cs }.read o known ts := by
  rcases List.eq_nil_or_concat cs with rfl | ⟨cs, c, rfl⟩
  · rfl
  · have hadd : s.level.addAll o (cs ++ [c]) = (s.level.addAll o cs).add (.single o c) := by
      simp [Level.addAll]
    rw [List.concat_eq_append, read_literals, ← read_flush hts, flush_of_none hs, hadd, flush, hs]

end Outline

/-! ### Outlines under other options -/

namespace Level

/-- The group under the given options everywhere. -/
def under (o : Options) (l : Level) : Level :=
  { l with branches := l.branches.map (Node.under o), parts := l.parts.map (Node.under o) }

variable {o : Options}

@[simp] theorem under_under (o o' : Options) (l : Level) : (l.under o').under o = l.under o := by
  simp [under]

theorem add_under (ho : o.rightToLeft = false) (l : Level) (n : Node) :
    (l.under o).add (n.under o) = ((l.under {}).add (n.under {})).under o := by
  simp only [add, under]
  rw [Node.parts_reduce_under ho, Node.foldl_append_under ho, ← Node.parts_reduce_under rfl, Node.map_under_under]

theorem add_quantify_under (ho : o.rightToLeft = false) (l : Level) (n : Node) (lazy : Bool) (min max : Nat) :
    (l.under o).add ((n.under o).quantify lazy min max) =
      ((l.under {}).add ((n.under {}).quantify lazy min max)).under o := by
  rw [Node.quantify_under ho, add_under ho, ← Node.quantify_under rfl]

theorem endBranch_under (o : Options) (l : Level) :
    (l.under o).endBranch o = ((l.under {}).endBranch {}).under o := by
  simp only [endBranch, under, Node.strip_under o, List.map_append, List.map_singleton, Node.map_under_under,
    List.map_nil]

theorem node_under (ho : o.rightToLeft = false) (l : Level) : (l.under o).node o = ((l.under {}).node {}).under o := by
  have hbody : (Node.many o .alternate (l.branches.map (Node.under o))).reduce =
      (Node.many {} .alternate (l.branches.map (Node.under {}))).reduce.under o := by
    have hreduce := Node.reduce_under ho (.many {} .alternate l.branches)
    rwa [Node.under_many, Node.under_many] at hreduce
  obtain ⟨kind, branches, parts⟩ := l
  cases kind <;> simp [node, under, Frame.node, hbody]

theorem node_endBranch_under (ho : o.rightToLeft = false) (l : Level) :
    ((l.under o).endBranch o).node o = (((l.under {}).endBranch {}).node {}).under o := by
  rw [endBranch_under o, node_under ho, ← endBranch_under {}]

end Level

namespace Pending

def under (o : Options) : Pending → Pending
  | none => none
  | part n => part (n.under o)
  | counted n min max => counted (n.under o) min max

@[simp] theorem under_under (o o' : Options) (p : Pending) : (p.under o').under o = p.under o := by
  cases p <;> simp [under]

end Pending

namespace Outline

variable {o : Options} {known : Nat → Bool}

/-- The outline under the given options everywhere. -/
def under (o : Options) (s : Outline) : Outline :=
  { s with level := s.level.under o, outer := s.outer.map (Level.under o), pending := s.pending.under o }

theorem flush_under (ho : o.rightToLeft = false) (s : Outline) : (s.under o).flush = (s.under {}).flush.under o := by
  obtain ⟨level, outer, next, pending⟩ := s
  cases pending with
  | none => simp [flush, under, Pending.under]
  | part n => simp [flush, under, Pending.under, Level.add_under ho level n]
  | counted n min max =>
    simp [flush, under, Pending.under, Level.add_quantify_under ho level n]

theorem quantify?_under (ho : o.rightToLeft = false) (s : Outline) (t : Token) :
    (s.under o).quantify? t = ((s.under {}).quantify? t).map (under o) := by
  obtain ⟨level, outer, next, pending⟩ := s
  cases pending with
  | none => rfl
  | part n =>
    simp only [quantify?, under, Pending.under]
    cases t.bounds? with
    | none => rfl
    | some b =>
      by_cases hlt : b.2 < b.1
      · simp [hlt]
      · simp [hlt, under, Pending.under]
  | counted n min max =>
    simp only [quantify?, under, Pending.under, Level.add_quantify_under ho level n]
    cases t.isMark <;> simp [under, Pending.under]

theorem extend?_under (ho : o.rightToLeft = false) (s : Outline) (t : Token) :
    (s.under o).extend? o known t = ((s.under {}).extend? {} known t).map (under o) := by
  have hleaf : (t.leaf? known >>= fun l => some { s.under o with pending := .part (.leaf o l) }) =
      (t.leaf? known >>= fun l => some { s.under {} with pending := .part (.leaf {} l) }).map (under o) := by
    cases t.leaf? known <;> simp [under, Pending.under]
  cases t with
  | opener g => simp [extend?, under, Level.under]
  | bar => simp [extend?, under, Level.endBranch_under o s.level]
  | close =>
    obtain ⟨level, outer, next, pending⟩ := s
    cases outer with
    | nil => rfl
    | cons l outer =>
      simp [extend?, under, Pending.under, Level.node_endBranch_under ho level]
  | _ => exact hleaf

theorem take?_under (ho : o.rightToLeft = false) (s : Outline) (t : Token) :
    (s.under o).take? o known t = ((s.under {}).take? {} known t).map (under o) := by
  cases ht : t.isQuantifier with
  | true => simpa [take?, ht] using quantify?_under ho s t
  | false =>
    simp only [take?, ht, Bool.false_eq_true, if_false]
    rw [flush_under ho, extend?_under ho, ← flush_under rfl]

theorem finish?_under (ho : o.rightToLeft = false) (s : Outline) :
    (s.under o).finish? o = ((s.under {}).finish? {}).map (Node.under o) := by
  have hnode : ((s.under o).flush.level.endBranch o).node o =
      (((s.under {}).flush.level.endBranch {}).node {}).under o := by
    have hlevel : (s.under {}).flush.level.under {} = (s.under {}).flush.level :=
      (congrArg level (flush_under rfl s)).symm
    rw [flush_under ho]
    exact (Level.node_endBranch_under ho _).trans (by rw [hlevel])
  unfold finish?
  rw [hnode]
  obtain ⟨level, outer, next, pending⟩ := s
  cases outer <;> rfl

/-- **Tokens give the same tree under any options of one direction, but for the options.** -/
theorem read_under (ho : o.rightToLeft = false) (s : Outline) (ts : List Token) :
    (s.under o).read o known ts = ((s.under {}).read {} known ts).map (Node.under o) := by
  induction ts generalizing s with
  | nil => exact finish?_under ho s
  | cons t ts ih =>
    have hself : (s.under {}).take? {} known t = _ := take?_under rfl s t
    rw [read, read, take?_under ho]
    cases htake : (s.under {}).take? {} known t with
    | none => rfl
    | some s' =>
      rw [htake, Option.map_some, Option.some.injEq] at hself
      have hs' := ih s'
      rw [← hself] at hs'
      exact hs'

theorem read_start (ho : o.rightToLeft = false) (ts : List Token) :
    start.read o known ts = (start.read {} known ts).map (Node.under o) := read_under ho start ts

end Outline

end PatternCompiler
