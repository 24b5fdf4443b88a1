import PatternCompiler.Pattern.Cursor
import PatternCompiler.Pattern.Reduce
import PatternCompiler.Proofs.Classes
import PatternCompiler.Proofs.Tree

/-! Writing a tree as a pattern.

`Node.render` writes a tree without options: literal characters as they are, classes
range by range, every repetition with its count. A tree is `Normal` if the reader can
give it back: nothing in it could be simplified, and its groups are numbered in the order
of their parentheses.

The reader takes literal characters in runs that need not be the literals of the tree,
and joins neighbouring ones at the end of a branch. So what it has read is compared
character by character (`spelled`), and `joined_spelled` says that a branch comes back
from its characters. -/
namespace PatternCompiler

/-! ### The text of a tree -/

/-- A literal character. One that has a meaning of its own is escaped. -/
def renderChar (c : Char) : List Char := if Cursor.isSpecial c then ['\\', c] else [c]

def renderNumber (n : Nat) : List Char := Nat.toDigits 10 n

/-- Four hexadecimal digits. -/
def renderHex (n : Nat) : List Char :=
  [n / 0x1000, n / 0x100 % 16, n / 0x10 % 16, n % 16].map Nat.digitChar

/-- One end of a range: by its number if four digits are enough for it, else the character itself. -/
def renderEnd (c : Char) : List Char :=
  if c.toNat < 0x10000 then '\\' :: 'u' :: renderHex c.toNat else [c]

def CharRange.render (r : CharRange) : List Char :=
  if r.lo = r.hi then renderEnd r.lo else renderEnd r.lo ++ '-' :: renderEnd r.hi

def CharTest.render : CharTest CharClass → List Char
  | .one c => renderChar c
  | .notone c => '[' :: '^' :: (CharRange.single c).render ++ [']']
  | .set k => '[' :: k.ranges.toList.flatMap CharRange.render ++ [']']

/-- The upper bound of a count, which is left out if there is none. -/
def renderMax (max : Nat) : List Char := if max = unbounded then [] else renderNumber max

/-- A quantifier. -/
def renderCount (lazy : Bool) (min max : Nat) : List Char :=
  '\x7b' :: renderNumber min ++ ',' :: renderMax max ++ '\x7d' :: (if lazy then ['?'] else [])

/-- The letter of the escape that stands for an assertion. -/
def Assertion.letter? : Assertion → Option Char
  | .boundary => some 'b'
  | .nonboundary => some 'B'
  | .beginning => some 'A'
  | .start => some 'G'
  | .endZ => some 'Z'
  | .finish => some 'z'
  | _ => none

def Leaf.render : Leaf → List Char
  | .test t => t.render
  | .span lazy t min max => t.render ++ renderCount lazy min max
  | .multi cs => cs.flatMap renderChar
  | .ref n => '\\' :: 'k' :: '<' :: renderNumber n ++ ['>']
  | .assertion a => '\\' :: a.letter?.toList
  | .nothing => []
  | .empty => []

namespace Wrap

/-- What stands after the parenthesis that opens the construct. -/
def mark : Wrap → List Char
  | loop _ _ _ => ['?', ':']
  | capture _ _ => []
  | require => ['?', '=']
  | prevent => ['?', '!']
  | greedy => ['?', '>']

/-- What stands after the closing parenthesis. -/
def suffix : Wrap → List Char
  | loop lazy min max => renderCount lazy min max
  | _ => []

/-- The number under which the construct captures. -/
def number? : Wrap → Option Nat
  | capture number _ => number
  | _ => none

end Wrap

namespace Node

mutual

/-- The text of a tree. An alternation has parentheses around it if it is `nested`: a part of a
sequence or a branch of a condition. -/
def render (nested : Bool) : Node → List Char
  | leaf _ l => l.render
  | wrap _ w n => '(' :: w.mark ++ n.render false ++ [')'] ++ w.suffix
  | many _ .alternate ns =>
    if nested then '(' :: '?' :: ':' :: (renderBranches ns).tail ++ [')'] else (renderBranches ns).tail
  | many _ (.testref k) ns =>
    '(' :: ('?' :: '(' :: renderNumber k ++ [')']) ++ (renderBranches ns).tail ++ [')']
  | many _ _ ns => renderParts ns

/-- Each branch after a bar. -/
def renderBranches : List Node → List Char
  | [] => []
  | n :: ns => '|' :: (n.render true ++ renderBranches ns)

def renderParts : List Node → List Char
  | [] => []
  | n :: ns => n.render true ++ renderParts ns

end

/-! ### Normal form -/

/-- The number under which a node captures. -/
def number? : Node → Option Nat
  | wrap _ w _ => w.number?
  | _ => none

/-- The numbers of the groups in a tree, in the order of their parentheses. -/
def groups (n : Node) : List Nat := n.subtrees.filterMap number?

theorem groups_wrap {o : Options} {w : Wrap} {n : Node} :
    (wrap o w n).groups = w.number?.toList ++ n.groups := by
  have hnumber : (wrap o w n).number? = w.number? := rfl
  rw [groups, subtrees, List.filterMap_cons, hnumber, groups]
  cases w.number? <;> rfl

theorem groups_many {o : Options} {m : Many} {ns : List Node} :
    (many o m ns).groups = ns.flatMap groups := by
  have hof : ∀ ns, (subtreesOf ns).filterMap number? = ns.flatMap groups := by
    intro ns
    induction ns with
    | nil => rfl
    | cons n ns ih => rw [subtreesOf, List.filterMap_append, ih, List.flatMap_cons, groups]
  rw [groups, subtrees, List.filterMap_cons_none rfl, hof]

end Node

/-- The bounds of a repetition that is neither left out nor a single time. -/
def Repeats (min max : Nat) : Prop :=
  min ≤ max ∧ max ≤ unbounded ∧ ¬ (min = 0 ∧ max = 0) ∧ ¬ (min = 1 ∧ max = 1)

instance (min max : Nat) : Decidable (Repeats min max) := inferInstanceAs (Decidable (_ ∧ _ ∧ _ ∧ _))

/-- The ranges of a class are in order and apart, and it is written out only if it is neither a single
character nor all but one. -/
def CharTest.Normal : CharTest CharClass → Prop
  | .set k =>
    CharClass.Ascending k.ranges.toList ∧ k.isEmpty = false ∧ k.singleton? = none ∧ k.missing? = none
  | _ => True

instance : DecidablePred CharTest.Normal
  | .set _ => inferInstanceAs (Decidable (_ ∧ _ ∧ _ ∧ _))
  | .one _ => .isTrue trivial
  | .notone _ => .isTrue trivial

/-- One of the first `groups` groups, with a number that can be read. -/
def Refers (groups k : Nat) : Prop := k ≤ groups ∧ k ≤ unbounded

instance (groups k : Nat) : Decidable (Refers groups k) := inferInstanceAs (Decidable (_ ∧ _))

def Leaf.Normal (groups : Nat) : Leaf → Prop
  | .test t => t.Normal
  | .span _ t min max => t.Normal ∧ Repeats min max
  | .multi cs => 2 ≤ cs.length
  | .ref k => Refers groups k
  | .assertion a => a.letter?.isSome
  | .nothing => False
  | .empty => True

instance (groups : Nat) : DecidablePred (Leaf.Normal groups)
  | .test t => inferInstanceAs (Decidable t.Normal)
  | .span _ _ _ _ => inferInstanceAs (Decidable (_ ∧ _))
  | .multi cs => inferInstanceAs (Decidable (2 ≤ cs.length))
  | .ref k => inferInstanceAs (Decidable (Refers groups k))
  | .assertion a => inferInstanceAs (Decidable (a.letter?.isSome = true))
  | .nothing => .isFalse id
  | .empty => .isTrue trivial

def Wrap.Normal : Wrap → Prop
  | .loop _ min max => Repeats min max
  | .capture number uncapture => number.isSome ∧ uncapture = none
  | _ => True

instance : DecidablePred Wrap.Normal
  | .loop _ min max => inferInstanceAs (Decidable (Repeats min max))
  | .capture _ _ => inferInstanceAs (Decidable (_ ∧ _))
  | .require => .isTrue trivial
  | .prevent => .isTrue trivial
  | .greedy => .isTrue trivial

namespace Node

def kind? : Node → Option Many
  | many _ kind _ => some kind
  | _ => none

def isEmpty : Node → Bool
  | leaf _ .empty => true
  | _ => false

theorem kind?_eq_some {n : Node} {kind : Many} (h : n.kind? = some kind) : ∃ o ns, n = many o kind ns := by
  cases n with
  | leaf => cases h
  | wrap => cases h
  | many o k ns =>
    cases h
    exact ⟨o, ns, rfl⟩

theorem isEmpty_iff {n : Node} : n.isEmpty = true ↔ ∃ o, n = leaf o .empty := by
  refine ⟨fun h => ?_, fun ⟨o, h⟩ => h ▸ rfl⟩
  unfold isEmpty at h
  split at h
  · exact ⟨_, rfl⟩
  · cases h

theorem strip_of_two {o : Options} {kind : Many} {none : Leaf} {ns : List Node} (h : 2 ≤ ns.length) :
    strip o kind none ns = many o kind ns := by
  match ns, h with
  | _ :: _ :: _, _ => rfl

/-- What a tree without options looks like at one node, if `groups` groups can be referred to. -/
def NormalAt (groups : Nat) : Node → Prop
  | leaf o l => o = {} ∧ l.Normal groups
  | wrap o w _ => o = {} ∧ w.Normal
  | many o .alternate ns => o = {} ∧ 2 ≤ ns.length ∧ ∀ n ∈ ns, n.kind? ≠ some .alternate
  | many o .concatenate ns =>
    o = {} ∧ 2 ≤ ns.length ∧ (∀ n ∈ ns, n.kind? ≠ some .concatenate ∧ n.isEmpty = false) ∧
      ns.IsChain fun m n => m.literal? = none ∨ n.literal? = none
  | many o (.testref k) ns => o = {} ∧ (ns.length = 1 ∨ ns.length = 2) ∧ Refers groups k
  | many _ _ _ => False

instance (groups : Nat) : DecidablePred (NormalAt groups)
  | leaf _ _ => inferInstanceAs (Decidable (_ ∧ _))
  | wrap _ _ _ => inferInstanceAs (Decidable (_ ∧ _))
  | many _ .alternate _ => inferInstanceAs (Decidable (_ ∧ _ ∧ _))
  | many _ .concatenate _ => inferInstanceAs (Decidable (_ ∧ _ ∧ _ ∧ _))
  | many _ (.testref _) _ => inferInstanceAs (Decidable (_ ∧ _ ∧ _))
  | many _ .group _ => .isFalse id
  | many _ .testgroup _ => .isFalse id

/-- A tree that the reader can give back. -/
structure Normal (t : Node) : Prop where
  everywhere : t.Everywhere (NormalAt t.groups.length)
  /-- Groups are numbered from 1 on. -/
  numbered : t.groups = List.range' 1 t.groups.length

instance : DecidablePred Normal := fun _ =>
  decidable_of_iff (_ ∧ _) ⟨fun h => ⟨h.1, h.2⟩, fun h => ⟨h.everywhere, h.numbered⟩⟩

variable {groups : Nat} {n : Node} {ns : List Node}

theorem NormalAt.options (h : n.NormalAt groups) : n.options = {} := by
  match n, h with
  | leaf _ _, h => exact h.1
  | wrap _ _ _, h => exact h.1
  | many _ .alternate _, h => exact h.1
  | many _ .concatenate _, h => exact h.1
  | many _ (.testref _) _, h => exact h.1

/-! ### Characters and literals -/

/-- Literal characters, each for itself. -/
def ofChars (cs : List Char) : List Node := cs.map fun c => leaf {} (.test (.one c))

theorem ofChars_append (cs ds : List Char) :
    ofChars (cs ++ ds) = ofChars cs ++ ofChars ds := List.map_append ..

/-- A literal text character by character; anything else as it is. -/
def spell : Node → List Node
  | leaf o (.multi cs) => cs.map fun c => leaf o (.test (.one c))
  | n => [n]

/-- What a sequence without options may have as a part. -/
structure Part (n : Node) : Prop where
  options : n.options = {}
  parts : n.parts false = [n]
  multi : ∀ o cs, n = leaf o (.multi cs) → 2 ≤ cs.length

theorem part_leaf {l : Leaf} (hempty : l ≠ .empty) (hmulti : ∀ cs, l = .multi cs → 2 ≤ cs.length) :
    (leaf {} l).Part := by
  refine ⟨rfl, ?_, ?_⟩
  · cases l with
    | empty => exact absurd rfl hempty
    | _ => rfl
  · rintro o cs heq
    cases heq
    exact hmulti cs rfl

theorem absorb?_literal {a b : List Char} {m : Node} (hn : n.options = {}) (hm : m.options = {})
    (ha : n.literal? = some a) (hb : m.literal? = some b) :
    n.absorb? m = some (leaf {} (.multi (a ++ b))) := by
  rw [absorb?, hn, hm, if_pos rfl, ha, hb]
  rfl

/-- Literal characters one by one are absorbed like their text. -/
theorem mergeFrom_ofChars {a cs : List Char} {rest : List Node} (hn : n.options = {})
    (ha : n.literal? = some a) (hcs : cs ≠ []) :
    mergeFrom n (ofChars cs ++ rest) = mergeFrom (leaf {} (.multi (a ++ cs))) rest := by
  induction cs generalizing n a with
  | nil => exact absurd rfl hcs
  | cons c cs ih =>
    have habsorb : n.absorb? (leaf {} (.test (.one c))) = some (leaf {} (.multi (a ++ [c]))) :=
      absorb?_literal hn rfl ha rfl
    rw [ofChars, List.map_cons, List.cons_append, mergeFrom, habsorb]
    cases cs with
    | nil => rfl
    | cons d cs =>
      show mergeFrom _ (ofChars (d :: cs) ++ rest) = _
      rw [ih rfl rfl (by simp), List.append_assoc, List.singleton_append]

theorem spell_multi {o : Options} {cs : List Char} (h : Part (leaf o (.multi cs))) :
    ∃ c d ds, cs = c :: d :: ds ∧ spell (leaf o (.multi cs)) = ofChars (c :: d :: ds) ∧ o = {} := by
  have hlen := h.multi o cs rfl
  obtain rfl : o = {} := h.options
  match cs, hlen with
  | c :: d :: ds, _ => exact ⟨c, d, ds, rfl, rfl, rfl⟩

/-- A literal of several characters, or not. -/
theorem spell_cases (h : n.Part) :
    (∃ c d ds, n = leaf {} (.multi (c :: d :: ds)) ∧ n.spell = ofChars (c :: d :: ds)) ∨
      n.spell = [n] := by
  match n with
  | leaf o (.multi cs) =>
    obtain ⟨c, d, ds, rfl, hspell, rfl⟩ := spell_multi h
    exact .inl ⟨c, d, ds, rfl, hspell⟩
  | leaf _ (.test _) => exact .inr rfl
  | leaf _ (.span _ _ _ _) => exact .inr rfl
  | leaf _ (.ref _) => exact .inr rfl
  | leaf _ (.assertion _) => exact .inr rfl
  | leaf _ .nothing => exact .inr rfl
  | leaf _ .empty => exact .inr rfl
  | wrap _ _ _ => exact .inr rfl
  | many _ _ _ => exact .inr rfl

theorem mergeFrom_spell (hns : ∀ m ∈ ns, m.Part) (n : Node) :
    mergeFrom n (ns.flatMap spell) = mergeFrom n ns := by
  induction ns generalizing n with
  | nil => rfl
  | cons m rest ih =>
    have hrest := fun m hm => hns m (List.mem_cons_of_mem _ hm)
    rw [List.flatMap_cons]
    rcases spell_cases (hns m List.mem_cons_self) with ⟨c, d, ds, rfl, hspell⟩ | hspell
    · rw [hspell]
      by_cases hn : n.options = {} ∧ n.literal?.isSome
      · obtain ⟨a, ha⟩ := Option.isSome_iff_exists.mp hn.2
        rw [mergeFrom_ofChars hn.1 ha (by simp), mergeFrom, absorb?_literal hn.1 rfl ha rfl]
        exact ih hrest _
      · have hnone : ∀ l, n.absorb? (leaf {} l) = none := by
          intro l
          unfold absorb?
          split
          · rename_i ho
            have hlit : n.literal? = none := Option.not_isSome_iff_eq_none.mp fun hsome => hn ⟨ho, hsome⟩
            rw [hlit]
          · rfl
        rw [ofChars, List.map_cons, List.cons_append, mergeFrom, hnone, mergeFrom, hnone]
        show n :: mergeFrom _ (ofChars (d :: ds) ++ _) = _
        rw [mergeFrom_ofChars rfl rfl (by simp), List.singleton_append, ih hrest]
    · rw [hspell, List.singleton_append, mergeFrom, mergeFrom]
      split
      · exact ih hrest _
      · rw [ih hrest]

/-- Joining literals undoes spelling them. -/
theorem mergeLiterals_spell (hns : ∀ m ∈ ns, m.Part) :
    mergeLiterals (ns.flatMap spell) = mergeLiterals ns := by
  cases ns with
  | nil => rfl
  | cons m rest =>
    have hrest := fun m hm => hns m (List.mem_cons_of_mem _ hm)
    rw [List.flatMap_cons]
    rcases spell_cases (hns m List.mem_cons_self) with ⟨c, d, ds, rfl, hspell⟩ | hspell
    · rw [hspell]
      show mergeFrom (leaf {} (.test (.one c))) (ofChars (d :: ds) ++ rest.flatMap spell) = _
      rw [mergeFrom_ofChars rfl rfl (by simp), List.singleton_append]
      exact mergeFrom_spell hrest _
    · rw [hspell]
      exact mergeFrom_spell hrest _

theorem mergeLiterals_of_chain (h : ns.IsChain fun m n => m.literal? = none ∨ n.literal? = none) :
    mergeLiterals ns = ns := by
  have hfrom : ∀ (ns : List Node) (n : Node),
      (n :: ns).IsChain (fun m n => m.literal? = none ∨ n.literal? = none) → mergeFrom n ns = n :: ns := by
    intro ns
    induction ns with
    | nil => intro n _; rfl
    | cons m rest ih =>
      intro n h
      rw [List.isChain_cons_cons] at h
      have hnone : n.absorb? m = none := by
        unfold absorb?
        split
        · rcases h.1 with h | h <;> simp [h]
        · rfl
      rw [mergeFrom, hnone, ih m h.2]
  cases ns with
  | nil => rfl
  | cons n ns => exact hfrom ns n h

/-! ### Repetitions -/

theorem quantify_test {o : Options} {lazy : Bool} {t : CharTest CharClass} {min max : Nat}
    (h : Repeats min max) : (leaf o (.test t)).quantify lazy min max = leaf o (.span lazy t min max) := by
  rw [quantify, if_neg h.2.2.1, if_neg h.2.2.2]

theorem quantify_group {o : Options} {lazy : Bool} {min max : Nat} (h : Repeats min max) :
    (many o .group ns).quantify lazy min max = wrap o (.loop lazy min max) (many o .group ns).ungroup := by
  unfold quantify
  rw [if_neg h.2.2.1, if_neg h.2.2.2]
  rfl

/-! ### Branches -/

/-- The parts of a branch, character by character. -/
def spelled (n : Node) : List Node := (n.parts false).flatMap spell

/-- The branch that has the given parts. -/
def joined (ns : List Node) : Node := strip {} .concatenate .empty (mergeLiterals ns)

theorem partsOf_eq (h : ∀ n ∈ ns, n.parts false = [n]) : partsOf false ns = ns := by
  induction ns with
  | nil => rfl
  | cons n ns ih =>
    rw [partsOf, h n List.mem_cons_self, ih fun m hm => h m (List.mem_cons_of_mem _ hm)]
    rfl

/-- A normal node that is neither empty nor a sequence is a part. -/
theorem NormalAt.part (h : n.NormalAt groups) (hseq : n.kind? ≠ some .concatenate)
    (hempty : n.isEmpty = false) : n.Part := by
  cases n with
  | leaf o l =>
    obtain ⟨rfl, hl⟩ := h
    refine part_leaf (fun heq => ?_) fun cs heq => by rw [heq] at hl; exact hl
    rw [heq] at hempty
    cases hempty
  | wrap => exact ⟨h.options, rfl, nofun⟩
  | many o kind ns =>
    refine ⟨h.options, ?_, nofun⟩
    cases kind with
    | concatenate => exact absurd rfl hseq
    | _ => rfl

theorem NormalAt.parts_concatenate {o : Options} (h : (many o .concatenate ns).NormalAt groups)
    (hns : ∀ n ∈ ns, n.NormalAt groups) :
    (∀ n ∈ ns, n.Part) ∧ (many o .concatenate ns).parts false = ns := by
  obtain ⟨rfl, _, hkinds, _⟩ := h
  have hparts : ∀ n ∈ ns, n.Part := fun n hn => (hns n hn).part (hkinds n hn).1 (hkinds n hn).2
  exact ⟨hparts, partsOf_eq fun n hn => (hparts n hn).parts⟩

theorem spelled_part (h : n.Part) : n.spelled = n.spell := by rw [spelled, h.parts, List.flatMap_singleton]

theorem joined_part (h : n.Part) : joined n.spell = n := by
  have hmerge : mergeLiterals ([n].flatMap spell) = mergeLiterals [n] :=
    mergeLiterals_spell (by simpa using h)
  rw [List.flatMap_singleton] at hmerge
  rw [joined, hmerge]
  rfl

/-- A normal branch comes back from its characters. -/
theorem joined_spelled (h : n.Everywhere (NormalAt groups)) : joined n.spelled = n := by
  have hn := h.here
  by_cases hempty : n.isEmpty = true
  · obtain ⟨o, rfl⟩ := isEmpty_iff.mp hempty
    obtain ⟨rfl, _⟩ := hn
    rfl
  by_cases hseq : n.kind? = some .concatenate
  · obtain ⟨o, ns, rfl⟩ := kind?_eq_some hseq
    have hns : ∀ n ∈ ns, n.NormalAt groups := fun n hn => ((everywhere_many.mp h).2 n hn).here
    obtain ⟨hparts, heq⟩ := hn.parts_concatenate hns
    obtain ⟨rfl, hlen, _, hchain⟩ := hn
    rw [spelled, heq, joined, mergeLiterals_spell hparts, mergeLiterals_of_chain hchain]
    exact strip_of_two hlen
  · have hpart := hn.part hseq (Bool.eq_false_iff.mpr hempty)
    rw [spelled_part hpart, joined_part hpart]

/-- A normal node that is no alternation is its only alternative. -/
theorem NormalAt.alternatives (h : n.NormalAt groups) (hkind : n.kind? ≠ some .alternate) :
    n.alternatives = [n] := by
  match n with
  | leaf _ .nothing => exact absurd h.2 id
  | leaf _ .empty => rfl
  | leaf _ (.test _) => rfl
  | leaf _ (.span _ _ _ _) => rfl
  | leaf _ (.multi _) => rfl
  | leaf _ (.ref _) => rfl
  | leaf _ (.assertion _) => rfl
  | wrap _ _ _ => rfl
  | many _ .alternate _ => exact absurd rfl hkind
  | many _ .concatenate _ => rfl
  | many _ .group _ => rfl
  | many _ (.testref _) _ => rfl
  | many _ .testgroup _ => rfl

theorem alternativesOf_eq (h : ∀ n ∈ ns, n.alternatives = [n]) : alternativesOf ns = ns := by
  induction ns with
  | nil => rfl
  | cons n ns ih =>
    rw [alternativesOf, h n List.mem_cons_self, ih fun m hm => h m (List.mem_cons_of_mem _ hm)]
    rfl

theorem NormalAt.ungroup (h : n.NormalAt groups) : n.ungroup = n := by
  unfold Node.ungroup
  split
  · exact h.elim
  · rfl

/-- Only an alternation is written in two ways. -/
theorem render_of_ne (hkind : n.kind? ≠ some .alternate) (nested : Bool) :
    n.render nested = n.render true := by
  cases n with
  | many o kind ns =>
    cases kind with
    | alternate => exact absurd rfl hkind
    | _ => rfl
  | _ => rfl

/-- A normal tree comes back from its alternatives. -/
theorem reduce_alternatives (h : n.Everywhere (NormalAt groups)) :
    (many {} .alternate n.alternatives).reduce = n := by
  have hn := h.here
  by_cases hkind : n.kind? = some .alternate
  · obtain ⟨o, ns, rfl⟩ := kind?_eq_some hkind
    have hns : ∀ n ∈ ns, n.NormalAt groups := fun n hn => ((everywhere_many.mp h).2 n hn).here
    obtain ⟨rfl, hlen, hkinds⟩ := hn
    have heq := alternativesOf_eq fun n hn => (hns n hn).alternatives (hkinds n hn)
    rw [Node.alternatives, heq, reduce, heq, strip_of_two hlen]
  · have hself := hn.alternatives hkind
    rw [hself, reduce, alternativesOf, hself]
    rfl

end Node
end PatternCompiler
