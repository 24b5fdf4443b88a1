import PatternCompiler.Pattern.Parse
import PatternCompiler.Proofs.Groups
import PatternCompiler.Proofs.Tree

/-! What the reader builds.

Every group that a tree names was looked up in the table when it was read, but for
the groups without a name: these get the next number, whether it is in the table or
not. `Node.Sound` says so of one node, and also how many parts a condition has;
`Reader.Holds` says it of all trees that a reader holds, and every round keeps it.
`Pattern.read_sound` is what follows for a whole pattern. -/
namespace PatternCompiler

/-- The groups that a node names are in the table or, for one that it captures, below `next`, and
only the whole match is group 0; a condition has its parts, if maybe not all of them. -/
def Node.Sound (t : GroupTable) (next : Nat) : Node → Prop
  | .leaf _ (.ref n) => n ∈ t.numbers
  | .wrap _ (.capture number uncapture) _ =>
    (∀ n ∈ number, n ≠ 0 ∧ (n ∈ t.numbers ∨ n < next)) ∧ ∀ n ∈ uncapture, n ≠ 0 ∧ n ∈ t.numbers
  | .many _ (.testref n) ns => n ∈ t.numbers ∧ 1 ≤ ns.length ∧ ns.length ≤ 2
  | .many _ .testgroup ns => 1 ≤ ns.length ∧ ns.length ≤ 3
  | _ => True

namespace Node

/-! ### Reduction -/

/-- A property that reduction cannot break: it asks nothing of what reduction makes. -/
structure Stable (P : Node → Prop) : Prop where
  leaf : ∀ o l, (∀ n, l ≠ .ref n) → P (.leaf o l)
  alternate : ∀ o ns, P (.many o .alternate ns)
  concatenate : ∀ o ns, P (.many o .concatenate ns)

theorem sound_stable (t : GroupTable) (next : Nat) : Stable (Sound t next) := by
  refine ⟨fun o l hl => ?_, fun _ _ => trivial, fun _ _ => trivial⟩
  cases l with
  | ref n => exact absurd rfl (hl n)
  | _ => trivial

variable {P : Node → Prop} {m n : Node} {ns : List Node}

theorem mem_alternativesOf : m ∈ alternativesOf ns ↔ ∃ n ∈ ns, m ∈ n.alternatives := by
  induction ns with
  | nil => simp [alternativesOf]
  | cons n ns ih => simp [alternativesOf, ih]

theorem mem_partsOf {rightToLeft : Bool} :
    m ∈ partsOf rightToLeft ns ↔ ∃ n ∈ ns, m ∈ n.parts rightToLeft := by
  induction ns with
  | nil => simp [partsOf]
  | cons n ns ih => simp [partsOf, ih]

/-- A property of trees that reduction keeps: it passes from a tree to its parts, and from the parts of an
alternation or a sequence to what is made of them. -/
structure Robust (Q : Node → Prop) : Prop where
  nothing : ∀ o, Q (.leaf o .nothing)
  empty : ∀ o, Q (.leaf o .empty)
  leaf : ∀ o l, Q (.leaf o l) → Q (Node.leaf o l).reduce
  span : ∀ o t lazy min max, Q (.leaf o (.test t)) → Q (.leaf o (.span lazy t min max))
  literal : ∀ n next m, n.absorb? next = some m → Q n → Q m
  loop : ∀ o lazy min max n, Q n → Q (.wrap o (.loop lazy min max) n)
  inside : ∀ o kind ns, Q (.many o kind ns) → ∀ n ∈ ns, Q n
  many : ∀ o kind ns ms, kind = .alternate ∨ kind = .concatenate → Q (.many o kind ns) →
    (∀ m ∈ ms, Q m) → Q (.many o kind ms)

namespace Robust

variable {Q : Node → Prop} {rightToLeft : Bool}

theorem forall_alternativesOf (hQ : Robust Q) (hns : ∀ n ∈ ns, Q n) : ∀ m ∈ alternativesOf ns, Q m := by
  have halternatives (n : Node) (hn : Q n) : ∀ m ∈ n.alternatives, Q m := by
    induction n with
    | leaf o l => cases l <;> simp_all [alternatives]
    | wrap o w n _ => simpa [alternatives] using hn
    | many o kind ns ih =>
      cases kind with
      | alternate =>
        intro m hm
        rw [alternatives] at hm
        obtain ⟨n, hmem, hm⟩ := mem_alternativesOf.mp hm
        exact ih n hmem (hQ.inside _ _ _ hn n hmem) m hm
      | _ => simpa [alternatives] using hn
  intro m hm
  obtain ⟨n, hmem, hm⟩ := mem_alternativesOf.mp hm
  exact halternatives n (hns n hmem) m hm

theorem forall_partsOf (hQ : Robust Q) (hns : ∀ n ∈ ns, Q n) : ∀ m ∈ partsOf rightToLeft ns, Q m := by
  have hparts (n : Node) (hn : Q n) : ∀ m ∈ n.parts rightToLeft, Q m := by
    induction n with
    | leaf o l => cases l <;> simp_all [parts]
    | wrap o w n _ => simpa [parts] using hn
    | many o kind ns ih =>
      cases kind with
      | concatenate =>
        intro m hm
        rw [parts] at hm
        split at hm
        · obtain ⟨n, hmem, hm⟩ := mem_partsOf.mp hm
          exact ih n hmem (hQ.inside _ _ _ hn n hmem) m hm
        · exact List.mem_singleton.mp hm ▸ hn
      | _ => simpa [parts] using hn
  intro m hm
  obtain ⟨n, hmem, hm⟩ := mem_partsOf.mp hm
  exact hparts n (hns n hmem) m hm

theorem forall_mergeFrom (hQ : Robust Q) (hn : Q n) (hns : ∀ m ∈ ns, Q m) : ∀ m ∈ mergeFrom n ns, Q m := by
  induction ns generalizing n with
  | nil => simpa [mergeFrom] using hn
  | cons next rest ih =>
    obtain ⟨hnext, hrest⟩ := List.forall_mem_cons.mp hns
    rw [mergeFrom]
    split
    · exact ih (hQ.literal _ _ _ ‹_› hn) hrest
    · exact List.forall_mem_cons.mpr ⟨hn, ih hnext hrest⟩

theorem forall_mergeLiterals (hQ : Robust Q) (hns : ∀ m ∈ ns, Q m) : ∀ m ∈ mergeLiterals ns, Q m := by
  cases ns with
  | nil => exact hns
  | cons n ns =>
    obtain ⟨hn, hns⟩ := List.forall_mem_cons.mp hns
    exact hQ.forall_mergeFrom hn hns

theorem ungroup (hQ : Robust Q) (n : Node) (hn : Q n) : Q n.ungroup := by
  induction n with
  | leaf | wrap => exact hn
  | many o kind ns ih =>
    unfold Node.ungroup
    split
    · rename_i m heq
      cases heq
      exact ih m List.mem_cons_self (hQ.inside _ _ _ hn m List.mem_cons_self)
    · exact hn

/-- What holds of a tree holds of the reduced one. -/
theorem reduce (hQ : Robust Q) (n : Node) (hn : Q n) : Q n.reduce := by
  have hstrip {o kind none ns ms} (hkind : kind = Many.alternate ∨ kind = .concatenate) (hnone : Q (.leaf o none))
      (hn : Q (.many o kind ns)) (hms : ∀ m ∈ ms, Q m) : Q (strip o kind none ms) := by
    rcases ms with _ | ⟨m, _ | ⟨m', ms⟩⟩
    · exact hnone
    · exact hms m (List.mem_singleton_self m)
    · exact hQ.many _ _ _ _ hkind hn hms
  cases n with
  | leaf o l => exact hQ.leaf o l hn
  | wrap o w n => exact hn
  | many o kind ns =>
    have hns := hQ.inside _ _ _ hn
    cases kind with
    | alternate => exact hstrip (.inl rfl) (hQ.nothing o) hn (hQ.forall_alternativesOf hns)
    | concatenate =>
      exact hstrip (.inr rfl) (hQ.empty o) hn (hQ.forall_mergeLiterals (hQ.forall_partsOf hns))
    | group => exact hQ.ungroup _ hn
    | _ => exact hn

theorem quantify (hQ : Robust Q) (hn : Q n) (lazy : Bool) (min max : Nat) : Q (n.quantify lazy min max) := by
  unfold Node.quantify
  split
  · exact hQ.empty _
  split
  · exact hn
  split
  · exact hQ.span _ _ _ _ _ hn
  · exact hQ.loop _ _ _ _ _ (hQ.reduce n hn)

end Robust

theorem Stable.robust (hP : Stable P) (hloop : ∀ o lazy min max n, P (.wrap o (.loop lazy min max) n)) :
    Robust (Everywhere P) := by
  have hleaf (o : Options) (l : Leaf) (hl : ∀ n, l ≠ .ref n) : (Node.leaf o l).Everywhere P :=
    everywhere_leaf.mpr (hP.leaf o l hl)
  refine ⟨fun o => hleaf o _ (by simp), fun o => hleaf o _ (by simp), fun o l hl => ?_,
    fun o _ _ _ _ _ => hleaf o _ (by simp), fun n next m h _ => ?_,
    fun _ _ _ _ n hn => everywhere_wrap.mpr ⟨hloop _ _ _ _ n, hn⟩,
    fun _ _ _ h => (everywhere_many.mp h).2, fun o kind ns ms hkind _ hms => ?_⟩
  · cases l with
    | test | span => exact hleaf o _ (by simp)
    | _ => exact hl
  · unfold absorb? at h
    split at h
    · split at h
      · cases h
        exact hleaf _ _ (by simp)
      · cases h
    · cases h
  · rcases hkind with rfl | rfl
    · exact everywhere_many.mpr ⟨hP.alternate o ms, hms⟩
    · exact everywhere_many.mpr ⟨hP.concatenate o ms, hms⟩

/-- Reduction keeps soundness. -/
theorem sound_robust (t : GroupTable) (next : Nat) : Robust (Everywhere (Sound t next)) :=
  (sound_stable t next).robust fun _ _ _ _ _ => trivial

theorem Sound.mono {t : GroupTable} {next next' : Nat} (h : next ≤ next')
    (hn : n.Sound t next) : n.Sound t next' := by
  unfold Sound at hn ⊢
  split at hn
  · exact hn
  · exact ⟨fun k hk => ⟨(hn.1 k hk).1, (hn.1 k hk).2.imp_right fun hlt => Nat.lt_of_lt_of_le hlt h⟩, hn.2⟩
  · exact hn
  · exact hn
  · trivial

end Node

/-! ### Looking up groups -/

namespace Cursor

variable {n : Nat}

theorem le_decimalFrom {pos m : Nat} {cs : List Char} {c : Cursor}
    (h : decimalFrom n pos cs = .ok (m, c)) : n ≤ m := by
  induction cs generalizing n pos with
  | nil =>
    cases h
    exact Nat.le_refl _
  | cons d rest ih =>
    rw [decimalFrom] at h
    split at h
    · dsimp only at h
      split at h
      · have := ih h
        omega
      · cases h
    · cases h
      exact Nat.le_refl _

/-- A numeral that does not begin with a zero is not zero. -/
theorem decimal_ne_zero {c c' : Cursor} {ch : Char} {rest : List Char}
    (hc : c.rest = ch :: rest) (hch : '1' ≤ ch ∧ ch ≤ '9') (h : c.decimal = .ok (n, c')) : n ≠ 0 := by
  have hone : 49 ≤ ch.toNat := hch.1
  have hnine : ch.toNat ≤ 57 := hch.2
  have hdigit : ch.isDigit = true := by
    simp only [Char.isDigit, Bool.and_eq_true, decide_eq_true_eq]
    exact ⟨Nat.le_of_succ_le hone, hnine⟩
  have hpos : 0 < digit ch := by
    show 0 < ch.toNat - 48
    omega
  rw [decimal, hc, decimalFrom, if_pos hdigit] at h
  dsimp only at h
  split at h
  · have := le_decimalFrom h
    omega
  · cases h

variable {t : GroupTable} {c c' : Cursor}

theorem takenNumber_mem (ht : t.NamesNoted) (h : takenNumber t c = .ok (n, c')) : n ≠ 0 ∧ n ∈ t.numbers := by
  unfold takenNumber at h
  split at h
  · cases h
  rename_i ch rest hrest
  split at h
  · rename_i hch
    obtain ⟨⟨m, c₁⟩, hm, h⟩ := exists_ok_of_bind h
    dsimp only at h
    split at h
    · cases h
      exact ⟨decimal_ne_zero hrest hch hm, GroupTable.contains_iff.mp ‹_›⟩
    · cases h
  split at h
  · dsimp only at h
    split at h
    · cases h
      exact (GroupTable.numberOf?_mem ht ‹_›).symm
    · cases h
  · cases h

theorem takenBack?_mem (ht : t.NamesNoted) {close : Char} {allowed : Bool} {number : Option Nat}
    (h : takenBack? t close allowed c = .ok (number, c')) : ∀ n ∈ number, n ≠ 0 ∧ n ∈ t.numbers := by
  unfold takenBack? at h
  split at h
  · obtain ⟨⟨m, c₁⟩, hm, h⟩ := exists_ok_of_bind h
    cases h
    obtain ⟨⟨k, c₂⟩, hk, hm⟩ := exists_ok_of_bind hm
    have hmem := takenNumber_mem ht hk
    dsimp only at hm
    intro n hn
    cases hn
    split at hm
    · cases hm
      exact hmem
    · split at hm
      · cases hm
        exact hmem
      · cases hm
  · cases h
    exact fun n hn => nomatch hn

theorem ownName_mem (ht : t.NamesNoted) {close : Char} {number : Option Nat} {noName : Bool}
    (h : ownName t close c = .ok (number, noName, c')) : ∀ n ∈ number, n ≠ 0 ∧ n ∈ t.numbers := by
  unfold ownName at h
  split at h
  · cases h
  split at h
  · obtain ⟨⟨m, c₁⟩, hm, h⟩ := exists_ok_of_bind h
    dsimp only at h
    split at h
    · cases h
    split at h
    · cases h
      intro n hn
      split at hn
      · cases hn
        exact ⟨‹_›, GroupTable.contains_iff.mp ‹_›⟩
      · cases hn
    · cases h
  split at h
  · dsimp only at h
    split at h
    · cases h
      exact fun n hn => (GroupTable.numberOf?_mem ht hn).symm
    · cases h
  split at h
  · cases h
    exact fun n hn => nomatch hn
  · cases h

end Cursor

/-- What a kind of group says about groups, as `Node.Sound`. -/
def GroupKind.Sound (t : GroupTable) (next : Nat) : GroupKind → Prop
  | .capture number uncapture =>
    (∀ n ∈ number, n ≠ 0 ∧ (n ∈ t.numbers ∨ n < next)) ∧ ∀ n ∈ uncapture, n ≠ 0 ∧ n ∈ t.numbers
  | .testref n => n ∈ t.numbers
  | _ => True

theorem GroupKind.Sound.mono {t : GroupTable} {next next' : Nat} (h : next ≤ next') {kind : GroupKind}
    (hk : kind.Sound t next) : kind.Sound t next' := by
  cases kind with
  | capture number uncapture =>
    exact ⟨fun n hn => ⟨(hk.1 n hn).1, (hk.1 n hn).2.imp_right fun hlt => Nat.lt_of_lt_of_le hlt h⟩, hk.2⟩
  | _ => exact hk

namespace Cursor

variable {t : GroupTable} {c c' : Cursor} {n : Nat} {o : Options} {p : Opening}

theorem captureName_sound (ht : t.NamesNoted) {close : Char} {kind : GroupKind}
    (h : captureName t close c = .ok (kind, c')) (next : Nat) : kind.Sound t next := by
  obtain ⟨⟨number, noName, c₁⟩, hown, h⟩ := exists_ok_of_bind h
  obtain ⟨⟨uncapture, c₂⟩, htaken, h⟩ := exists_ok_of_bind h
  have hkind : kind = .capture number uncapture := by
    dsimp only at h
    split at h
    · split at h
      · cases h
      · split at h <;> cases h
        rfl
    · cases h
  rw [hkind]
  exact ⟨fun n hn => ⟨(ownName_mem ht hown n hn).1, .inl (ownName_mem ht hown n hn).2⟩,
    takenBack?_mem ht htaken⟩

theorem conditionReference?_mem (ht : t.NamesNoted)
    (h : conditionReference? t c = .ok (some (n, c'))) : n ∈ t.numbers := by
  unfold conditionReference? at h
  split at h
  · cases h
  split at h
  · obtain ⟨⟨m, c₁⟩, hm, h⟩ := exists_ok_of_bind h
    dsimp only at h
    split at h
    · split at h
      · cases h
        exact GroupTable.contains_iff.mp ‹_›
      · cases h
    · cases h
  split at h
  · dsimp only at h
    split at h
    · cases h
      exact (GroupTable.numberOf?_mem ht ‹_›).1
    · cases h
  · cases h

/-- What can follow a parenthesis and a question mark, and what it opens. -/
inductive Marked (t : GroupTable) (o : Options) (c : Cursor) : Opening → Prop where
  | group {mark : Char} {rest : List Char} {kind : GroupKind} (hc : c.rest = mark :: rest)
      (hmark : mark = ':' ∧ kind = .plain ∨ mark = '>' ∧ kind = .greedy) :
      Marked t o c { kind := some kind, options := o, cursor := ⟨c.pos + 1, rest⟩ }
  | lookahead {mark : Char} {rest : List Char} {kind : GroupKind} (hc : c.rest = mark :: rest)
      (hmark : mark = '=' ∧ kind = .require ∨ mark = '!' ∧ kind = .prevent) :
      Marked t o c { kind := some kind, options := { o with rightToLeft := false }, cursor := ⟨c.pos + 1, rest⟩ }
  | lookbehind {mark : Char} {rest : List Char} {kind : GroupKind} (hc : c.rest = '<' :: mark :: rest)
      (hmark : mark = '=' ∧ kind = .require ∨ mark = '!' ∧ kind = .prevent) :
      Marked t o c { kind := some kind, options := { o with rightToLeft := true }, cursor := ⟨c.pos + 2, rest⟩ }
  | named {mark close ch : Char} {rest : List Char} {kind : GroupKind} {c' : Cursor}
      (hc : c.rest = mark :: ch :: rest) (hclose : closing? mark = some close)
      (hname : captureName t close ⟨c.pos + 1, ch :: rest⟩ = .ok (kind, c')) :
      Marked t o c { kind := some kind, options := o, cursor := c' }
  /-- A condition that refers to a group. -/
  | reference {rest : List Char} {n : Nat} {c' : Cursor} (hc : c.rest = '(' :: rest)
      (href : conditionReference? t ⟨c.pos + 1, rest⟩ = .ok (some (n, c'))) :
      Marked t o c { kind := some (.testref n), options := o, cursor := c' }
  /-- A condition that is an expression, and is still to be read. -/
  | expression {rest : List Char} (hc : c.rest = '(' :: rest)
      (hnone : conditionReference? t ⟨c.pos + 1, rest⟩ = .ok none) (hcheck : c.checkCondition = .ok ()) :
      Marked t o c { kind := some .testgroup, options := o, cursor := c, condition := true }
  /-- Flags by themselves or those of a group. -/
  | flags {close : Char} {rest : List Char} {kind : Option GroupKind}
      (hname : ∀ ch rest, c.rest ≠ '<' :: ch :: rest ∧ c.rest ≠ '\'' :: ch :: rest)
      (hrest : (c.flags o).2.rest = close :: rest)
      (hclose : close = ')' ∧ kind = none ∨ close = ':' ∧ kind = some .plain) :
      Marked t o c { kind := kind, options := (c.flags o).1, cursor := ⟨(c.flags o).2.pos + 1, rest⟩ }

theorem markedOpening_marked (h : markedOpening t o c = .ok p) : Marked t o c p := by
  have hnamed {mark close : Char} {rest : List Char} (hc : c.rest = mark :: rest) (hne : rest ≠ [])
      (hclose : closing? mark = some close)
      (h : (captureName t close ⟨c.pos + 1, rest⟩ >>= fun a =>
        .ok { kind := some a.1, options := o, cursor := a.2 } : Except Problem Opening) = .ok p) :
      Marked t o c p := by
    obtain ⟨ch, rest, rfl⟩ := List.exists_cons_of_ne_nil hne
    obtain ⟨⟨kind, c'⟩, hname, h⟩ := exists_ok_of_bind h
    cases h
    exact .named hc hclose hname
  unfold markedOpening at h
  dsimp only at h
  split at h
  · cases h
  · cases h
    exact .group ‹_› (.inl ⟨rfl, rfl⟩)
  · cases h
    exact .lookahead ‹_› (.inl ⟨rfl, rfl⟩)
  · cases h
    exact .lookahead ‹_› (.inr ⟨rfl, rfl⟩)
  · cases h
    exact .group ‹_› (.inr ⟨rfl, rfl⟩)
  · split at h
    · cases h
    · cases h
      exact .lookbehind ‹_› (.inl ⟨rfl, rfl⟩)
    · cases h
      exact .lookbehind ‹_› (.inr ⟨rfl, rfl⟩)
    · rename_i hne _ _
      exact hnamed ‹_› hne rfl h
  · split at h
    · cases h
    · rename_i hne
      exact hnamed ‹_› hne rfl h
  · rename_i rest hc
    have hskip : c.skipOne = ⟨c.pos + 1, rest⟩ := by rw [skipOne, hc]
    obtain ⟨found, hfound, h⟩ := exists_ok_of_bind h
    rw [hskip] at hfound
    split at h
    · cases h
      exact .reference hc hfound
    · obtain ⟨_, hcheck, h⟩ := exists_ok_of_bind h
      cases h
      exact .expression hc hfound hcheck
  · rename_i hangle hquote _
    unfold flagGroup at h
    dsimp only at h
    split at h
    · cases h
    · cases h
      exact .flags (fun ch rest => ⟨hangle _, hquote _⟩) ‹_› (.inl ⟨rfl, rfl⟩)
    · cases h
      exact .flags (fun ch rest => ⟨hangle _, hquote _⟩) ‹_› (.inr ⟨rfl, rfl⟩)
    · cases h

theorem opening?_marked (h : c.opening? t o = .ok (some p)) :
    ∃ rest, c.rest = '?' :: rest ∧ (∀ tail, rest ≠ ')' :: tail) ∧ Marked t o ⟨c.pos + 1, rest⟩ p := by
  unfold opening? at h
  split at h
  · cases h
  · rename_i rest hclosed hrest
    obtain ⟨p', hp, h⟩ := exists_ok_of_bind h
    cases h
    exact ⟨rest, hrest, hclosed, markedOpening_marked hp⟩
  · cases h

theorem opening?_sound (ht : t.NamesNoted)
    (h : c.opening? t o = .ok (some p)) (next : Nat) : ∀ kind ∈ p.kind, kind.Sound t next := by
  obtain ⟨rest, _, _, hmarked⟩ := opening?_marked h
  cases hmarked with
  | group _ hmark | lookahead _ hmark | lookbehind _ hmark =>
    rintro _ ⟨⟩
    rcases hmark with ⟨_, rfl⟩ | ⟨_, rfl⟩ <;> trivial
  | named _ _ hname =>
    rintro _ ⟨⟩
    exact captureName_sound ht hname next
  | reference _ href =>
    rintro _ ⟨⟩
    exact conditionReference?_mem ht href
  | expression =>
    rintro _ ⟨⟩
    trivial
  | flags _ _ hclose =>
    rcases hclose with ⟨_, rfl⟩ | ⟨_, rfl⟩
    · rintro _ ⟨⟩
    · rintro _ ⟨⟩
      trivial

/-! ### References -/

theorem declared_mem {backslash : Nat}
    (h : (match t.offset? n with
      | some declaration => decide (declaration < backslash) | none => false) = true) : n ∈ t.numbers := by
  split at h
  · rename_i offset hoffset
    obtain ⟨before, after, hgroups, _⟩ := List.lookup_eq_some_iff.mp hoffset
    exact List.mem_map.mpr ⟨(n, offset), by rw [hgroups]; simp, rfl⟩
  · cases h

theorem chosen_mem {declared : Bool} {found : Option Nat}
    (hn : declared = true → n ∈ t.numbers) (hfound : ∀ k ∈ found, k ∈ t.numbers) :
    ∀ k ∈ (if declared then some n else found), k ∈ t.numbers := by
  intro k hk
  split at hk
  · cases hk
    exact hn ‹_›
  · exact hfound k hk

theorem ecmaReferenceFrom_mem {backslash pos : Nat} {cs : List Char} {found : Option Nat}
    (hfound : ∀ k ∈ found, k ∈ t.numbers) :
    ∀ k ∈ (ecmaReferenceFrom t backslash n found pos cs).1, k ∈ t.numbers := by
  induction cs generalizing n found pos with
  | nil => exact hfound
  | cons d rest ih =>
    rw [ecmaReferenceFrom]
    split
    · dsimp only
      have hnext := chosen_mem (@declared_mem t n backslash) hfound
      split
      · split
        · exact ih hnext
        · exact hnext
      · exact hnext
    · exact hfound

theorem enclosedReference?_mem (ht : t.NamesNoted) {close : Char}
    (h : enclosedReference? t close c = .ok (some (n, c'))) : n ∈ t.numbers := by
  unfold enclosedReference? at h
  split at h
  · cases h
  split at h
  · obtain ⟨⟨m, c₁⟩, hm, h⟩ := exists_ok_of_bind h
    dsimp only at h
    split at h
    · split at h
      · cases h
      split at h
      · cases h
        exact GroupTable.contains_iff.mp ‹_›
      · cases h
    · cases h
  split at h
  · dsimp only at h
    split at h
    · split at h
      · cases h
      split at h
      · cases h
        exact (GroupTable.numberOf?_mem ht ‹_›).1
      · cases h
    · cases h
  · cases h

theorem numberedReference?_mem {ecma : Bool}
    (h : numberedReference? t ecma c = .ok (some (n, c'))) : n ∈ t.numbers := by
  unfold numberedReference? at h
  split at h
  · obtain ⟨k, hk, heq⟩ := Option.map_eq_some_iff.mp (Except.ok.inj h)
    cases heq
    split at hk
    · cases hk
    · exact ecmaReferenceFrom_mem (by simp) n hk
  · obtain ⟨⟨m, c₁⟩, hm, h⟩ := exists_ok_of_bind h
    dsimp only at h
    split at h
    · cases h
      exact GroupTable.contains_iff.mp ‹_›
    split at h <;> cases h

theorem reference?_mem (ht : t.NamesNoted) {ecma : Bool}
    (h : reference? t ecma c = .ok (some (n, c'))) : n ∈ t.numbers := by
  unfold reference? at h
  split at h
  · cases h
  · split at h
    · cases h
    · dsimp only at h
      split at h
      · cases h
      split at h
      · cases h
      · exact enclosedReference?_mem ht h
  · split at h
    · split at h
      · cases h
      · exact enclosedReference?_mem ht h
    split at h
    · exact numberedReference?_mem h
    · cases h

/-- A reference that is read is to a group that there is. -/
theorem backslash_mem {e : Setting} (ht : e.table.NamesNoted)
    (h : c.backslash e o = .ok (.ref n, c')) : n ∈ e.table.numbers := by
  unfold backslash at h
  split at h
  · cases h
  dsimp only at h
  split at h
  · cases h
  split at h
  · cases h
  split at h
  · obtain ⟨⟨k, c₁⟩, _, h⟩ := exists_ok_of_bind h
    cases h
  · unfold referenceOrChar at h
    obtain ⟨found, hfound, h⟩ := exists_ok_of_bind h
    split at h
    · cases h
      exact reference?_mem ht hfound
    · obtain ⟨⟨ch, c₁⟩, _, h⟩ := exists_ok_of_bind h
      cases h

end Cursor

/-! ### Open groups -/

namespace Frame

/-- All trees that an open group holds are sound. -/
structure Holds (t : GroupTable) (next : Nat) (f : Frame) : Prop where
  branches : ∀ n ∈ f.branches.toList, n.Everywhere (Node.Sound t next)
  parts : ∀ n ∈ f.parts.toList, n.Everywhere (Node.Sound t next)

/-- The open groups from the inside out are sound, and the outermost one is the whole match. -/
def Stacked (t : GroupTable) (next : Nat) (f : Frame) : List Frame → Prop
  | [] => f.Holds t next ∧ f.kind = .capture (some 0) none
  | g :: outer => f.Holds t next ∧ f.kind.Sound t next ∧ g.Stacked t next outer

variable {t : GroupTable} {next next' : Nat} {f g : Frame} {outer : List Frame} {n : Node} {o : Options}

theorem Holds.mono (h : next ≤ next') (hf : f.Holds t next) : f.Holds t next' :=
  ⟨fun n hn => (hf.branches n hn).imp fun _ => .mono h, fun n hn => (hf.parts n hn).imp fun _ => .mono h⟩

theorem Stacked.mono (h : next ≤ next') (hf : f.Stacked t next outer) : f.Stacked t next' outer := by
  induction outer generalizing f with
  | nil => exact ⟨hf.1.mono h, hf.2⟩
  | cons g outer ih => exact ⟨hf.1.mono h, hf.2.1.mono h, ih hf.2.2⟩

theorem Stacked.holds (hf : f.Stacked t next outer) : f.Holds t next := by
  cases outer with
  | nil | cons => exact hf.1

theorem Stacked.replace (hf : f.Stacked t next outer) (hg : g.Holds t next) (hkind : g.kind = f.kind) :
    g.Stacked t next outer := by
  cases outer with
  | nil => exact ⟨hg, hkind.trans hf.2⟩
  | cons f' outer => exact ⟨hg, hkind ▸ hf.2.1, hf.2.2⟩

theorem opened_holds (kind : GroupKind) (o : Options) : (opened kind o).Holds t next :=
  ⟨fun _ hn => absurd hn List.not_mem_nil, fun _ hn => absurd hn List.not_mem_nil⟩

theorem Stacked.push (hf : f.Stacked t next outer) {kind : GroupKind} (hkind : kind.Sound t next)
    (o : Options) : (opened kind o).Stacked t next (f :: outer) :=
  ⟨opened_holds kind o, hkind, hf⟩

theorem forall_mem_push {P : Node → Prop} {ns : Array Node} (h : ∀ m ∈ ns.toList, P m) (hn : P n) :
    ∀ m ∈ (ns.push n).toList, P m := by
  rw [Array.toList_push]
  exact List.forall_mem_append.mpr ⟨h, List.forall_mem_singleton.mpr hn⟩

theorem add_holds (hf : f.Holds t next) (hn : n.Everywhere (Node.Sound t next)) : (f.add n).Holds t next :=
  ⟨hf.branches, forall_mem_push hf.parts ((Node.sound_robust t next).reduce n hn)⟩

theorem sequence_everywhere (hf : f.Holds t next) : f.sequence.Everywhere (Node.Sound t next) := by
  refine Node.everywhere_many.mpr ⟨trivial, fun n hn => ?_⟩
  split at hn
  · exact hf.parts n (List.mem_reverse.mp hn)
  · exact hf.parts n hn

theorem pushBranch_holds (hf : f.Holds t next) (hn : n.Everywhere (Node.Sound t next)) :
    { f with branches := f.branches.push n.reduce }.Holds t next :=
  ⟨forall_mem_push hf.branches ((Node.sound_robust t next).reduce n hn), hf.parts⟩

theorem endBranch_holds (hf : f.Holds t next) (o : Options) : (f.endBranch o).Holds t next :=
  ⟨(pushBranch_holds hf (sequence_everywhere hf)).branches, fun _ hn => absurd hn List.not_mem_nil⟩

theorem body_everywhere (hf : f.Holds t next) :
    (Node.many f.options .alternate f.branches.toList).reduce.Everywhere (Node.Sound t next) :=
  (Node.sound_robust t next).reduce _ (Node.everywhere_many.mpr ⟨trivial, hf.branches⟩)

/-- The tree of a finished group is sound if its kind is; a conditional has a branch at least, and
no more of them than the group may have. -/
theorem node_everywhere (hf : f.Holds t next) (hkind : f.kind.Sound t next)
    (hmin : 0 < f.branches.size) (hmax : ∀ limit ∈ f.limit?, f.branches.size ≤ limit) :
    f.node.Everywhere (Node.Sound t next) := by
  have hbody := body_everywhere hf
  unfold node
  cases hk : f.kind with
  | capture number uncapture =>
    rw [hk] at hkind
    exact Node.everywhere_wrap.mpr ⟨hkind, hbody⟩
  | testref n =>
    rw [hk] at hkind
    have hsize := hmax 2 (by rw [limit?, hk]; rfl)
    exact Node.everywhere_many.mpr ⟨⟨hkind, hmin, hsize⟩, hf.branches⟩
  | testgroup =>
    have hsize := hmax 3 (by rw [limit?, hk]; rfl)
    exact Node.everywhere_many.mpr ⟨⟨hmin, hsize⟩, hf.branches⟩
  | plain =>
    refine Node.everywhere_many.mpr ⟨trivial, fun n hn => ?_⟩
    rw [List.mem_singleton.mp hn]
    exact hbody
  | _ => exact Node.everywhere_wrap.mpr ⟨trivial, hbody⟩

theorem close?_eq_some (h : f.close? o = some n) :
    n = (f.endBranch o).node ∧ ∀ limit ∈ f.limit?, (f.endBranch o).branches.size ≤ limit := by
  unfold close? at h
  dsimp only at h
  split at h
  · rename_i limit hlimit
    split at h
    · cases h
    · refine ⟨(Option.some.inj h).symm, fun limit' hlimit' => ?_⟩
      have heq : limit = limit' := Option.some.inj (hlimit.symm.trans hlimit')
      omega
  · rename_i hlimit
    refine ⟨(Option.some.inj h).symm, fun limit' hlimit' => ?_⟩
    cases hlimit.symm.trans hlimit'

theorem close?_everywhere (hf : f.Holds t next) (hkind : f.kind.Sound t next)
    (h : f.close? o = some n) : n.Everywhere (Node.Sound t next) := by
  obtain ⟨rfl, hmax⟩ := close?_eq_some h
  refine node_everywhere (endBranch_holds hf o) hkind ?_ hmax
  rw [endBranch, Array.size_push]
  exact Nat.succ_pos _

/-- The tree of the whole match. -/
theorem close?_whole (hf : f.Holds t next) (hkind : f.kind = .capture (some 0) none)
    (h : f.close? o = some n) :
    ∃ body, n = .wrap f.options (.capture (some 0) none) body ∧ body.Everywhere (Node.Sound t next) := by
  obtain ⟨rfl, _⟩ := close?_eq_some h
  refine ⟨_, ?_, body_everywhere (endBranch_holds hf o)⟩
  rw [node, show (f.endBranch o).kind = f.kind from rfl, hkind]
  rfl

end Frame

/-! ### What reading keeps -/

namespace Reader

variable {e : Setting} {P : Reader → Prop} {r r' : Reader}

theorem addRun_unit (e : Setting) (r : Reader) (run : List Char) : (r.addRun e run).unit = r.unit := by
  unfold addRun
  split <;> rfl

theorem place_unit (r : Reader) : r.place.unit = none := by
  unfold place
  split
  · rfl
  · assumption

theorem placeQuantified_unit (r : Reader) (lazy : Bool) (min max : Nat) :
    (r.placeQuantified lazy min max).unit = none := by
  unfold placeQuantified
  split
  · rfl
  · assumption

theorem unmarked_unit (r : Reader) : r.unmarked.unit = r.unit := by
  unfold unmarked
  split <;> rfl

/-- What an opening parenthesis does: it opens a group that has no mark, sets flags, or opens a group of
the kind that its mark tells. -/
theorem openGroup_cases (h : r.openGroup e = .ok r') :
    (r.cursor.opening? e.table r.options = .ok none ∧ r' = { r.unmarked with saved := r.options :: r.saved }) ∨
      ∃ p, r.cursor.opening? e.table r.options = .ok (some p) ∧
        ((p.kind = none ∧ r' = { r with cursor := p.cursor, options := p.options, ignoreNext := p.condition }) ∨
          ∃ kind, p.kind = some kind ∧ r' = { r with
            cursor := p.cursor, options := p.options, ignoreNext := p.condition, frame := .opened kind p.options
            outer := r.frame :: r.outer, saved := r.options :: r.saved }) := by
  obtain ⟨opening, hopening, h⟩ := exists_ok_of_bind h
  split at h
  · cases h
    exact .inl ⟨hopening, rfl⟩
  · rename_i p
    dsimp only at h
    split at h
    · cases h
      exact .inr ⟨p, hopening, .inl ⟨‹_›, rfl⟩⟩
    · cases h
      exact .inr ⟨p, hopening, .inr ⟨_, ‹_›, rfl⟩⟩

theorem openGroup_unit (h : r.openGroup e = .ok r') : r'.unit = r.unit := by
  obtain ⟨_, rfl⟩ | ⟨p, _, ⟨_, rfl⟩ | ⟨kind, _, rfl⟩⟩ := openGroup_cases h
  · exact unmarked_unit r
  · rfl
  · rfl

/-- What a closing parenthesis does: the innermost group becomes a tree, which is the condition that the
group around it waits for, or may be quantified. -/
theorem closeGroup_cases (h : r.closeGroup = .ok r') :
    ∃ f rest n, r.outer = f :: rest ∧ r.frame.close? r.options = some n ∧
      ((f.awaitsCondition = true ∧ r' =
          { r with outer := rest, frame := { f with branches := f.branches.push n.reduce } }.restore) ∨
        (f.awaitsCondition = false ∧ r' = { r with outer := rest, frame := f, unit := some n }.restore)) := by
  unfold closeGroup at h
  split at h
  · cases h
  rename_i f rest houter
  split at h
  · cases h
  rename_i n hn
  refine ⟨f, rest, n, houter, hn, ?_⟩
  dsimp only at h
  split at h
  · cases h
    exact .inl ⟨‹_›, rfl⟩
  · cases h
    exact .inr ⟨Bool.eq_false_iff.mpr ‹_›, rfl⟩

/-- What reading a quantifier does to the part that was read last. -/
theorem quantifier_cases (h : r.quantifier = .ok r') :
    ∃ c, r.cursor.skipBlanks r.options = .ok c ∧
      ((∃ after, r' = { r.place with cursor := c, afterQuantifier := after }) ∨
        ∃ min max c₁ c₂ lazy, c.bounds? = .ok (some (min, max, c₁)) ∧
          c₁.skipBlanks r.options = .ok c₂ ∧ min ≤ max ∧
          r' = { r.placeQuantified lazy min max with cursor := c₂.skipChar '?', afterQuantifier := true }) := by
  obtain ⟨c, hc, h⟩ := exists_ok_of_bind h
  refine ⟨c, hc, ?_⟩
  split at h
  · obtain ⟨found, hfound, h⟩ := exists_ok_of_bind h
    split at h
    · cases h
      exact .inl ⟨true, rfl⟩
    · rename_i min max c₁
      obtain ⟨c₂, hc₂, h⟩ := exists_ok_of_bind h
      dsimp only at h
      split at h
      · cases h
      · rename_i hle
        cases h
        exact .inr ⟨min, max, c₁, c₂, _, hfound, hc₂, Nat.le_of_not_lt hle, rfl⟩
  · cases h
    exact .inl ⟨false, rfl⟩

/-- A leaf that is read at the cursor, but for literal characters. -/
inductive Yields (e : Setting) (r : Reader) : Leaf → Prop where
  | bracket {m : Cursor.BracketMode} {k : CharClass} {c : Cursor} (h : r.cursor.bracket m = .ok (k, c)) :
    Yields e r (.test (.set k))
  | backslash {l : Leaf} {c : Cursor} (h : r.cursor.backslash e r.options = .ok (l, c)) : Yields e r l
  | assertion (a : Assertion) : Yields e r (.assertion a)
  | any (singleline : Bool) : Yields e r (.test (if singleline then .set CharClass.any else .notone '\n'))

/-- A property that everything a round consists of keeps. -/
structure Kept (e : Setting) (P : Reader → Prop) : Prop where
  move {r : Reader} (c : Cursor) (after : Bool) (h : P r) : P { r with cursor := c, afterQuantifier := after }
  place {r : Reader} (h : P r) : P r.place
  placeQuantified {r : Reader} {min max : Nat} {c c' : Cursor} (lazy : Bool) (hle : min ≤ max)
    (hread : c.bounds? = .ok (some (min, max, c'))) (h : P r) : P (r.placeQuantified lazy min max)
  addRun {r : Reader} (run : List Char) (h : P r) : P (r.addRun e run)
  addRunQuantified {r : Reader} (run : List Char) (h : P r) : P (r.addRunQuantified e run)
  withUnit {r : Reader} {l : Leaf} (hl : r.Yields e l) (h : P r) : P (r.withUnit l)
  endBranch {r : Reader} (h : P r) : P { r with frame := r.frame.endBranch r.options }
  openGroup {r r' : Reader} (hunit : r.unit = none) (hopen : r.openGroup e = .ok r') (h : P r) : P r'
  closeGroup {r r' : Reader} (hunit : r.unit = none) (hclose : r.closeGroup = .ok r') (h : P r) : P r'

namespace Kept

theorem quantifier (hP : Kept e P) (hr : P r) (h : r.quantifier = .ok r') : P r' ∧ r'.unit = none := by
  obtain ⟨c, _, ⟨after, rfl⟩ | ⟨min, max, c₁, c₂, lazy, hread, _, hle, rfl⟩⟩ := quantifier_cases h
  · exact ⟨hP.move _ _ (hP.place hr), place_unit r⟩
  · exact ⟨hP.move _ _ (hP.placeQuantified lazy hle hread hr), placeQuantified_unit r lazy min max⟩

/-- A construct. Nothing that may still be quantified is left after it. -/
theorem special (hP : Kept e P) (hr : P r) {ch : Char} {nested : Bool}
    (hunit : Cursor.isQuantifier ch = false → r.unit = none) (h : r.special e ch nested = .ok r') :
    P r' ∧ r'.unit = none := by
  unfold Reader.special at h
  split at h
  · obtain ⟨⟨k, c⟩, hk, h⟩ := exists_ok_of_bind h
    exact hP.quantifier (hP.move c _ (hP.withUnit (.bracket hk) hr)) h
  · have hnone := hunit (by decide)
    exact ⟨hP.openGroup hnone h hr, (openGroup_unit h).trans hnone⟩
  · cases h
    exact ⟨hP.endBranch hr, hunit (by decide)⟩
  · obtain ⟨r₁, hclose, h⟩ := exists_ok_of_bind h
    have hr₁ := hP.closeGroup (hunit (by decide)) hclose hr
    split at h
    · exact hP.quantifier hr₁ h
    · rename_i hnone
      cases h
      exact ⟨hr₁, by simpa using hnone⟩
  · obtain ⟨⟨l, c⟩, hl, h⟩ := exists_ok_of_bind h
    exact hP.quantifier (hP.move c _ (hP.withUnit (.backslash hl) hr)) h
  · exact hP.quantifier (hP.withUnit (.assertion _) hr) h
  · exact hP.quantifier (hP.withUnit (.assertion _) hr) h
  · exact hP.quantifier (hP.withUnit (.any _) hr) h
  · split at h
    · exact hP.quantifier (hP.move _ _ hr) h
    · split at h <;> cases h

theorem step (hP : Kept e P) (hr : P r) (hunit : r.unit = none) (h : r.step e = .ok r') :
    P r' ∧ r'.unit = none := by
  obtain ⟨c, _, h⟩ := exists_ok_of_bind h
  dsimp only at h
  obtain ⟨c', _, h⟩ := exists_ok_of_bind h
  have hr₁ := hP.move c' false hr
  split at h
  · cases h
    exact ⟨hP.addRun _ hr₁, (addRun_unit e _ _).trans hunit⟩
  split at h
  · refine hP.special ?_ (fun hquantifier => ?_) h
    · split
      · exact hP.move _ _ (hP.addRunQuantified _ hr₁)
      · exact hP.move _ _ (hP.addRun _ hr₁)
    · rw [if_neg (by simp [hquantifier])]
      exact (addRun_unit e _ _).trans hunit
  · cases h
    exact ⟨hP.addRun _ hr₁, (addRun_unit e _ _).trans hunit⟩

/-- **What each part of a round keeps is kept to the end.** -/
theorem run (hP : Kept e P) {rounds : Nat} (hr : P r) (hunit : r.unit = none) (h : run e rounds r = .ok r') :
    P r' ∧ r'.unit = none := by
  induction rounds generalizing r with
  | zero =>
    cases h
    exact ⟨hr, hunit⟩
  | succ rounds ih =>
    rw [Reader.run] at h
    split at h
    · cases h
      exact ⟨hr, hunit⟩
    · obtain ⟨r₁, hstep, h⟩ := exists_ok_of_bind h
      obtain ⟨hr₁, hunit₁⟩ := hP.step hr hunit hstep
      exact ih hr₁ hunit₁ h

end Kept

end Reader

/-! ### Readers -/

/-- All trees that a reader holds are sound. -/
structure Reader.Holds (t : GroupTable) (r : Reader) : Prop where
  stacked : r.frame.Stacked t r.autocap r.outer
  unit : ∀ n ∈ r.unit, n.Everywhere (Node.Sound t r.autocap)
  autocap : 0 < r.autocap

namespace Reader

variable {t : GroupTable} {r r' : Reader} {e : Setting}

theorem start_holds (pattern : List Char) (o : Options) : (start pattern o).Holds t :=
  ⟨⟨Frame.opened_holds _ o, rfl⟩, nofun, Nat.one_pos⟩

theorem add_holds (hr : r.Holds t) {n : Node} (hn : n.Everywhere (Node.Sound t r.autocap)) :
    (r.add n).Holds t :=
  ⟨hr.stacked.replace (Frame.add_holds hr.stacked.holds hn) rfl, hr.unit, hr.autocap⟩

theorem dropUnit_holds (hr : r.Holds t) : { r with unit := none }.Holds t :=
  ⟨hr.stacked, nofun, hr.autocap⟩

theorem place_holds (hr : r.Holds t) : r.place.Holds t := by
  unfold place
  split
  · exact dropUnit_holds (add_holds hr (hr.unit _ ‹_›))
  · exact hr

theorem placeQuantified_holds (hr : r.Holds t) (lazy : Bool) (min max : Nat) :
    (r.placeQuantified lazy min max).Holds t := by
  unfold placeQuantified
  split
  · refine dropUnit_holds (add_holds hr ?_)
    exact (Node.sound_robust t _).quantify (hr.unit _ ‹_›) lazy min max
  · exact hr

theorem addRun_holds {e : Setting} (hr : r.Holds t) (run : List Char) : (r.addRun e run).Holds t := by
  unfold addRun
  split
  · exact hr
  · exact add_holds hr (Node.everywhere_leaf.mpr trivial)
  · exact add_holds hr (Node.everywhere_leaf.mpr trivial)

theorem withNode_holds (hr : r.Holds t) {n : Node} (hn : n.Everywhere (Node.Sound t r.autocap)) :
    { r with unit := some n }.Holds t :=
  ⟨hr.stacked, fun _ hm => Option.some.inj hm ▸ hn, hr.autocap⟩

theorem addRunQuantified_holds (hr : r.Holds t) (run : List Char) : (r.addRunQuantified e run).Holds t := by
  unfold addRunQuantified
  split
  · exact hr
  · exact withNode_holds (addRun_holds hr _) (Node.everywhere_leaf.mpr trivial)

theorem unmarked_holds (hr : r.Holds t) : r.unmarked.Holds t := by
  unfold unmarked
  split
  · have hkind : GroupKind.plain.Sound t r.autocap := trivial
    exact ⟨hr.stacked.push hkind _, hr.unit, hr.autocap⟩
  · have hle : r.autocap ≤ r.autocap + 1 := Nat.le_succ _
    have hkind : (GroupKind.capture (some r.autocap) none).Sound t (r.autocap + 1) := by
      refine ⟨fun n hn => ?_, nofun⟩
      cases hn
      exact ⟨Nat.ne_of_gt hr.autocap, .inr (Nat.lt_succ_self _)⟩
    exact ⟨(hr.stacked.mono hle).push hkind _, fun n hn => (hr.unit n hn).imp fun _ => .mono hle,
      Nat.succ_pos _⟩

theorem openGroup_holds (he : e.table.NamesNoted) (hr : r.Holds e.table)
    (h : r.openGroup e = .ok r') : r'.Holds e.table := by
  obtain ⟨_, rfl⟩ | ⟨p, hopening, ⟨_, rfl⟩ | ⟨kind, hkind, rfl⟩⟩ := openGroup_cases h
  · have := unmarked_holds hr
    exact ⟨this.stacked, this.unit, this.autocap⟩
  · exact ⟨hr.stacked, hr.unit, hr.autocap⟩
  · exact ⟨hr.stacked.push (Cursor.opening?_sound he hopening _ _ hkind) _, hr.unit, hr.autocap⟩

theorem restore_holds (hr : r.Holds t) : r.restore.Holds t := by
  unfold restore
  split
  · exact hr
  · exact ⟨hr.stacked, hr.unit, hr.autocap⟩

theorem closeGroup_holds (hr : r.Holds t) (h : r.closeGroup = .ok r') : r'.Holds t := by
  obtain ⟨f, rest, n, houter, hn, h⟩ := closeGroup_cases h
  have hstacked := hr.stacked
  rw [houter] at hstacked
  obtain ⟨hframe, hkind, hf⟩ := hstacked
  have hnode := Frame.close?_everywhere hframe hkind hn
  obtain ⟨_, rfl⟩ | ⟨_, rfl⟩ := h
  · exact restore_holds ⟨hf.replace (Frame.pushBranch_holds hf.holds hnode) rfl, hr.unit, hr.autocap⟩
  · exact restore_holds ⟨hf, fun _ hm => Option.some.inj hm ▸ hnode, hr.autocap⟩

theorem withUnit_holds (hr : r.Holds t) {l : Leaf} (hl : ∀ n, l = .ref n → n ∈ t.numbers) :
    (r.withUnit l).Holds t := by
  refine withNode_holds hr (Node.everywhere_leaf.mpr ?_)
  cases l with
  | ref n => exact hl n rfl
  | _ => trivial

theorem kept_holds (he : e.table.NamesNoted) : Kept e (Holds e.table) where
  move _ _ hr := ⟨hr.stacked, hr.unit, hr.autocap⟩
  place hr := place_holds hr
  placeQuantified lazy _ _ hr := placeQuantified_holds hr lazy _ _
  addRun run hr := addRun_holds hr run
  addRunQuantified run hr := addRunQuantified_holds hr run
  withUnit hl hr := by
    refine withUnit_holds hr fun n hn => ?_
    cases hl with
    | backslash h => exact Cursor.backslash_mem he (hn ▸ h)
    | _ => cases hn
  endBranch hr := ⟨hr.stacked.replace (Frame.endBranch_holds hr.stacked.holds _) rfl, hr.unit, hr.autocap⟩
  openGroup _ h hr := openGroup_holds he hr h
  closeGroup _ h hr := closeGroup_holds hr h

theorem finish_whole (hr : r.Holds t) {root : Node} (h : r.finish = .ok root) :
    ∃ o body, root = .wrap o (.capture (some 0) none) body ∧
      body.Everywhere (Node.Sound t r.autocap) := by
  unfold finish at h
  split at h
  · cases h
  rename_i houter
  have hstacked := hr.stacked
  rw [houter] at hstacked
  split at h
  · cases h
  cases h
  obtain ⟨body, hroot, hbody⟩ := Frame.close?_whole hstacked.1 hstacked.2 ‹_›
  exact ⟨_, body, hroot, hbody⟩

end Reader

/-! ### Whole patterns -/

/-- A pattern has the groups of the survey and the tree of the reader, which is sound. -/
theorem Pattern.read_sound {pattern : List Char} {o : Options} {culture : Culture} {p : Pattern}
    (h : Pattern.read pattern o culture = .ok p) :
    GroupTable.ofPattern pattern o = .ok p.table ∧
      ∃ r, Reader.run ⟨p.culture, p.table⟩ pattern.length (Reader.start pattern o) = .ok r ∧
        r.finish = .ok p.root ∧ r.Holds p.table := by
  obtain ⟨table, htable, h⟩ := exists_ok_of_bind h
  obtain ⟨r, hrun, h⟩ := exists_ok_of_bind h
  obtain ⟨root, hfinish, h⟩ := exists_ok_of_bind h
  cases h
  have hnoted := (GroupTable.ofPattern_noted htable).2.1
  exact ⟨htable, r, hrun, hfinish, ((Reader.kept_holds hnoted).run (Reader.start_holds pattern o) rfl hrun).1⟩

end PatternCompiler
