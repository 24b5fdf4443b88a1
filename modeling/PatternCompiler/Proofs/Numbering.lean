import PatternCompiler.Proofs.Lockstep
import PatternCompiler.Proofs.Tokens

/-! The groups of a written tree.

Before a pattern is read, the survey goes over it and numbers its groups. Over the text of
a normal tree it counts the groups of the tree, no more and no less (`counts_render`):
parentheses and brackets in the text that open nothing are escaped or written by their
number. So every group that the tree refers to is in the table of its text
(`GroupTable.ofPattern_render`). -/
namespace PatternCompiler

/-! ### Skipping a class -/

namespace Cursor

variable {c out : Cursor} {depth : Nat} {first dash : Bool} {rest : List Char}

theorem plain_digitChar {d : Nat} (h : d < 16) : Plain d.digitChar := by
  have hall : ∀ d : Fin 16, Plain (d : Nat).digitChar := by decide
  exact hall ⟨d, h⟩

theorem plain_of_mem_renderHex {n : Nat} (hn : n < 0x10000) {ch : Char} (h : ch ∈ renderHex n) :
    Plain ch := by
  simp only [renderHex, List.map_cons, List.map_nil, List.mem_cons, List.not_mem_nil, or_false] at h
  rcases h with rfl | rfl | rfl | rfl <;> exact plain_digitChar (by omega)

/-- An end of a range, wherever it stands. -/
theorem skipsTo_end {d : Char} (hc : c.rest = renderEnd d ++ rest)
    (h : SkipsTo depth false false ⟨c.pos + (renderEnd d).length, rest⟩ out) : SkipsTo depth first dash c out := by
  unfold renderEnd at hc h
  split at hc
  · rename_i hd
    rw [if_pos hd] at h
    have hdigits : Passes Plain ⟨c.pos + 1 + 1, renderHex d.toNat ++ rest⟩
        ⟨c.pos + ('\\' :: 'u' :: renderHex d.toNat).length, rest⟩ :=
      ⟨renderHex d.toNat, fun _ => plain_of_mem_renderHex hd, rfl, by simp only [List.length_cons]; omega⟩
    exact SkipsTo.escape hc (SkipsTo.passes hdigits h)
  · rename_i hd
    rw [if_neg hd] at h
    exact h.other hc (fun heq => absurd heq (ne_of_high hd (by decide)))
      ⟨ne_of_high hd (by decide), ne_of_high hd (by decide), ne_of_high hd (by decide)⟩

theorem SpelledAs.skipsTo {r : CharRange} {text : List Char} (hspelled : SpelledAs r text)
    (hc : c.rest = text ++ rest) (h : SkipsTo depth false false ⟨c.pos + text.length, rest⟩ out) :
    SkipsTo depth first dash c out := by
  cases hspelled with
  | single d => exact skipsTo_end hc h
  | pair hle =>
    rw [List.append_assoc] at hc
    refine skipsTo_end hc (.minus rfl (skipsTo_end rfl ?_))
    rw [List.length_append, List.length_cons, ← Nat.add_assoc, Nat.add_comm _ 1, ← Nat.add_assoc] at h
    exact h

section Ranges

variable {α : Type} {range : α → CharRange} {text : α → List Char} {as : List α}

/-- The ranges of a bracket, as far as they are written. -/
theorem skipsTo_ranges (has : ∀ a ∈ as, SpelledAs (range a) (text a)) (hne : as ≠ [])
    (hc : c.rest = as.flatMap text ++ rest)
    (h : SkipsTo depth false false ⟨c.pos + (as.flatMap text).length, rest⟩ out) :
    SkipsTo depth first dash c out := by
  induction as generalizing c first dash with
  | nil => exact absurd rfl hne
  | cons a as ih =>
    obtain ⟨hspelled, has⟩ := List.forall_mem_cons.mp has
    rw [List.flatMap_cons, List.append_assoc] at hc
    refine hspelled.skipsTo hc ?_
    rw [List.flatMap_cons, List.length_append, ← Nat.add_assoc] at h
    cases as with
    | nil => exact h
    | cons b as => exact ih has (List.cons_ne_nil b as) rfl h

/-- A level up to where it ends, inside any others. -/
theorem skipsTo_level (negated : Bool) (has : ∀ a ∈ as, SpelledAs (range a) (text a)) (hne : as ≠ [])
    (hc : c.rest = (if negated then ['^'] else []) ++ (as.flatMap text ++ rest)) :
    ∃ pos, ∀ out, SkipsTo depth false false ⟨pos, rest⟩ out → SkipsTo depth true false (c.skipChar '^') out := by
  obtain ⟨_, pos, hskip⟩ := skipChar_caret negated has hne hc
  rw [hskip]
  exact ⟨_, fun out => skipsTo_ranges has hne rfl⟩

end Ranges

theorem skipBracket_ranges (negated : Bool) {rs : List CharRange} (hrs : ∀ r ∈ rs, r.Proper) (hne : rs ≠ [])
    (hc : c.rest = (if negated then ['^'] else []) ++ (rs.flatMap CharRange.render ++ ']' :: rest)) :
    ∃ pos, c.skipBracket = .ok ⟨pos, rest⟩ := by
  have hspelled : ∀ r ∈ rs, SpelledAs (id r) r.render := fun r hr => spelledAs_render (hrs r hr)
  obtain ⟨pos, hskips⟩ := skipsTo_level negated hspelled hne hc
  exact ⟨pos + 1, hskips _ (skipsTo_close rfl) _ (Nat.lt_succ_self _)⟩

end Cursor

/-! ### Counting -/

/-- A place in a text under no options, at which no condition begins. -/
abbrev Scan.bare (c : Cursor) (saved : List (Bool × Bool)) (a : Nat) : Scan :=
  ⟨c, (false, false), saved, a, false⟩

namespace Survey

/-- Over this text the survey comes to number groups from `b` on instead of `a`. -/
def Counts (a b : Nat) (text : List Char) : Prop :=
  ∀ ⦃c : Cursor⦄ ⦃rest : List Char⦄, c.rest = text ++ rest → ∀ saved, ∃ pos,
    Reaches (.bare c saved a) (.bare ⟨pos, rest⟩ saved b)

variable {a b d : Nat} {text text' : List Char}

theorem Counts.append (h : Counts a b text) (h' : Counts b d text') : Counts a d (text ++ text') := by
  intro c rest hc saved
  rw [List.append_assoc] at hc
  obtain ⟨pos, hreaches⟩ := h hc saved
  obtain ⟨pos', hreaches'⟩ := h' (c := ⟨pos, _⟩) rfl saved
  exact ⟨pos', hreaches.trans hreaches'⟩

theorem counts_inert (a : Nat) (h : ∀ ch ∈ text, Inert false ch) : Counts a a text := by
  intro c rest hc saved
  exact ⟨_, reaches_passes (v := .bare c saved a) ⟨text, h, hc, rfl⟩⟩

/-- A construct that the survey only goes past. -/
theorem reaches_past {v : Scan} {ch : Char} {rest : List Char} {c : Cursor}
    (hv : v.cursor.rest = ch :: rest)
    (h : ∀ s : Survey, s.construct ch ⟨v.cursor.pos + 1, rest⟩ = .ok { s with cursor := c }) :
    Reaches v { v with cursor := c } :=
  reaches_of_construct hv fun s hs => ⟨_, h s, by rw [← hs]; rfl⟩

theorem counts_escape (a : Nat) (ch : Char) : Counts a a ['\\', ch] := by
  intro c rest hc saved
  refine ⟨c.pos + 1 + 1, reaches_past (v := .bare c saved a) hc fun s => ?_⟩
  unfold construct
  rw [if_pos rfl]
  rfl

theorem counts_bracket (a : Nat) (negated : Bool) {rs : List CharRange} (hrs : ∀ r ∈ rs, r.Proper)
    (hne : rs ≠ []) :
    Counts a a ('[' :: (if negated then ['^'] else []) ++ rs.flatMap CharRange.render ++ [']']) := by
  intro c rest hc saved
  have hrest : c.rest =
      '[' :: ((if negated then ['^'] else []) ++ (rs.flatMap CharRange.render ++ ']' :: rest)) := by
    simpa using hc
  obtain ⟨pos, hskip⟩ := Cursor.skipBracket_ranges (c := ⟨c.pos + 1, _⟩) negated hrs hne rfl
  refine ⟨pos, reaches_past (v := .bare c saved a) hrest fun s => ?_⟩
  unfold construct
  rw [if_neg (by decide), if_neg (by decide), if_pos rfl, hskip]
  rfl

/-! ### Leaves -/

theorem counts_plain (a : Nat) (h : ∀ ch ∈ text, Plain ch) : Counts a a text :=
  counts_inert a fun ch hch => inert_of_plainOrDash false (.inl (h ch hch))

theorem plain_of_mem_renderNumber {n : Nat} {ch : Char} (h : ch ∈ renderNumber n) : Plain ch :=
  plain_of_isDigit (Cursor.isDigit_of_mem_renderNumber h)

theorem plain_of_mem_renderCount {lazy : Bool} {min max : Nat} {ch : Char}
    (h : ch ∈ renderCount lazy min max) :
    Plain ch := by
  simp only [renderCount, renderMax, List.mem_append, List.mem_cons] at h
  rcases h with ((rfl | h) | rfl | h) | rfl | h
  · decide
  · exact plain_of_mem_renderNumber h
  · decide
  · split at h
    · cases h
    · exact plain_of_mem_renderNumber h
  · decide
  · split at h
    · rw [List.mem_singleton.mp h]
      decide
    · cases h

theorem counts_char (a : Nat) (ch : Char) : Counts a a (renderChar ch) := by
  unfold renderChar
  split
  · exact counts_escape a ch
  · rename_i hch
    refine counts_inert a fun d hd => ?_
    obtain rfl := List.mem_singleton.mp hd
    have hends : Cursor.endsRun false d [] = false := by
      rw [Cursor.endsRun, Bool.eq_false_iff.mpr hch]
      rfl
    exact inert_of_not_endsRun hends

theorem counts_test (a : Nat) {t : CharTest CharClass} (ht : t.Normal) : Counts a a t.render := by
  cases t with
  | one ch => exact counts_char a ch
  | notone ch =>
    have hbracket := counts_bracket a true (by simp [CharRange.Proper, CharRange.single])
      (List.cons_ne_nil (CharRange.single ch) [])
    rwa [List.flatMap_singleton] at hbracket
  | set k =>
    have hne : k.ranges.toList ≠ [] := by simpa [CharClass.isEmpty] using ht.2.1
    exact counts_bracket a false ht.1.proper hne

theorem counts_leaf (a : Nat) {l : Leaf} {groups : Nat} (hl : l.Normal groups) : Counts a a l.render := by
  cases l with
  | test t => exact counts_test a hl
  | span lazy t min max =>
    exact (counts_test a hl.1).append (counts_plain a fun _ => plain_of_mem_renderCount)
  | multi cs =>
    show Counts a a (cs.flatMap renderChar)
    clear hl
    induction cs with
    | nil => exact counts_inert a (List.forall_mem_nil _)
    | cons ch cs ih => exact (counts_char a ch).append ih
  | ref k =>
    have hname : Counts a a ('<' :: renderNumber k ++ ['>']) := counts_plain a fun ch hch => ?_
    · exact (counts_escape a 'k').append hname
    simp only [List.mem_append, List.mem_cons, List.not_mem_nil, or_false] at hch
    rcases hch with (rfl | hch) | rfl
    · decide
    · exact plain_of_mem_renderNumber hch
    · decide
  | assertion o =>
    obtain ⟨letter, hletter⟩ := Option.isSome_iff_exists.mp hl
    rw [Leaf.render, hletter]
    exact counts_escape a letter
  | nothing => exact hl.elim
  | empty => exact counts_inert a (List.forall_mem_nil _)

/-! ### Groups -/

/-- Past this mark the survey is in a group, in which it numbers groups from `b` on. -/
def Enters (a b : Nat) (mark : List Char) : Prop :=
  ∀ ⦃c : Cursor⦄ ⦃rest : List Char⦄, c.rest = '(' :: (mark ++ rest) → Cursor.Fresh rest → ∀ saved, ∃ pos,
    Reaches (.bare c saved a) (.bare ⟨pos, rest⟩ ((false, false) :: saved) b)

theorem enters_capture (a : Nat) : Enters a (a + 1) [] := by
  intro c rest hc hrest saved
  exact ⟨_, reaches_unmarked (v := .bare c saved a) hc hrest.head_ne⟩

/-- The parenthesis and the question mark, up to the mark that leads to a group or a condition. -/
theorem reaches_marked {v : Scan} {ch : Char} {rest : List Char} {condition : Bool}
    (hv : v.cursor.rest = '(' :: '?' :: ch :: rest) (hch : ch ≠ '#')
    (h : ∀ (s : Survey) (offset : Nat) (c : Cursor), c.rest = ch :: rest →
      s.marked offset c = .ok { s with cursor := c, ignoreNext := condition }) :
    Reaches v { v with
      cursor := ⟨v.cursor.pos + 1 + 1, ch :: rest⟩
      saved := v.flags :: v.saved
      ignoreNext := condition } := by
  refine reaches_of_construct hv fun s hs => ?_
  have htake : ('?' :: ch :: rest).take 2 ≠ ['?', '#'] :=
    fun heq => hch (List.cons.inj (List.cons.inj heq).2).1
  rw [construct_paren htake]
  exact ⟨_, h _ _ ⟨v.cursor.pos + 1 + 1, ch :: rest⟩ rfl, by rw [← hs]; rfl⟩

theorem enters_mark (a : Nat) {mark : Char} (hmark : mark ∈ [':', '=', '!', '>']) :
    Enters a a ['?', mark] := by
  intro c rest hc _ saved
  have hplain : Inert false mark ∧ mark ≠ '#' := by
    simp only [List.mem_cons, List.not_mem_nil, or_false] at hmark
    rcases hmark with rfl | rfl | rfl | rfl <;> exact ⟨⟨by decide, fun _ => rfl⟩, by decide⟩
  have hopen := reaches_marked (v := .bare c saved a) hc hplain.2
    fun s offset c hc => marked_mark hc hmark
  exact ⟨_, hopen.trans (reaches_inert rfl hplain.1)⟩

/-- The survey opens a group for the condition and closes it again. -/
theorem enters_condition (a k : Nat) : Enters a a ('?' :: '(' :: renderNumber k ++ [')']) := by
  intro c rest hc _ saved
  have hrest : c.rest = '(' :: '?' :: '(' :: (renderNumber k ++ ')' :: rest) := by simpa using hc
  have hhead : (renderNumber k ++ ')' :: rest).head? ≠ some '?' := by
    obtain ⟨d, ds, hds, hdigit⟩ := Cursor.renderNumber_cons k
    rw [hds]
    rintro ⟨⟩
    exact absurd hdigit (by decide)
  have hopen := reaches_marked (v := .bare c saved a) hrest (by decide)
    fun s offset c hc => marked_paren hc
  have hcondition := reaches_unmarked
    (v := ⟨⟨c.pos + 1 + 1, _⟩, (false, false), (false, false) :: saved, a, true⟩) rfl hhead
  have hdigits : Counts a a (renderNumber k) := counts_plain a fun _ => plain_of_mem_renderNumber
  obtain ⟨pos, hnumber⟩ :=
    hdigits (c := ⟨c.pos + 1 + 1 + 1, _⟩) rfl ((false, false) :: (false, false) :: saved)
  exact ⟨_, hopen.trans (hcondition.trans (hnumber.trans (reaches_close rfl)))⟩

theorem counts_group {mark : List Char} (hopen : Enters a b mark) (h : Counts b d text)
    (hfresh : ∀ rest, Cursor.Fresh rest → Cursor.Fresh (text ++ rest)) :
    Counts a d ('(' :: mark ++ text ++ [')']) := by
  intro c rest hc saved
  have hrest : c.rest = '(' :: (mark ++ (text ++ ')' :: rest)) := by simpa using hc
  obtain ⟨pos, hopened⟩ := hopen hrest (hfresh _ (Cursor.fresh_cons (by decide) (by decide))) saved
  obtain ⟨pos', hinner⟩ := h (c := ⟨pos, _⟩) rfl ((false, false) :: saved)
  exact ⟨_, hopened.trans (hinner.trans (reaches_close rfl))⟩

/-! ### Trees -/

theorem enters_wrap (a : Nat) {w : Wrap} (hw : w.Normal) :
    Enters a (a + w.number?.toList.length) w.mark := by
  cases w with
  | capture number uncapture =>
    obtain ⟨k, hk⟩ := Option.isSome_iff_exists.mp hw.1
    rw [Wrap.number?, hk]
    exact enters_capture a
  | _ => exact enters_mark a (by decide)

theorem counts_suffix (a : Nat) (w : Wrap) : Counts a a w.suffix := by
  refine counts_plain a fun ch hch => ?_
  cases w with
  | loop => exact plain_of_mem_renderCount hch
  | _ => cases hch

variable {n : Node} {ns : List Node} {groups : Nat}

theorem counts_branches (h : ∀ n ∈ ns, ∀ a, Counts a (a + n.groups.length) (n.render true)) (a : Nat) :
    Counts a (a + (ns.flatMap Node.groups).length) (Node.renderBranches ns) := by
  induction ns generalizing a with
  | nil => exact counts_plain a nofun
  | cons n ns ih =>
    have hbar : Counts a a ['|'] := counts_plain a (List.forall_mem_singleton.mpr (by decide))
    rw [List.flatMap_cons, List.length_append, ← Nat.add_assoc]
    have hlater := ih (fun m hm => h m (List.mem_cons_of_mem _ hm)) (a + n.groups.length)
    exact hbar.append ((h n List.mem_cons_self a).append hlater)

/-- Without the bar before the first branch. -/
theorem counts_tail (h : ∀ n ∈ ns, ∀ a, Counts a (a + n.groups.length) (n.render true)) (a : Nat) :
    Counts a (a + (ns.flatMap Node.groups).length) (Node.renderBranches ns).tail := by
  cases ns with
  | nil => exact counts_plain a nofun
  | cons n ns =>
    rw [List.flatMap_cons, List.length_append, ← Nat.add_assoc]
    have hlater := counts_branches (fun m hm => h m (List.mem_cons_of_mem _ hm)) (a + n.groups.length)
    exact (h n List.mem_cons_self a).append hlater

theorem counts_parts (h : ∀ n ∈ ns, ∀ a, Counts a (a + n.groups.length) (n.render true)) (a : Nat) :
    Counts a (a + (ns.flatMap Node.groups).length) (Node.renderParts ns) := by
  induction ns generalizing a with
  | nil => exact counts_plain a nofun
  | cons n ns ih =>
    rw [List.flatMap_cons, List.length_append, ← Nat.add_assoc]
    exact (h n List.mem_cons_self a).append (ih (fun m hm => h m (List.mem_cons_of_mem _ hm)) _)

/-- Over the text of a tree the survey counts its groups. -/
theorem counts_render (h : n.Everywhere (Node.NormalAt groups)) (nested : Bool) (a : Nat) :
    Counts a (a + n.groups.length) (n.render nested) := by
  induction n generalizing nested a with
  | leaf o l => exact counts_leaf a h.here.2
  | wrap o w n ih =>
    obtain ⟨⟨_, hw⟩, hn⟩ := Node.everywhere_wrap.mp h
    have hgroup := counts_group (enters_wrap a hw) (ih hn false _) fun _ => Cursor.fresh_render n false
    rw [Node.groups_wrap, List.length_append, ← Nat.add_assoc]
    exact hgroup.append (counts_suffix _ w)
  | many o kind ns ih =>
    have hns : ∀ n ∈ ns, ∀ a, Counts a (a + n.groups.length) (n.render true) :=
      fun n hn a => ih n hn ((Node.everywhere_many.mp h).2 n hn) true a
    have hbranches : ∀ rest, Cursor.Fresh rest → Cursor.Fresh ((Node.renderBranches ns).tail ++ rest) :=
      fun _ => Cursor.fresh_render (.many {} .alternate ns) false
    rw [Node.groups_many]
    cases kind with
    | alternate =>
      cases nested with
      | true => exact counts_group (enters_mark a (by decide)) (counts_tail hns a) hbranches
      | false => exact counts_tail hns a
    | testref k => exact counts_group (enters_condition a k) (counts_tail hns a) hbranches
    | _ => exact counts_parts hns a

/-- The survey goes over the text of a tree to its end. -/
theorem run_render (h : n.Everywhere (Node.NormalAt groups)) :
    ∃ s, run (n.render false).length (start (n.render false) {}) = .ok s ∧
      s.autocap = 1 + n.groups.length := by
  obtain ⟨pos, hreaches⟩ := counts_render h false 1 (c := ⟨0, n.render false⟩) (List.append_nil _).symm []
  obtain ⟨s, hgoes, hs⟩ := hreaches (start (n.render false) {}) rfl
  rw [scan, Scan.mk.injEq] at hs
  obtain ⟨rounds, hrun⟩ := hgoes.run_eq (Nat.le_refl _)
  refine ⟨s, hrun.trans ?_, hs.2.2.2.1⟩
  cases rounds with
  | zero => rfl
  | succ rounds => rw [run, hs.1]

end Survey

/-- **The table of a tree's text**: every group of the tree is in it. -/
theorem GroupTable.ofPattern_render {n : Node} {bound : Nat} (h : n.Everywhere (Node.NormalAt bound)) :
    ∃ table, GroupTable.ofPattern (n.render false) {} = .ok table ∧
      ∀ k, k ≤ n.groups.length → table.contains k = true := by
  obtain ⟨s, hs, hautocap⟩ := Survey.run_render h
  have htable : GroupTable.ofPattern (n.render false) {} = .ok (s.table.assignNames s.autocap) := by
    rw [GroupTable.ofPattern, hs]
    rfl
  obtain ⟨_, _, s', hs', hbelow⟩ := GroupTable.ofPattern_noted htable
  obtain rfl : s' = s := Except.ok.inj (hs'.symm.trans hs)
  exact ⟨_, htable, fun k hk => GroupTable.contains_iff.mpr (hbelow k (by omega))⟩

end PatternCompiler
