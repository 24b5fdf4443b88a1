import PatternCompiler.Proofs.Outline
import PatternCompiler.Proofs.Lockstep
import PatternCompiler.Proofs.Progress

/-! The reader takes tokens.

`Reader.Fits` says that a reader has read what an outline has taken. Every round leads the reader
between two tokens again, where it fits an outline from which the rest of the tokens give the same
tree (`Reader.step_leads`), whether or not there are blanks between them. So the reader gives the
tree that the tokens give (`Reader.run_answers`). -/
namespace PatternCompiler

/-! ### Readers and outlines -/

/-- The open group is as in the outline; it is no conditional. -/
structure Frame.Fits (o : Options) (f : Frame) (l : Level) : Prop where
  kind : f.kind = l.kind
  simple : f.limit? = none
  options : f.options = o
  seqOptions : f.seqOptions = o
  branches : f.branches.toList = l.branches
  parts : Node.mergeLiterals (Node.partsOf false f.parts.toList) = l.parts

namespace Frame

variable {o : Options} {f : Frame} {l : Level}

theorem opened_fits {kind : GroupKind} (h : (opened kind o).limit? = none) : (opened kind o).Fits o { kind := kind } :=
  ⟨rfl, h, rfl, rfl, rfl, rfl⟩

theorem Fits.add (h : f.Fits o l) (n : Node) : (f.add n).Fits o (l.add n) := by
  refine { h with parts := ?_ }
  rw [Frame.add, Level.add, Array.toList_push, Node.partsOf_eq_flatMap, List.flatMap_append,
    Node.mergeLiterals_append, ← Node.partsOf_eq_flatMap, h.parts]
  simp

theorem Fits.endBranch (ho : o.rightToLeft = false) (h : f.Fits o l) : (f.endBranch o).Fits o (l.endBranch o) := by
  refine { h with seqOptions := rfl, branches := ?_, parts := rfl }
  rw [Frame.endBranch, Array.toList_push, h.branches]
  simp only [sequence, h.seqOptions, ho, Node.reduce, Bool.false_eq_true, if_false, h.parts]
  rfl

theorem Fits.node (h : f.Fits o l) : f.node = l.node o := by
  simp only [Level.node, Frame.node, h.kind, h.options, h.branches]

theorem Fits.close? (ho : o.rightToLeft = false) (h : f.Fits o l) :
    f.close? o = some ((l.endBranch o).node o) := by
  have hend := h.endBranch ho
  simp only [Frame.close?, hend.simple, hend.node]

theorem Fits.awaitsCondition (h : f.Fits o l) : f.awaitsCondition = false := by
  have hsimple := h.simple
  unfold limit? at hsimple
  unfold Frame.awaitsCondition
  cases hkind : f.kind with
  | testgroup =>
    rw [hkind] at hsimple
    cases hsimple
  | _ => rfl

end Frame

/-- What was read last, as what a quantifier may follow. -/
def Pending.ofUnit : Option Node → Pending
  | Option.none => none
  | some n => part n

/-- The reader has read what the outline has taken. -/
structure Reader.Fits (o : Options) (r : Reader) (s : Outline) : Prop where
  options : r.options = o
  ignoreNext : r.ignoreNext = false
  autocap : r.autocap = s.next
  frame : r.frame.Fits o s.level
  outer : List.Forall₂ (Frame.Fits o) r.outer s.outer
  saved : r.saved = List.replicate s.outer.length o
  pending : s.pending = .ofUnit r.unit

namespace Reader

variable {o : Options} {r : Reader} {s : Outline}

theorem start_fits (pattern : List Char) (o : Options) : (start pattern o).Fits o .start where
  options := rfl
  ignoreNext := rfl
  autocap := rfl
  frame := Frame.opened_fits rfl
  outer := .nil
  saved := rfl
  pending := rfl

theorem Fits.move (h : r.Fits o s) (c : Cursor) : { r with cursor := c }.Fits o s := { h with }

theorem Fits.after (h : r.Fits o s) (quantifier : Bool) : { r with afterQuantifier := quantifier }.Fits o s := { h with }

theorem Fits.flush_eq (h : r.Fits o s) (hunit : r.unit = none) : s.flush = s :=
  Outline.flush_of_none (by rw [h.pending, hunit]; rfl)

theorem Fits.unit (h : r.Fits o s) {n : Node} (hs : s.pending = .part n) : r.unit = some n := by
  have hpending := hs.symm.trans h.pending
  cases hunit : r.unit with
  | none =>
    rw [hunit] at hpending
    cases hpending
  | some m =>
    rw [hunit] at hpending
    cases hpending
    rfl

theorem Fits.withUnit (h : r.Fits o s) (l : Leaf) :
    (r.withUnit l).Fits o { s with pending := .part (.leaf o l) } := by
  refine { h with pending := ?_ }
  rw [Reader.withUnit, leaf, h.options]
  rfl

theorem Fits.place (h : r.Fits o s) : r.place.Fits o s.flush := by
  have hpending := h.pending
  cases hunit : r.unit with
  | none =>
    rw [hunit] at hpending
    rw [Reader.place, hunit, Outline.flush_of_none hpending]
    exact h
  | some n =>
    rw [hunit] at hpending
    rw [Reader.place, hunit, Outline.flush, hpending]
    exact { h with frame := h.frame.add n, pending := rfl }

theorem Fits.placeQuantified (h : r.Fits o s) {n : Node} (hunit : r.unit = some n) (lazy : Bool) (min max : Nat) :
    (r.placeQuantified lazy min max).Fits o
      { s with level := s.level.add (n.quantify lazy min max), pending := .none } := by
  rw [Reader.placeQuantified, hunit]
  exact { h with frame := h.frame.add _, pending := rfl }

/-! ### Literal characters -/

theorem map_lower (e : Setting) (hr : r.options.ignoreCase = false) (cs : List Char) : cs.map (r.lower e) = cs := by
  have hid : r.lower e = id := by
    funext c
    simp [lower, hr]
  rw [hid, List.map_id]

theorem Fits.addRun (ho : o.rightToLeft = false ∧ o.ignoreCase = false) (h : r.Fits o s) (e : Setting)
    (cs : List Char) : (r.addRun e cs).Fits o { s with level := s.level.addAll o cs } := by
  unfold Reader.addRun
  rw [map_lower e (h.options ▸ ho.2)]
  rcases cs with _ | ⟨c, _ | ⟨d, cs⟩⟩
  · exact h
  · have hleaf : r.leaf (.test (.one c)) = .single o c := by rw [leaf, h.options]; rfl
    show (r.add (r.leaf (.test (.one c)))).Fits o _
    rw [hleaf]
    exact { h with frame := h.frame.add _ }
  · have hleaf : r.leaf (.multi (c :: d :: cs)) = .leaf o (.multi (c :: d :: cs)) := by rw [leaf, h.options]
    show (r.add (r.leaf (.multi (c :: d :: cs)))).Fits o _
    rw [hleaf, Level.addAll_multi ho.1]
    exact { h with frame := h.frame.add _ }

theorem Fits.addRunQuantified (ho : o.rightToLeft = false ∧ o.ignoreCase = false) (h : r.Fits o s) (e : Setting)
    (cs : List Char) (c : Char) : (r.addRunQuantified e (cs ++ [c])).Fits o
      { s with level := s.level.addAll o cs, pending := .part (.single o c) } := by
  have hleaf : r.leaf (.test (.one (r.lower e c))) = .single o c := by
    rw [leaf, lower, h.options, ho.2]
    rfl
  unfold Reader.addRunQuantified
  rw [List.getLast?_concat, List.dropLast_concat]
  exact { h.addRun ho e cs with pending := congrArg Pending.part hleaf.symm }

/-! ### Quantifiers -/

/-- The reader has read what the outline has taken, and the tokens are ahead, with what is before and between
them. -/
structure Awaits (spaces : Bool) (r : Reader) (s : Outline) (g : List Filler) (ts : List (Token × List Filler)) :
    Prop where
  fits : r.Fits (.spaced spaces) s
  rest : r.cursor.rest = gap spaces g ++ spread spaces ts
  chain : (ts.map Prod.fst).IsChain Token.MayFollow

/-- The reader fails where there is no tree, or comes to a place between two tokens from where the rest of the tokens
give the tree. -/
inductive Leads (spaces : Bool) (known : Nat → Bool) : Except Problem Reader → Option Node → Prop where
  | error (p : Problem) : Leads spaces known (.error p) none
  | ok {r : Reader} {s : Outline} {g : List Filler} {ts : List (Token × List Filler)} (h : r.Awaits spaces s g ts)
    (hunit : r.unit = none) : Leads spaces known (.ok r) (s.read (.spaced spaces) known (ts.map Prod.fst))

variable {spaces : Bool} {known : Nat → Bool} {g : List Filler} {ts : List (Token × List Filler)}

theorem Leads.bind {α β : Type} {R : α → β → Prop} {x : Except Problem α} {y : Option β}
    {f : α → Except Problem Reader} {k : β → Option Node} (h : Answers R x y)
    (hnext : ∀ a b, R a b → Leads spaces known (f a) (k b)) : Leads spaces known (x >>= f) (y >>= k) := by
  cases h with
  | error p => exact .error p
  | ok h => exact hnext _ _ h

/-- The mark of a lazy quantifier. -/
theorem skipChar_mark (hts : (ts.map Prod.fst).IsChain Token.MayFollow) (pos : Nat) :
    (∃ t g' ts' pos', ts = (t, g') :: ts' ∧ t.isMark = true ∧ (spread spaces ts).head? = some '?' ∧
        Cursor.skipChar ⟨pos, spread spaces ts⟩ '?' = ⟨pos', gap spaces g' ++ spread spaces ts'⟩) ∨
      (∀ t ∈ (ts.map Prod.fst).head?, t.isMark = false) ∧ (spread spaces ts).head? ≠ some '?' ∧
        Cursor.skipChar ⟨pos, spread spaces ts⟩ '?' = ⟨pos, spread spaces ts⟩ := by
  cases ts with
  | nil => exact .inr ⟨by simp, by simp [spread], rfl⟩
  | cons tg ts =>
    obtain ⟨t, g⟩ := tg
    obtain ⟨cs, htext⟩ := t.exists_text
    have hspread : spread spaces ((t, g) :: ts) = t.first :: (cs ++ (gap spaces g ++ spread spaces ts)) := by
      rw [spread_cons, htext, List.cons_append]
    rw [hspread, Cursor.skipChar]
    by_cases hmark : t.isMark = true
    · cases t with
      | mark =>
        cases htext
        exact .inl ⟨_, g, ts, pos + 1, rfl, rfl, rfl, rfl⟩
      | _ => cases hmark
    · have hfirst : t.first ≠ '?' := fun heq => hmark (Token.isMark_of_first heq)
      exact .inr ⟨by simpa using hmark, by simpa using hfirst, if_neg hfirst⟩

/-- **A quantifier is read as it is taken, with its suffix.** -/
theorem quantifier_leads (h : r.Awaits spaces s g ts) {n : Node} (hunit : r.unit = some n) :
    Leads spaces known r.quantifier (s.read (.spaced spaces) known (ts.map Prod.fst)) := by
  obtain ⟨pos, hblanks⟩ := Cursor.skipBlanks_spread h.chain h.rest
  have hpending : s.pending = .part n := by rw [h.fits.pending, hunit]; rfl
  unfold quantifier
  rw [h.fits.options, hblanks]
  show Leads spaces known (if Cursor.startsQuantifier (spread spaces ts) then _ else _) _
  -- Without a quantifier the part is complete.
  have hplace (hnone : ∀ t ∈ (ts.map Prod.fst).head?, t.isQuantifier = false) :
      Leads spaces known (.ok { r.place with cursor := ⟨pos, spread spaces ts⟩, afterQuantifier := false })
        (s.read (.spaced spaces) known (ts.map Prod.fst)) := by
    rw [← Outline.read_flush hnone]
    exact .ok ⟨(h.fits.place.move _).after false, (gap_nil spaces _).symm, h.chain⟩ (place_unit r)
  cases ts with
  | nil => exact hplace (by simp)
  | cons tg ts =>
    obtain ⟨t, g'⟩ := tg
    have hspread := spread_cons spaces t g' ts
    cases ht : t.isQuantifier with
    | false =>
      rw [hspread, t.startsQuantifier_text, ht, if_neg Bool.false_ne_true, ← hspread]
      exact hplace (by simpa using ht)
    | true =>
      have hchain : (ts.map Prod.fst).IsChain Token.MayFollow := h.chain.tail
      have htake : s.read (.spaced spaces) known (t :: ts.map Prod.fst) = t.bounds? >>= fun b =>
          if b.2 < b.1 then none
          else { s with pending := .counted n b.1 b.2 }.read (.spaced spaces) known (ts.map Prod.fst) := by
        simp only [Outline.read, Outline.take?, ht, if_true, Outline.quantify?, hpending, bind_assoc]
        refine bind_congr fun b => ?_
        split <;> rfl
      rw [hspread, t.startsQuantifier_text, ht, if_pos rfl, List.map_cons, htake]
      apply Leads.bind (Cursor.bounds?_token ht rfl)
      rintro _ ⟨min, max⟩ ⟨pos₁, rfl⟩
      have hskip : ∃ pos₂, Cursor.skipBlanks ⟨pos₁, gap spaces g' ++ spread spaces ts⟩ (.spaced spaces) =
          .ok ⟨pos₂, spread spaces ts⟩ := Cursor.skipBlanks_spread hchain rfl
      obtain ⟨pos₂, hskip⟩ := hskip
      dsimp only
      rw [hskip]
      by_cases hlt : max < min
      · rw [if_pos hlt]
        simp only [bind, Except.bind, if_pos hlt]
        exact .error _
      rw [if_neg hlt]
      simp only [bind, Except.bind, if_neg hlt]
      rcases skipChar_mark hchain pos₂ with ⟨u, g₂, ts₂, pos₃, rfl, hu, hhead, hmark⟩ | ⟨hnone, hhead, hmark⟩
      · have hread : { s with pending := .counted n min max }.read (.spaced spaces) known (((u, g₂) :: ts₂).map Prod.fst) =
            { s with level := s.level.add (n.quantify true min max), pending := .none }.read (.spaced spaces) known
              (ts₂.map Prod.fst) := by
          simp [Outline.read, Outline.take?, Token.isQuantifier_of_isMark hu, Outline.quantify?, hu]
        rw [hhead, hmark, hread]
        exact .ok ⟨((h.fits.placeQuantified hunit true min max).move _).after true, rfl, hchain.tail⟩
          (placeQuantified_unit r true min max)
      · have hread : (Outline.flush { s with pending := .counted n min max }).read (.spaced spaces) known
            (ts.map Prod.fst) = _ := Outline.read_flush_counted rfl hnone
        rw [beq_false_of_ne hhead, hmark, ← hread]
        exact .ok ⟨((h.fits.placeQuantified hunit false min max).move _).after true, (gap_nil spaces _).symm, hchain⟩
          (placeQuantified_unit r false min max)

/-! ### Tokens -/

variable {e : Setting} {t : Token} {cs : List Char}

theorem Awaits.withUnit (h : r.Fits (.spaced spaces) s) (hchain : (ts.map Prod.fst).IsChain Token.MayFollow) (l : Leaf)
    (pos : Nat) : { r.withUnit l with cursor := ⟨pos, gap spaces g ++ spread spaces ts⟩ }.Awaits spaces
      { s with pending := .part (.leaf (.spaced spaces) l) } g ts :=
  ⟨(h.withUnit l).move _, rfl, hchain⟩

theorem special_leaf (h : r.Fits (.spaced spaces) s) (hunit : r.unit = none) (ht : t.isLeaf = true)
    (hplain : t.isPlain = false) (htext : t.text = t.first :: cs)
    (hrest : r.cursor.rest = cs ++ (gap spaces g ++ spread spaces ts))
    (hchain : (ts.map Prod.fst).IsChain Token.MayFollow) (nested : Bool) :
    Leads spaces e.table.contains (r.special e t.first nested)
      (s.read (.spaced spaces) e.table.contains (t :: ts.map Prod.fst)) := by
  have hflush := h.flush_eq hunit
  rw [Outline.read_leaf s ht, hflush]
  have hescape (hfirst : t.first = '\\') : Leads spaces e.table.contains (r.special e t.first nested)
      (t.leaf? e.table.contains >>= fun l =>
        { s with pending := .part (.leaf (.spaced spaces) l) }.read (.spaced spaces) e.table.contains
          (ts.map Prod.fst)) := by
    rw [hfirst] at htext ⊢
    unfold special
    rw [h.options]
    apply Leads.bind (Cursor.backslash_token htext hrest)
    rintro _ l ⟨pos, rfl⟩
    exact quantifier_leads (.withUnit h hchain l pos) rfl
  cases t with
  | literal c => exact hescape (by simp_all [Token.first, Token.isPlain])
  | assertion | reference => exact hescape rfl
  | bracket negated first members =>
    cases htext
    have hmembers : r.cursor.rest = (if negated then ['^'] else []) ++
        ((first :: members).flatMap ClassMember.text ++ ']' :: (gap spaces g ++ spread spaces ts)) := by
      simpa using hrest
    unfold special Token.leaf?
    rw [h.options, bind_assoc]
    apply Leads.bind (Cursor.bracket_token rfl negated first members hmembers)
    rintro _ ranges ⟨pos, rfl⟩
    exact quantifier_leads (.withUnit h hchain _ pos) rfl
  | _ => cases ht

theorem openGroup_leads (h : r.Fits (.spaced spaces) s) (hunit : r.unit = none) (o : Opener)
    (hrest : r.cursor.rest = o.mark ++ (gap spaces g ++ spread spaces ts))
    (hchain : (Token.opener o :: ts.map Prod.fst).IsChain Token.MayFollow) :
    Leads spaces known (r.openGroup e) (s.read (.spaced spaces) known (.opener o :: ts.map Prod.fst)) := by
  have hflush := h.flush_eq hunit
  have hread : s.read (.spaced spaces) known (.opener o :: ts.map Prod.fst) =
      { s with level := { kind := o.kind s.next }, outer := s.level :: s.outer, next := s.next + o.count }.read
        (.spaced spaces) known (ts.map Prod.fst) := by
    simp [Outline.read, Outline.take?, Token.isQuantifier, hflush, Outline.extend?]
  obtain ⟨c, options, saved, autocap, ignoreNext, frame, outer, unit, afterQuantifier⟩ := r
  obtain rfl : options = .spaced spaces := h.options
  obtain rfl : ignoreNext = false := h.ignoreNext
  obtain rfl : autocap = s.next := h.autocap
  have hopened (c : Cursor) (hc : c.rest = gap spaces g ++ spread spaces ts) (next : Nat) (kind : GroupKind)
      (hkind : (Frame.opened kind (.spaced spaces)).limit? = none) :
      Awaits spaces ⟨c, .spaced spaces, .spaced spaces :: saved, next, false, .opened kind (.spaced spaces),
        frame :: outer, unit, afterQuantifier⟩
        { s with level := { kind := kind }, outer := s.level :: s.outer, next := next } g ts :=
    { fits := { h with
        autocap := rfl
        frame := Frame.opened_fits hkind
        outer := .cons h.frame h.outer
        saved := congrArg (Options.spaced spaces :: ·) h.saved }
      rest := hc
      chain := hchain.tail }
  rw [hread]
  unfold openGroup
  cases o with
  | capture =>
    have hhead : c.rest.head? ≠ some '?' := by
      rw [hrest]
      exact Cursor.head_ne_mark g hchain
    rw [Cursor.opening?_unmarked e.table _ hhead]
    exact .ok (hopened c hrest (s.next + 1) (.capture (some s.next) none) rfl) hunit
  | _ =>
    obtain ⟨pos, rest⟩ := c
    cases hrest
    exact .ok (hopened ⟨pos + 2, _⟩ rfl s.next _ rfl) hunit

theorem closeGroup_leads (h : r.Fits (.spaced spaces) s) (hunit : r.unit = none)
    (hrest : r.cursor.rest = gap spaces g ++ spread spaces ts)
    (hchain : (ts.map Prod.fst).IsChain Token.MayFollow) (nested : Bool) :
    Leads spaces known (r.special e ')' nested) (s.read (.spaced spaces) known (.close :: ts.map Prod.fst)) := by
  have hflush := h.flush_eq hunit
  have houter := h.outer
  have hsaved := h.saved
  simp only [Outline.read, Outline.take?, Token.isQuantifier, Bool.false_eq_true, if_false, hflush, Outline.extend?]
  show Leads spaces known (r.closeGroup >>= fun r => if r.unit.isSome then r.quantifier else .ok r) _
  unfold closeGroup
  cases hr : r.outer with
  | nil =>
    rw [hr, List.forall₂_nil_left_iff] at houter
    rw [houter]
    exact .error _
  | cons f outer =>
    rw [hr] at houter
    obtain ⟨l, levels, hf, hlevels, hs⟩ := List.forall₂_cons_left_iff.mp houter
    rw [hs, List.length_cons, List.replicate_succ] at hsaved
    rw [hs, h.options]
    simp only [h.frame.close? rfl, hf.awaitsCondition, restore, hsaved]
    refine quantifier_leads (g := g) ⟨?_, hrest, hchain⟩ rfl
    exact { h with options := rfl, frame := hf, outer := hlevels, saved := rfl, pending := rfl }

theorem special_leads (h : r.Fits (.spaced spaces) s) (hunit : r.unit = none) (ht : t.isQuantifier = false)
    (hplain : t.isPlain = false) (htext : t.text = t.first :: cs)
    (hrest : r.cursor.rest = cs ++ (gap spaces g ++ spread spaces ts))
    (hchain : (t :: ts.map Prod.fst).IsChain Token.MayFollow) (nested : Bool) :
    Leads spaces e.table.contains (r.special e t.first nested)
      (s.read (.spaced spaces) e.table.contains (t :: ts.map Prod.fst)) := by
  cases hleaf : t.isLeaf with
  | true => exact special_leaf h hunit hleaf hplain htext hrest hchain.tail nested
  | false =>
    cases t with
    | opener o =>
      cases htext
      exact openGroup_leads h hunit o hrest hchain
    | bar =>
      cases htext
      have hflush := h.flush_eq hunit
      simp only [Outline.read, Outline.take?, Token.isQuantifier, Bool.false_eq_true, if_false, hflush,
        Outline.extend?]
      have hbranch : { r with frame := r.frame.endBranch r.options }.Fits (.spaced spaces)
          { s with level := s.level.endBranch (.spaced spaces) } := by
        refine { h with frame := ?_ }
        rw [h.options]
        exact h.frame.endBranch rfl
      exact .ok ⟨hbranch, hrest, hchain.tail⟩ hunit
    | close =>
      cases htext
      exact closeGroup_leads h hunit hrest hchain.tail nested
    | literal | bracket | assertion | reference => cases hleaf
    | _ => cases ht

theorem special_quantifier (h : r.Fits (.spaced spaces) s) {n : Node} (hunit : r.unit = some n)
    (ht : t.isQuantifier = true) (htext : t.text = t.first :: cs)
    (hrest : r.cursor.rest = cs ++ (gap spaces g ++ spread spaces ts))
    (hchain : (t :: ts.map Prod.fst).IsChain Token.MayFollow) (nested : Bool) :
    Leads spaces known (r.special e t.first nested) (s.read (.spaced spaces) known (t :: ts.map Prod.fst)) := by
  have hback : r.special e t.first nested =
      { r with cursor := ⟨r.cursor.pos - 1, t.first :: r.cursor.rest⟩ }.quantifier := by
    have hsome : r.unit.isSome = true := by rw [hunit]; rfl
    cases t with
    | count | star | plus | mark => exact if_pos hsome
    | _ => cases ht
  have hawaits : Awaits spaces { r with cursor := ⟨r.cursor.pos - 1, t.first :: r.cursor.rest⟩ } s []
      ((t, g) :: ts) := by
    refine ⟨h.move _, ?_, hchain⟩
    rw [hrest, gap_nil, spread_cons, htext]
    rfl
  rw [hback]
  exact quantifier_leads hawaits hunit

theorem special_nothing (hunit : r.unit = none) (ht : t.isQuantifier = true) (nested : Bool) :
    Leads spaces known (r.special e t.first nested) none := by
  have hnone : ¬ r.unit.isSome = true := by simp [hunit]
  have herror : r.special e t.first nested = if nested then r.cursor.fail (.nestedQuantifier t.first)
      else r.cursor.fail .quantifierAfterNothing := by
    cases t with
    | count | star | plus | mark => exact if_neg hnone
    | _ => cases ht
  rw [herror]
  cases nested <;> exact .error _

/-! ### Rounds -/

/-- What a round takes before the construct that ends it: blanks, a run of literal characters, and blanks again. -/
def Gathers (r : Reader) (run : List Char) (c : Cursor) : Prop :=
  ∃ c₁ c₂, r.cursor.skipBlanks r.options = .ok c₁ ∧ c₁.literalRun r.options = (run, c₂) ∧
    c₂.skipBlanks r.options = .ok c

section

variable {run rest : List Char} {c : Cursor} {ch : Char}

/-- A round that ends with the run. -/
theorem Gathers.step_run (h : r.Gathers run c) (hrest : ∀ ch ∈ c.rest.head?, Cursor.isSpecial ch = false) :
    r.step e = .ok (addRun e { r with cursor := c, afterQuantifier := false } run) := by
  obtain ⟨c₁, c₂, h₁, h₂, h₃⟩ := h
  simp only [step, h₁, h₂, h₃, bind, Except.bind]
  cases hc : c.rest with
  | nil => rfl
  | cons ch rest =>
    have hch : Cursor.isSpecial ch = false := hrest ch (by rw [hc]; rfl)
    simp only [hch]
    rfl

/-- A round that takes a construct after the run. -/
theorem Gathers.step_special (h : r.Gathers run c) (hrest : c.rest = ch :: rest) (hch : Cursor.isSpecial ch = true)
    (hquantifier : Cursor.isQuantifier ch = false) :
    r.step e = special e { addRun e { r with cursor := c, afterQuantifier := false } run with
      cursor := ⟨c.pos + 1, rest⟩ } ch (r.afterQuantifier && run.isEmpty) := by
  obtain ⟨c₁, c₂, h₁, h₂, h₃⟩ := h
  simp only [step, h₁, h₂, h₃, bind, Except.bind, hrest, hch, hquantifier]
  rfl

/-- A round that takes a quantifier after the run. -/
theorem Gathers.step_quantifier (h : r.Gathers run c) (hrest : c.rest = ch :: rest)
    (hch : Cursor.isSpecial ch = true) (hquantifier : Cursor.isQuantifier ch = true) :
    r.step e = special e { addRunQuantified e { r with cursor := c, afterQuantifier := false } run with
      cursor := ⟨c.pos + 1, rest⟩ } ch (r.afterQuantifier && run.isEmpty) := by
  obtain ⟨c₁, c₂, h₁, h₂, h₃⟩ := h
  simp only [step, h₁, h₂, h₃, bind, Except.bind, hrest, hch, hquantifier]
  rfl

end

/-- The literal characters of a round are tokens, and other tokens are after them. -/
theorem Awaits.gathers (h : r.Awaits spaces s g ts) :
    ∃ run pos ts', r.Gathers run ⟨pos, spread spaces ts'⟩ ∧
      ts.map Prod.fst = run.map Token.literal ++ ts'.map Prod.fst := by
  obtain ⟨pos₁, h₁⟩ := Cursor.skipBlanks_spread h.chain h.rest
  have h₂ : ∃ run g' ts', Cursor.literalRun ⟨pos₁, spread spaces ts⟩ (.spaced spaces) =
        (run, ⟨pos₁ + run.length, gap spaces g' ++ spread spaces ts'⟩) ∧
      ts.map Prod.fst = run.map Token.literal ++ ts'.map Prod.fst := Cursor.literalRun_spread rfl
  obtain ⟨run, g', ts', h₂, htokens⟩ := h₂
  have hchain := h.chain
  rw [htokens] at hchain
  have h₃ : ∃ pos, Cursor.skipBlanks ⟨pos₁ + run.length, gap spaces g' ++ spread spaces ts'⟩ (.spaced spaces) =
      .ok ⟨pos, spread spaces ts'⟩ := Cursor.skipBlanks_spread hchain.right_of_append rfl
  obtain ⟨pos, h₃⟩ := h₃
  rw [← h.fits.options] at h₁ h₂ h₃
  exact ⟨run, pos, ts', ⟨_, _, h₁, h₂, h₃⟩, htokens⟩

/-- **A round of the reader takes tokens as their outline does.** -/
theorem step_leads (h : r.Awaits spaces s g ts) (hunit : r.unit = none) :
    Leads spaces e.table.contains (r.step e) (s.read (.spaced spaces) e.table.contains (ts.map Prod.fst)) := by
  obtain ⟨run, pos, ts', hround, htokens⟩ := h.gathers
  have hchain := h.chain
  rw [htokens] at hchain ⊢
  replace hchain := hchain.right_of_append
  have hpending : s.pending = .none := by rw [h.fits.pending, hunit]; rfl
  have hbefore := (h.fits.move ⟨pos, spread spaces ts'⟩).after false
  have hrun := hbefore.addRun ⟨rfl, rfl⟩ e run
  have hrununit : (addRun e { r with cursor := ⟨pos, spread spaces ts'⟩, afterQuantifier := false } run).unit = none :=
    (addRun_unit e _ run).trans hunit
  -- Without a construct after it, the run is all that is taken.
  have hdone (hnone : ∀ t ∈ (ts'.map Prod.fst).head?, t.isQuantifier = false)
      (hplain : ∀ ch ∈ (spread spaces ts').head?, Cursor.isSpecial ch = false) :
      Leads spaces e.table.contains (r.step e)
        (s.read (.spaced spaces) e.table.contains (run.map Token.literal ++ ts'.map Prod.fst)) := by
    rw [hround.step_run hplain, Outline.read_run hpending run hnone]
    refine .ok (g := []) ⟨hrun, ?_, hchain⟩ hrununit
    rw [addRun_cursor, gap_nil]
  cases ts' with
  | nil => exact hdone (by simp) (by simp [spread])
  | cons tg ts' =>
    obtain ⟨t, g'⟩ := tg
    obtain ⟨cs, htext⟩ := t.exists_text
    have hspread : spread spaces ((t, g') :: ts') = t.first :: (cs ++ (gap spaces g' ++ spread spaces ts')) := by
      rw [spread_cons, htext, List.cons_append]
    obtain ⟨hspecial, _⟩ := t.first_cases
    have hquantifier := t.isQuantifier_first
    cases hplain : t.isPlain with
    | true =>
      rw [hplain] at hspecial
      exact hdone (by simpa using t.isQuantifier_of_isPlain hplain) (by simpa [hspread] using hspecial)
    | false =>
      rw [hplain] at hspecial
      cases ht : t.isQuantifier with
      | false =>
        rw [ht] at hquantifier
        rw [hround.step_special hspread hspecial hquantifier, Outline.read_run hpending run (by simpa using ht)]
        exact special_leads (hrun.move ⟨pos + 1, cs ++ (gap spaces g' ++ spread spaces ts')⟩) hrununit ht hplain
          htext rfl hchain _
      | true =>
        rw [ht] at hquantifier
        rw [hround.step_quantifier hspread hspecial hquantifier]
        rcases List.eq_nil_or_concat run with rfl | ⟨run, c, rfl⟩
        · have hnone : s.read (.spaced spaces) e.table.contains (t :: ts'.map Prod.fst) = none := by
            simp [Outline.read, Outline.take?, ht, Outline.quantify?_none hpending]
          rw [List.map_nil, List.nil_append, List.map_cons, hnone]
          refine special_nothing ?_ ht _
          exact hunit
        · rw [List.concat_eq_append, Outline.read_literals, Outline.flush_of_none hpending]
          have hlast := (hbefore.addRunQuantified ⟨rfl, rfl⟩ e run c).move
            ⟨pos + 1, cs ++ (gap spaces g' ++ spread spaces ts')⟩
          exact special_quantifier hlast (hlast.unit rfl) ht htext rfl hchain _

theorem Awaits.tokens_nil (h : r.Awaits spaces s g ts) (hrest : r.cursor.rest = []) : ts = [] := by
  have hspread := (List.append_eq_nil_iff.mp (h.rest.symm.trans hrest)).2
  cases ts with
  | nil => rfl
  | cons tg ts =>
    obtain ⟨cs, htext⟩ := tg.1.exists_text
    rw [spread, List.flatMap_cons, htext] at hspread
    cases hspread

/-- Once nothing is ahead, the tree is the one that the outline gives. -/
theorem finish_answers (h : r.Awaits spaces s g ts) (hunit : r.unit = none) (hrest : r.cursor.rest = []) :
    Answers Eq r.finish (s.read (.spaced spaces) known (ts.map Prod.fst)) := by
  have houter := h.fits.outer
  rw [h.tokens_nil hrest, List.map_nil, Outline.read, finish, Outline.finish?, h.fits.flush_eq hunit]
  cases hr : r.outer with
  | nil =>
    rw [hr, List.forall₂_nil_left_iff] at houter
    rw [houter, h.fits.options]
    simp only [h.fits.frame.close? rfl]
    exact .ok rfl
  | cons f outer =>
    rw [hr] at houter
    obtain ⟨l, levels, _, _, hs⟩ := List.forall₂_cons_left_iff.mp houter
    rw [hs]
    exact .fail _ _

/-- **The reader gives the tree that the tokens give, with or without blanks between them.** -/
theorem run_answers {rounds : Nat} (h : r.Awaits spaces s g ts) (hunit : r.unit = none)
    (hrounds : r.cursor.rest.length ≤ rounds) :
    Answers Eq (run e rounds r >>= finish) (s.read (.spaced spaces) e.table.contains (ts.map Prod.fst)) := by
  induction rounds generalizing r s g ts with
  | zero => exact finish_answers h hunit (List.length_eq_zero_iff.mp (Nat.le_zero.mp hrounds))
  | succ rounds ih =>
    rw [run]
    cases hrest : r.cursor.rest with
    | nil => exact finish_answers h hunit hrest
    | cons ch rest =>
      have hleads : Leads spaces e.table.contains (r.step e) _ := step_leads h hunit
      have hprogress : Cursor.Keeps r.cursor _ (r.step e) := step_keeps hunit (by simp [hrest])
      generalize s.read (.spaced spaces) e.table.contains (ts.map Prod.fst) = tree at hleads ⊢
      cases hstep : r.step e with
      | error p =>
        rw [hstep] at hleads
        cases hleads
        exact .error p
      | ok r₁ =>
        have hshorter := (hprogress.of_ok hstep).length_lt
        rw [hstep] at hleads
        cases hleads with
        | ok h₁ hunit₁ => exact ih h₁ hunit₁ (by omega)

end Reader

end PatternCompiler
