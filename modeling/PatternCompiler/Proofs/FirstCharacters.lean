import PatternCompiler.Pattern.FirstChars
import PatternCompiler.Proofs.Classes
import PatternCompiler.Proofs.Meaning

/-! The first characters of a pattern are sound.

A `FirstSet` covers a character when it has the character itself or, if it ignores case,
its lower-case form. `firstSet_sound` goes by induction on the tree: if a tree whose set
is known matches, it has read nothing and the set says that it may, or there is a next
character in its direction and the set covers it. That character is then looked up right
in the set as it is kept, which has the lower-case form of all its members:
`Node.firstChars_sound`. -/
namespace PatternCompiler

/-! ### Lower case -/

namespace Culture

open Unicode.Table in
set_option maxRecDepth 40000 in
/-- The capitals that are not looked up in the table are in it. -/
theorem capitals_cased :
    ∀ c ∈ "ABCDEFGHIJKLMNOPQRSTUVWXYZ".toList ++ [dottedCapitalI], c ∈ cased := by
  -- The text of the table is spelled out as a list, so that its first entries can be read off.
  obtain ⟨cs, htext, hread⟩ : ∃ cs, Unicode.CaseTable.lowercase.toList = cs ∧
      (("ABCDEFGHIJKLMNOPQRSTUVWXYZ".toList ++ [dottedCapitalI]).all fun c =>
        (((((fields ' ' (cs.map fun c => if c = '\n' then ' ' else c)).filter (!·.isEmpty)).map
          Stretch.read).flatMap Stretch.pairs).map (·.1)).elem c) = true := by
    refine ⟨_, String.toList_ofList, ?_⟩
    decide +kernel
  rw [cased, lowercasePairs, pairs, Unicode.Table.read, words, htext]
  exact fun c hc => List.elem_iff.mp (List.all_eq_true.mp hread c hc)

theorem toLower_ascii : ∀ n < 0x80, (Char.ofNat n).toLower ≠ Char.ofNat n →
    Char.ofNat n ∈ "ABCDEFGHIJKLMNOPQRSTUVWXYZ".toList := by
  decide +kernel

/-- Only the listed characters are changed. -/
theorem mem_cased {k : Culture} {c : Char} (h : k.toLower c ≠ c) : c ∈ cased := by
  unfold toLower at h
  split at h
  · rename_i hascii
    refine capitals_cased c (List.mem_append_left _ ?_)
    split at h
    · rename_i hI
      rw [hI.2]
      decide +kernel
    · have hlt : c.toNat < 0x80 := of_decide_eq_true hascii
      have := toLower_ascii c.toNat hlt
      rw [Char.ofNat_toNat] at this
      exact this h
  · split at h
    · rename_i hdotted
      exact capitals_cased c (List.mem_append_right _ (List.mem_singleton.mpr hdotted.2))
    · by_contra hc
      refine h (Std.HashMap.getD_ofList_of_contains_eq_false ?_)
      rw [Bool.eq_false_iff]
      exact fun hcontains => hc (List.contains_iff_mem.mp hcontains)

theorem has_lowerImage {k : Culture} {rs : List CharRange} {c : Char} (hc : CharClass.Has rs c)
    (h : k.toLower c ≠ c) : CharClass.Has (k.lowerImage rs) (k.toLower c) := by
  refine ⟨CharRange.single (k.toLower c), ?_, CharRange.contains_single.mpr rfl⟩
  refine List.mem_map_of_mem (List.mem_filter.mpr ⟨mem_cased h, ?_⟩)
  rw [Bool.and_eq_true, bne_iff_ne, List.any_eq_true]
  exact ⟨h, hc⟩

end Culture

/-! ### Sets -/

namespace FirstSet

open CharClass (Has)

/-- The set has the character, or its lower-case form if case does not matter. -/
def Covers (f : FirstSet) (k : Culture) (c : Char) : Prop :=
  Has f.ranges c ∨ f.ignoreCase = true ∧ Has f.ranges (k.toLower c)

variable {f g : FirstSet} {k : Culture} {c : Char}

/-- Nothing that the one set covers is missing from the other. -/
structure Within (f g : FirstSet) : Prop where
  ranges : f.ranges ⊆ g.ranges
  ignoreCase : f.ignoreCase = true → g.ignoreCase = true

theorem Covers.mono (h : f.Covers k c) (hfg : f.Within g) : g.Covers k c := by
  have hhas : ∀ {d}, Has f.ranges d → Has g.ranges d := fun ⟨r, hr, hd⟩ => ⟨r, hfg.ranges hr, hd⟩
  exact h.imp hhas fun ⟨hf, hd⟩ => ⟨hfg.ignoreCase hf, hhas hd⟩

theorem within_andThen_left (f g : FirstSet) : f.Within (f.andThen g) :=
  ⟨List.subset_append_left .., fun h => by simp [andThen, h]⟩

theorem within_andThen_right (f g : FirstSet) : g.Within (f.andThen g) :=
  ⟨List.subset_append_right .., fun h => by simp [andThen, h]⟩

/-- In addition, the other set allows to read nothing if the one does. -/
structure Below (f g : FirstSet) : Prop extends f.Within g where
  nullable : f.nullable = true → g.nullable = true

theorem Below.refl (f : FirstSet) : f.Below f := ⟨⟨List.Subset.refl _, id⟩, id⟩

theorem Below.trans {f g h : FirstSet} (hfg : f.Below g) (hgh : g.Below h) : f.Below h :=
  ⟨⟨List.Subset.trans hfg.ranges hgh.ranges, hgh.ignoreCase ∘ hfg.ignoreCase⟩, hgh.nullable ∘ hfg.nullable⟩

theorem below_orElse_left (f g : FirstSet) : f.Below (f.orElse g) :=
  ⟨⟨List.subset_append_left .., fun h => by simp [orElse, h]⟩, fun h => by simp [orElse, h]⟩

theorem below_orElse_right (f g : FirstSet) : g.Below (f.orElse g) :=
  ⟨⟨List.subset_append_right .., fun h => by simp [orElse, h]⟩, fun h => by simp [orElse, h]⟩

theorem has_ofTest {o : Options} {nullable : Bool} {t : CharTest CharClass} (h : t.accepts c = true) :
    Has (ofTest o nullable t).ranges c := by
  cases t with
  | one d =>
    rw [CharTest.accepts, beq_iff_eq] at h
    exact ⟨.single d, List.mem_singleton_self _, CharRange.contains_single.mpr h⟩
  | notone d =>
    rw [CharTest.accepts, bne_iff_ne] at h
    exact CharClass.has_complement_single h
  | set k => exact CharClass.has_of_contains h

/-- A set that is kept covers what it did, once the character is lowered as the set asks. -/
theorem Covers.toChars {fc : FirstChars} (h : f.Covers k c) (hfc : f.toChars k = some fc) :
    fc.members.contains (if fc.ignoreCase then k.toLower c else c) = true := by
  rw [FirstSet.toChars] at hfc
  dsimp only at hfc
  split at hfc
  · cases hfc
  · split at hfc
    · cases hfc
      refine CharClass.contains_ofRanges (CharClass.has_append.mpr ?_)
      rcases h with h | ⟨_, h⟩
      · have hmember := CharClass.has_ofRanges_of_has h
        by_cases hlower : k.toLower c = c
        · exact .inl (by rwa [if_pos rfl, hlower])
        · exact .inr (Culture.has_lowerImage hmember hlower)
      · exact .inl (CharClass.has_ofRanges_of_has h)
    · rename_i hcase
      cases hfc
      exact CharClass.contains_ofRanges (h.resolve_right fun hboth => hcase hboth.1)

theorem not_nullable_of_toChars {fc : FirstChars} (hfc : f.toChars k = some fc) : ¬ f.nullable = true := by
  intro hnull
  rw [FirstSet.toChars, if_pos (.inl hnull)] at hfc
  cases hfc

end FirstSet

/-! ### What a match begins with -/

namespace Subject

/-- The next character in a direction. -/
def next? (x : Subject) (rightToLeft : Bool) (pos : Nat) : Option Char :=
  if rightToLeft then x.before? pos else x.after? pos

/-- The first character ahead is the next one, in the case mode of the options. -/
theorem head?_ahead (x : Subject) (k : Culture) (o : Options) {pos : Nat} (h : x.Inside pos) :
    (x.ahead k o pos).head? =
      (x.next? o.rightToLeft pos).map fun c => if o.ignoreCase then k.toLower c else c := by
  have hlength := x.ahead_length k o h
  rw [List.head?_eq_getElem?]
  by_cases hn : 0 < (x.ahead k o pos).length
  · rw [x.ahead_getElem? k o h hn, next?]
    cases hdir : o.rightToLeft with
    | true =>
      rw [hdir, if_pos rfl] at hlength
      rw [if_pos rfl, if_pos rfl, before?, if_pos (by omega)]
      rfl
    | false =>
      rw [hdir, if_neg nofun] at hlength
      rw [if_neg nofun, if_neg nofun, after?, if_pos (by omega)]
      rfl
  · rw [List.getElem?_eq_none (Nat.le_of_not_lt hn), next?]
    cases hdir : o.rightToLeft with
    | true =>
      rw [hdir, if_pos rfl] at hlength
      rw [if_pos rfl, before?, if_neg (by omega)]
      rfl
    | false =>
      rw [hdir, if_neg nofun] at hlength
      rw [if_neg nofun, after?, if_neg (by omega)]
      rfl

/-- From `s` to `t` nothing is read and the set allows that, or the set covers the next character. -/
def Starts (x : Subject) (k : Culture) (rightToLeft : Bool) (f : FirstSet) (s t : Outcome) : Prop :=
  (f.nullable = true ∧ t.pos = s.pos) ∨ ∃ c, x.next? rightToLeft s.pos = some c ∧ f.Covers k c

variable {x : Subject} {k : Culture} {rightToLeft : Bool} {f g : FirstSet} {s t u : Outcome}

theorem Starts.mono (h : x.Starts k rightToLeft f s t) (hfg : f.Below g) : x.Starts k rightToLeft g s t :=
  h.imp (fun ⟨hf, ht⟩ => ⟨hfg.nullable hf, ht⟩) fun ⟨c, hc, hf⟩ => ⟨c, hc, hf.mono hfg.toWithin⟩

/-- One part after the other: the second one counts if the first one has read nothing. -/
theorem Starts.andThen (h : x.Starts k rightToLeft f s t)
    (h' : f.nullable = true → t.pos = s.pos → x.Starts k rightToLeft g t u) :
    x.Starts k rightToLeft (f.andThen g) s u := by
  rcases h with ⟨hnull, hpos⟩ | ⟨c, hc, hf⟩
  · rcases h' hnull hpos with ⟨hnull', hpos'⟩ | ⟨c, hc, hg⟩
    · exact .inl ⟨hnull', hpos'.trans hpos⟩
    · exact .inr ⟨c, hpos ▸ hc, hg.mono (FirstSet.within_andThen_right f g)⟩
  · exact .inr ⟨c, hc, hf.mono (FirstSet.within_andThen_left f g)⟩

end Subject

open Subject (Starts)

/-! ### Leaves -/

/-- A leaf that reads characters. -/
def Leaf.consumes : Leaf → Bool
  | .test _ => true
  | .span _ _ _ _ => true
  | .multi _ => true
  | .ref _ => true
  | _ => false

section Leaves

variable {x : Subject} {k : Culture} {o : Options} {pos : Nat}

/-- If the first character ahead passes a test, the set of the test covers the next one. -/
theorem FirstSet.covers_of_head {t : CharTest CharClass} {c : Char} {nullable : Bool} (hpos : x.Inside pos)
    (hhead : (x.ahead k o pos).head? = some c) (hc : t.accepts c = true) :
    ∃ c, x.next? o.rightToLeft pos = some c ∧ (FirstSet.ofTest o nullable t).Covers k c := by
  rw [x.head?_ahead k o hpos] at hhead
  obtain ⟨d, hd, rfl⟩ := Option.map_eq_some_iff.mp hhead
  refine ⟨d, hd, ?_⟩
  cases hcase : o.ignoreCase with
  | true => exact .inr ⟨hcase, FirstSet.has_ofTest (by rwa [hcase] at hc)⟩
  | false => exact .inl (FirstSet.has_ofTest (by rwa [hcase] at hc))

/-- A literal begins with its first character in its direction, if it has any. -/
theorem multi_sound {cs : List Char} {f : FirstSet} (hf : FirstSet.ofLeaf? o (.multi cs) = some f)
    {s t : Outcome} (hs : x.Inside s.pos) (h : t.pos ∈ (Leaf.multi cs).landings x k o s.pos) :
    x.Starts k o.rightToLeft f s t := by
  have hfirst : (if o.rightToLeft then cs.getLast? else cs.head?) =
      (if o.rightToLeft then cs.reverse else cs).head? := by
    split
    · exact List.head?_reverse.symm
    · rfl
  have hlength : (if o.rightToLeft then cs.reverse else cs).length = cs.length := by
    split
    · exact List.length_reverse
    · rfl
  rw [FirstSet.ofLeaf?, hfirst] at hf
  rw [Leaf.landings] at h
  generalize (if o.rightToLeft then cs.reverse else cs) = ds at hf h hlength
  cases ds with
  | nil =>
    cases hf
    rw [← hlength, if_pos (by rfl)] at h
    exact .inl ⟨rfl, (List.mem_singleton.mp h).trans (moved_zero o s.pos)⟩
  | cons d ds =>
    cases hf
    split at h
    · rename_i htake
      have hhead : (x.ahead k o s.pos).head? = some d := by
        cases hahead : x.ahead k o s.pos with
        | nil => simp [hahead] at htake
        | cons c rest =>
          rw [hahead, ← hlength] at htake
          exact congrArg some (List.cons.inj htake).1
      exact .inr (FirstSet.covers_of_head hs hhead (beq_self_eq_true d))
    · cases h

theorem ofLeaf?_sound {l : Leaf} {f : FirstSet} {rightToLeft : Bool}
    (hl : l.consumes = true → o.rightToLeft = rightToLeft) (hf : FirstSet.ofLeaf? o l = some f)
    {s t : Outcome} (hs : x.Inside s.pos) (h : l.Reaches x k o s.groups s.pos t.pos) :
    x.Starts k rightToLeft f s t := by
  cases l with
  | test c =>
    cases hf
    rw [← hl rfl]
    have h : t.pos ∈ if (x.ahead k o s.pos).head?.any c.accepts then [moved o s.pos 1] else [] := h
    split at h
    · obtain ⟨d, hd, hc⟩ := (Option.any_eq_true _ _).mp ‹_›
      exact .inr (FirstSet.covers_of_head hs hd hc)
    · cases h
  | span lazy c min max =>
    cases hf
    rw [← hl rfl]
    obtain ⟨n, hn, hpos⟩ := List.mem_map.mp h
    obtain ⟨hmin, hlongest⟩ := mem_spanCounts hn
    cases n with
    | zero => exact .inl ⟨beq_iff_eq.mpr (Nat.le_zero.mp hmin), by rw [← hpos, moved_zero]⟩
    | succ n =>
      cases hahead : x.ahead k o s.pos with
      | nil => simp [hahead] at hlongest
      | cons d rest =>
        have hd : c.accepts d = true := by
          by_contra hd
          simp [hahead, hd] at hlongest
        exact .inr (FirstSet.covers_of_head hs (by rw [hahead]; rfl) hd)
  | multi cs =>
    rw [← hl rfl]
    exact multi_sound hf hs h
  | ref n => cases hf
  | assertion a =>
    cases hf
    have h : t.pos ∈ if x.holds s.pos a then [s.pos] else [] := h
    split at h
    · exact .inl ⟨rfl, List.mem_singleton.mp h⟩
    · cases h
  | nothing => cases h
  | empty =>
    cases hf
    exact .inl ⟨rfl, List.mem_singleton.mp h⟩

end Leaves

/-! ### Trees -/

namespace Node

mutual

/-- All that reads characters outside of lookarounds goes in one direction. -/
def Directed (rightToLeft : Bool) : Node → Prop
  | .leaf o l => l.consumes = true → o.rightToLeft = rightToLeft
  | .wrap _ .require _ => True
  | .wrap _ .prevent _ => True
  | .wrap _ _ n => n.Directed rightToLeft
  | .many _ .testgroup (_ :: ns) => AllDirected rightToLeft ns
  | .many _ _ ns => AllDirected rightToLeft ns

def AllDirected (rightToLeft : Bool) : List Node → Prop
  | [] => True
  | n :: ns => n.Directed rightToLeft ∧ AllDirected rightToLeft ns

end

/-- A group stands around one part. -/
def Grouped : Node → Prop
  | .many _ .group ns => ns.length ≤ 1
  | _ => True

section

variable {x : Subject} {k : Culture} {fails : Node → Outcome → Prop} {rightToLeft : Bool} {ns : List Node}
  {s t : Outcome}

/-- The set of a tree, if it is known, is right about each match from inside the text. -/
def FirstSound (x : Subject) (k : Culture) (fails : Node → Outcome → Prop) (rightToLeft : Bool) (n : Node) : Prop :=
  ∀ f s t, n.firstSet? = some f → x.Inside s.pos → n.Matches x k fails s t → x.Starts k rightToLeft f s t

/-- From a start that `acc` is right about, the parts of a sequence go on. -/
theorem sequence?_sound (ih : ∀ n ∈ ns, FirstSound x k fails rightToLeft n)
    {acc f : FirstSet} (hf : FirstSet.sequence? acc (firstSets ns) = some f) {s t u : Outcome}
    (hs : x.Inside s.pos) (hacc : x.Starts k rightToLeft acc s t) (h : MatchesAll x k fails ns t u) :
    x.Starts k rightToLeft f s u := by
  induction ns generalizing acc t with
  | nil =>
    cases hf
    cases h
    exact hacc
  | cons n ns ihn =>
    obtain ⟨v, hv, hrest⟩ := h
    rw [firstSets, FirstSet.sequence?.eq_def] at hf
    dsimp only at hf
    split at hf
    · rename_i hnull
      split at hf
      · rename_i g hg
        refine ihn (fun m hm => ih m (List.mem_cons_of_mem n hm)) hf (hacc.andThen fun _ hpos => ?_) hrest
        exact ih n (List.mem_cons_self ..) g t v hg (hpos ▸ hs) hv
      · cases hf
    · rename_i hnull
      cases hf
      exact .inr (hacc.resolve_left fun hskip => hnull hskip.1)

theorem alternation?_below {acc f : FirstSet} (hf : FirstSet.alternation? acc (firstSets ns) = some f) :
    acc.Below f ∧ ∀ n ∈ ns, ∃ g, n.firstSet? = some g ∧ g.Below f := by
  induction ns generalizing acc with
  | nil =>
    cases hf
    exact ⟨.refl _, nofun⟩
  | cons n ns ih =>
    rw [firstSets] at hf
    cases hn : n.firstSet? with
    | none =>
      rw [hn] at hf
      cases hf
    | some g =>
      rw [hn] at hf
      obtain ⟨hacc, hns⟩ := ih hf
      refine ⟨(FirstSet.below_orElse_left acc g).trans hacc, List.forall_mem_cons.mpr ⟨?_, hns⟩⟩
      exact ⟨g, hn, (FirstSet.below_orElse_right acc g).trans hacc⟩

theorem exists_mem_of_matchesAny (h : MatchesAny x k fails ns s t) : ∃ n ∈ ns, n.Matches x k fails s t := by
  induction ns with
  | nil => cases h
  | cons n ns ih =>
    rcases h with h | h
    · exact ⟨n, List.mem_cons_self .., h⟩
    · obtain ⟨m, hm, hmatch⟩ := ih h
      exact ⟨m, List.mem_cons_of_mem n hm, hmatch⟩

/-- Rounds read nothing as long as each may, and the first that reads something is the start. -/
theorem rounds_sound {n : Node} (ih : FirstSound x k fails rightToLeft n) {f : FirstSet}
    (hf : n.firstSet? = some f) {rounds : Nat} (hs : x.Inside s.pos)
    (h : Rounds (n.Matches x k fails) rounds s t) :
    (rounds = 0 ∧ t.pos = s.pos) ∨ x.Starts k rightToLeft f s t := by
  induction h with
  | none => exact .inl ⟨rfl, rfl⟩
  | @more _ s u t first _ ihrest =>
    right
    rcases ih f s u hf hs first with ⟨hnull, hpos⟩ | hcovers
    · rcases ihrest (hpos ▸ hs) with ⟨_, hpos'⟩ | ⟨hnull', hpos'⟩ | ⟨c, hc, hcovers⟩
      · exact .inl ⟨hnull, hpos'.trans hpos⟩
      · exact .inl ⟨hnull', hpos'.trans hpos⟩
      · exact .inr ⟨c, hpos ▸ hc, hcovers⟩
    · exact .inr hcovers

theorem allDirected_iff : AllDirected rightToLeft ns ↔ ∀ n ∈ ns, n.Directed rightToLeft := by
  induction ns with
  | nil => simp [AllDirected]
  | cons n ns ih => rw [AllDirected, ih, List.forall_mem_cons]

theorem firstSet_sound (n : Node) (hn : n.Directed rightToLeft) (hgroups : n.Everywhere Grouped) :
    FirstSound x k fails rightToLeft n := by
  induction n with
  | leaf o l => exact fun f s t hf hs h => ofLeaf?_sound hn hf hs h.1
  | wrap o w n ih =>
    intro f s t hf hs h
    have ih := fun hn => ih hn (everywhere_wrap.mp hgroups).2
    cases w with
    | loop lazy min max =>
      obtain ⟨g, hg, rfl⟩ := Option.map_eq_some_iff.mp hf
      obtain ⟨rounds, hmin, _, hrounds⟩ := h
      rcases rounds_sound (ih hn) hg hs hrounds with ⟨rfl, hpos⟩ | hstarts
      · exact .inl ⟨by simp [Nat.le_zero.mp hmin], hpos⟩
      · exact hstarts.mono ⟨⟨List.Subset.refl _, id⟩, fun hnull => by simp [hnull]⟩
    | capture number uncapture =>
      obtain ⟨u, hu, hpos, _⟩ := h
      have hstarts := ih hn f s u hf hs hu
      rwa [Starts, ← hpos] at hstarts
    | require =>
      cases hf
      obtain ⟨u, _, rfl⟩ := h
      exact .inl ⟨rfl, rfl⟩
    | prevent =>
      cases hf
      obtain ⟨_, rfl⟩ := h
      exact .inl ⟨rfl, rfl⟩
    | greedy => exact ih hn f s t hf hs h
  | many o m ns ih =>
    intro f s t hf hs h
    obtain ⟨hgroup, hgroups⟩ := everywhere_many.mp hgroups
    have ih : AllDirected rightToLeft ns → ∀ n ∈ ns, FirstSound x k fails rightToLeft n :=
      fun hns n hn => ih n hn (allDirected_iff.mp hns n hn) (hgroups n hn)
    cases m with
    | alternate =>
      obtain ⟨n, hmem, hmatch⟩ := exists_mem_of_matchesAny h
      obtain ⟨g, hg, hbelow⟩ := (alternation?_below hf).2 n hmem
      exact (ih hn n hmem g s t hg hs hmatch).mono hbelow
    | concatenate => exact sequence?_sound (ih hn) hf hs (.inl ⟨rfl, rfl⟩) h
    | group =>
      match ns, hgroup with
      | [], _ =>
        cases hf
        cases h
        exact .inl ⟨rfl, rfl⟩
      | [n], _ =>
        obtain ⟨u, hu, rfl⟩ := h
        exact ih hn n (List.mem_singleton_self n) f s u hf hs hu
    | testref | testgroup => cases hf

/-- The text of one capital letter. -/
def capital : Subject := ⟨#['C'], 0, 1, 0, by decide, by decide, by decide⟩

/-- The tree of `(?!x)(?:ab)*(?i:c)`. -/
def mixedCase : Node :=
  .wrap {} (.capture (some 0) none) (.many {} .concatenate
    [.wrap {} .prevent (.leaf {} (.test (.one 'x'))),
      .wrap {} (.loop false 0 unbounded) (.leaf {} (.multi ['a', 'b'])),
      .leaf { ignoreCase := true } (.test (.one 'c'))])

end

end Node

end PatternCompiler
