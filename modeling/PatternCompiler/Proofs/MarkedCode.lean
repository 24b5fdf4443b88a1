import PatternCompiler.Proofs.Marks

/-! The marks in the code of a matcher.

Whatever an operation does, first or when it is resumed, its code is faithful to its marks
(`Routine.faithful_forwardCode`, `Routine.faithful_resumeCode`), and so are the whole routine
(`Routine.faithful_code`) and the search for a candidate (`Program.faithful_startCode`). -/
namespace PatternCompiler

open Place

namespace Source

/-! ### The code of an operation -/

section

open Stmt

variable (o : Operation)

theorem faithful_testCode (t : CharTest Nat) : AllFaithful (testCode o t) := by
  have hlimit : Sealed watched (if o.rightToLeft then "pos <= beg || " else "pos >= end || ") [] := by
    split <;> exact sealed_text rfl rfl
  have hmisses := closed_misses t (closed_read o (bare_nextIndex o))
  simpa [testCode] using (hmisses.text_cons hlimit).faithful

theorem faithful_join {between : String} (hbreaks : Breaks between) (hbetween : Sealed watched between [])
    {ps : List Phrase} (h : ∀ p ∈ ps, p.Faithful) : (Phrase.join between ps).Faithful := by
  induction ps with
  | nil => exact Phrase.Closed.nil.faithful
  | cons p ps ih =>
    obtain ⟨hp, hps⟩ := List.forall_mem_cons.mp h
    cases ps with
    | nil => exact hp
    | cons q ps =>
      have hrest := (faithful_text_cons hbetween).mpr (ih hps)
      rw [Phrase.join, Phrase.Faithful, Phrase.toText_append, Phrase.names_append]
      · exact hp.append (Phrase.breaks_cons hbreaks) hrest
      · simp

theorem bare_literalIndex (n i : Nat) : Bare (literalIndex o n i) := by
  rw [literalIndex]
  split
  · exact bare_after (bare_number (n - i)) rfl rfl
  · split
    · exact bare_text rfl rfl
    · exact bare_after (bare_number i) rfl rfl

theorem closed_literalMisses (n i : Nat) (cs : List Char) : ∀ p ∈ literalMisses o n i cs, p.Closed := by
  induction cs generalizing i with
  | nil => simp [literalMisses]
  | cons c cs ih =>
    rw [literalMisses, List.forall_mem_cons]
    exact ⟨closed_compared (closed_read o (bare_literalIndex o n i)) (sealed_text rfl rfl) c, ih (i + 1)⟩

theorem bare_charList (cs : List Char) : Bare (charList cs) := by
  refine loose_intercalate fun s hs => ?_
  obtain ⟨c, _, rfl⟩ := List.mem_map.mp hs
  exact (sealed_charLiteral c).loose

theorem faithful_multiCode (cs : List Char) : AllFaithful (multiCode o cs) := by
  have hfew := faithful_tooFew o (bare_number cs.length)
  have hmove := faithful_moveCode o (bare_number cs.length)
  simp only [multiCode, allFaithful_append]
  refine ⟨?_, by simpa using hmove⟩
  split
  · have hjoin : (Phrase.join " || " (tooFew o (toString cs.length) :: literalMisses o cs.length 0 cs)).Faithful :=
      faithful_join (breaks_text rfl rfl) (sealed_text rfl rfl) <| List.forall_mem_cons.mpr
        ⟨hfew, fun p hp => (closed_literalMisses o cs.length 0 cs p hp).faithful⟩
    simpa using hjoin
  · have hheader : Bare ("for (i, &c) in [" ++ charList cs ++ "].iter().enumerate()") :=
      bare_around (bare_charList cs) rfl rfl rfl
    have hindex : Bare (if o.rightToLeft then "pos - " ++ toString cs.length ++ " + i" else "pos + i") := by
      split
      · have hstart : Bare ("pos - " ++ toString cs.length) := bare_after (bare_number cs.length) rfl rfl
        exact hstart.append (breaks_text rfl rfl) (bare_text rfl rfl)
      · exact bare_text rfl rfl
    have hunequal := (closed_read o hindex).append_bare (bare_text rfl rfl : Bare " != c")
    simpa using And.intro hfew (And.intro hheader hunequal)

theorem faithful_refCode (ecma : Bool) (slot : Nat) : AllFaithful (refCode o ecma slot) := by
  have hmatched : Bare ("r.is_matched(" ++ toString slot ++ ")") := bare_around (bare_number slot) rfl rfl rfl
  have hindex : Bare ("r.match_index(" ++ toString slot ++ ")") := bare_around (bare_number slot) rfl rfl rfl
  have hlength : Bare ("r.match_length(" ++ toString slot ++ ")") := bare_around (bare_number slot) rfl rfl rfl
  have hlen : Bare "len" := bare_text rfl rfl
  have hother : Bare (if o.rightToLeft then "pos - len + i" else "pos + i") := by
    split <;> exact bare_text rfl rfl
  have hunequal : Phrase.Closed (read o "index + i" ++
      .text " != " :: read o (if o.rightToLeft then "pos - len + i" else "pos + i")) :=
    (closed_read o (bare_text rfl rfl)).append (.text_cons (sealed_text rfl rfl) (closed_read o hother))
  have hcompare := And.intro (faithful_let (bare_text rfl rfl : Bare "index") (faithful_plain.mpr hindex)) <|
    And.intro (faithful_let hlen (faithful_plain.mpr hlength)) <| And.intro (faithful_tooFew o hlen) <|
    And.intro (And.intro (bare_text rfl rfl : Bare "for i in 0..len") hunequal.faithful) (faithful_moveCode o hlen)
  cases ecma <;> simp only [refCode, Bool.false_eq_true, if_true, if_false, AllFaithful, Faithful,
    faithful_ifScope, faithful_declare, faithful_failIf, faithful_block, faithful_plain, and_true]
  · exact ⟨hmatched, hcompare, allFaithful_fail⟩
  · exact ⟨hmatched, hcompare⟩

theorem faithful_repCode (t : CharTest Nat) (count : Nat) : AllFaithful (repCode o t count) := by
  have hfor : Bare ("for i in 0.." ++ toString count) := bare_after (bare_number count) rfl rfl
  have hindex : Bare (if o.rightToLeft then "pos - 1 - i" else "pos + i") := by split <;> exact bare_text rfl rfl
  have hmisses := (closed_misses t (closed_read o hindex)).faithful
  rw [repCode]
  split
  · trivial
  · simp only [AllFaithful, faithful_failIf, faithful_block, and_true]
    exact ⟨faithful_tooFew o (bare_number count), ⟨hfor, hmisses⟩, faithful_moveCode o (bare_number count)⟩

theorem faithful_limitCode (max : Nat) : AllFaithful (limitCode o max) := by
  have hlimit : Bare (if max = unbounded then "avail"
      else "if avail < " ++ toString max ++ " \x7b avail \x7d else \x7b " ++ toString max ++ " \x7d") := by
    split
    · exact bare_text rfl rfl
    · exact (((sealed_around (bare_number max) rfl rfl rfl).append_loose (bare_number max)).append_sealed
        (breaks_text rfl rfl) (sealed_text rfl rfl)).loose
  simp only [limitCode, AllFaithful, faithful_declare, and_true]
  exact ⟨faithful_let (bare_text rfl rfl) (faithful_plain.mpr (bare_available o)),
    faithful_let (bare_text rfl rfl) (faithful_plain.mpr hlimit)⟩

theorem faithful_greedyCode (t : CharTest Nat) (max tag : Nat) : AllFaithful (greedyCode o t max tag) := by
  have hwhile := (closed_passes t (closed_read o (bare_nextIndex o))).text_cons
    (sealed_text rfl rfl : Sealed watched "i > 0 && " [])
  simp only [greedyCode, AllFaithful, Faithful, faithful_block, allFaithful_append, faithful_declareMut,
    faithful_whileScope, faithful_ifScope, faithful_code, faithful_stepCode, faithful_plain, and_true, true_and]
  exact ⟨bare_text rfl rfl, faithful_limitCode o max,
    faithful_letMut (bare_text rfl rfl) (faithful_plain.mpr (bare_text rfl rfl)),
    ⟨hwhile.faithful, bare_text rfl rfl⟩, bare_text rfl rfl, bare_around (bare_steppedBack o) rfl rfl rfl⟩

theorem faithful_lazyCode (max tag : Nat) : AllFaithful (lazyCode o max tag) := by
  simp only [lazyCode, AllFaithful, Faithful, faithful_block, allFaithful_append, faithful_ifScope, faithful_code,
    faithful_plain, and_true]
  exact ⟨bare_text rfl rfl, faithful_limitCode o max, bare_text rfl rfl, bare_text rfl rfl⟩

theorem faithful_popSpan : AllFaithful popSpan := by
  simp only [popSpan, AllFaithful, faithful_declare, faithful_code, and_true]
  exact ⟨faithful_let_text rfl rfl rfl, faithful_let_text rfl rfl rfl, bare_text rfl rfl⟩

theorem faithful_resumeGreedyCode (tag : Nat) : AllFaithful (resumeGreedyCode o tag) := by
  simp only [resumeGreedyCode, allFaithful_append, AllFaithful, Faithful, faithful_ifScope, faithful_plain,
    faithful_code, allFaithful_goto, and_true]
  exact ⟨faithful_popSpan, bare_text rfl rfl, bare_around (bare_steppedBack o) rfl rfl rfl⟩

theorem faithful_resumeLazyCode (t : CharTest Nat) (tag : Nat) : AllFaithful (resumeLazyCode o t tag) := by
  have hmisses := closed_misses t (closed_read o (bare_nextIndex o))
  simp only [resumeLazyCode, allFaithful_append, AllFaithful, Faithful, faithful_failIf, faithful_stepCode,
    faithful_ifScope, faithful_plain, faithful_code, allFaithful_goto, and_true, true_and]
  exact ⟨faithful_popSpan, hmisses.faithful, bare_text rfl rfl, bare_text rfl rfl⟩

theorem faithful_assertion (a : Assertion) : Bare (assertionMisses a) := by
  cases a <;> exact bare_text rfl rfl

/-! #### Marks and captures -/

variable {value : String}

theorem faithful_pushMarkCode (h : Bare value) : (pushMarkCode value).Faithful := by
  rw [pushMarkCode, faithful_code]
  exact bare_around h rfl rfl rfl

theorem faithful_uncaptureTo (h : Bare value) : (uncaptureTo value).Faithful := by
  simp only [uncaptureTo, faithful_whileScope, faithful_plain, AllFaithful, faithful_code, and_true]
  exact ⟨bare_after h rfl rfl, bare_text rfl rfl⟩

theorem faithful_undoMarkCode : AllFaithful undoMarkCode := by
  simp only [undoMarkCode, AllFaithful, faithful_code, allFaithful_fail, and_true]
  exact bare_text rfl rfl

theorem faithful_undoMark2Code : AllFaithful undoMark2Code := by
  simp only [undoMark2Code, AllFaithful, faithful_code, allFaithful_fail, and_true, and_self]
  exact bare_text rfl rfl

theorem faithful_redoMarkCode : AllFaithful redoMarkCode := by
  simp only [redoMarkCode, AllFaithful, faithful_declare, allFaithful_fail, and_true]
  exact ⟨faithful_let_text rfl rfl rfl, faithful_pushMarkCode (bare_text rfl rfl)⟩

theorem bare_slotCode (slot : Option Nat) : Bare (slotCode slot) := by
  cases slot with
  | none => exact bare_text rfl rfl
  | some s => exact bare_around (bare_number s) rfl rfl rfl

theorem faithful_captureCode (slot uncapture : Option Nat) : AllFaithful (captureCode slot uncapture) := by
  cases uncapture with
  | some u =>
    have hslot : Sealed watched ("r.transfer_capture(" ++ slotCode slot ++ ", ") [] :=
      sealed_around (bare_slotCode slot) rfl rfl rfl
    have hend : Bare ", mark as usize, pos);" := bare_text rfl rfl
    simp only [captureCode, AllFaithful, faithful_code, and_true]
    exact (hslot.append_loose (bare_number u)).append (breaks_text rfl rfl) hend
  | none =>
    cases slot with
    | none => trivial
    | some s =>
      simp only [captureCode, AllFaithful, faithful_code, and_true]
      exact bare_around (bare_number s) rfl rfl rfl

theorem faithful_capturemarkCode (slot uncapture : Option Nat) (tag : Nat) :
    AllFaithful (capturemarkCode slot uncapture tag) := by
  have hmatched : ∀ u : Nat, Bare ("!r.is_matched(" ++ toString u ++ ")") := fun u =>
    bare_around (bare_number u) rfl rfl rfl
  have hmark : Phrase.Faithful
      (.text ("let " ++ "mark" ++ " = ") :: Phrase.plain "r.stack_pop()" ++ [.text ";"]) :=
    faithful_let_text rfl rfl rfl
  have hpush : Bare "r.track_push(mark);" := bare_text rfl rfl
  cases uncapture <;> simp only [capturemarkCode, allFaithful_append, AllFaithful, Faithful, List.cons_append,
    faithful_failIf, faithful_plain, faithful_declare, faithful_code, faithful_captureCode, and_true, true_and]
  · exact ⟨hmark, hpush⟩
  · exact ⟨hmatched _, hmark, hpush⟩

theorem faithful_undoCapturemarkCode (slot uncapture : Option Nat) :
    AllFaithful (undoCapturemarkCode slot uncapture) := by
  have huncapture : ∀ n, AllFaithful (List.replicate n (.code "r.uncapture();")) := by
    intro n
    induction n with
    | zero => trivial
    | succ n ih =>
      simp only [List.replicate_succ, AllFaithful, faithful_code]
      exact ⟨bare_text rfl rfl, ih⟩
  simp only [undoCapturemarkCode, allFaithful_append, AllFaithful, List.cons_append, faithful_declare,
    allFaithful_fail, and_true]
  exact ⟨faithful_let_text rfl rfl rfl, faithful_pushMarkCode (bare_text rfl rfl), huncapture _⟩

/-! #### Loops over groups -/

theorem faithful_branchmarkCode (id target primary secondary : Nat) :
    AllFaithful (branchmarkCode id target primary secondary) := by
  simp only [branchmarkCode, AllFaithful, Faithful, faithful_declare, faithful_ifScope, faithful_plain,
    faithful_code, allFaithful_goto, and_true, true_and]
  exact ⟨faithful_let_text rfl rfl rfl,
    ⟨bare_text rfl rfl, bare_text rfl rfl, faithful_pushMarkCode (bare_text rfl rfl)⟩, bare_text rfl rfl⟩

theorem faithful_resumeBranchmarkCode (id secondary : Nat) : AllFaithful (resumeBranchmarkCode id secondary) := by
  simp only [resumeBranchmarkCode, allFaithful_append, AllFaithful, Faithful, faithful_declare, faithful_code,
    allFaithful_goto, and_true]
  exact ⟨faithful_let_text rfl rfl rfl, faithful_let_text rfl rfl rfl, bare_text rfl rfl, bare_text rfl rfl,
    bare_text rfl rfl⟩

theorem faithful_lazyBranchmarkCode (primary secondary : Nat) :
    AllFaithful (lazyBranchmarkCode primary secondary) := by
  simp only [lazyBranchmarkCode, AllFaithful, Faithful, faithful_declare, faithful_plain, faithful_code, and_true]
  exact ⟨faithful_let_text rfl rfl rfl, bare_text rfl rfl, bare_after (bare_text rfl rfl) rfl rfl,
    faithful_pushMarkCode (bare_text rfl rfl), bare_text rfl rfl⟩

theorem faithful_resumeLazyBranchmarkCode (id target secondary : Nat) :
    AllFaithful (resumeLazyBranchmarkCode id target secondary) := by
  simp only [resumeLazyBranchmarkCode, allFaithful_append, AllFaithful, Faithful, faithful_declare, faithful_code,
    allFaithful_goto, and_true, true_and]
  exact ⟨faithful_let_text rfl rfl rfl, faithful_let_text rfl rfl rfl, bare_text rfl rfl,
    faithful_pushMarkCode (bare_text rfl rfl), bare_text rfl rfl⟩

theorem faithful_undoLazyBranchmarkCode : AllFaithful undoLazyBranchmarkCode := by
  simp only [undoLazyBranchmarkCode, AllFaithful, faithful_code, faithful_declare, allFaithful_fail, and_true]
  exact ⟨bare_text rfl rfl, faithful_let_text rfl rfl rfl, faithful_pushMarkCode (bare_text rfl rfl)⟩

theorem faithful_popCounter : AllFaithful popCounter := by
  simp only [popCounter, AllFaithful, faithful_declare, and_true]
  exact ⟨faithful_let_text rfl rfl rfl, faithful_let_text rfl rfl rfl⟩

theorem faithful_branchcountCode (id target limit primary secondary : Nat) :
    AllFaithful (branchcountCode id target limit primary secondary) := by
  simp only [branchcountCode, allFaithful_append, AllFaithful, Faithful, faithful_plain, faithful_code,
    allFaithful_goto, and_true, true_and]
  exact ⟨faithful_popCounter, bare_around (bare_number limit) rfl rfl rfl, bare_text rfl rfl, bare_text rfl rfl,
    bare_text rfl rfl⟩

theorem faithful_resumeBranchcountCode (id secondary : Nat) :
    AllFaithful (resumeBranchcountCode id secondary) := by
  simp only [resumeBranchcountCode, allFaithful_append, AllFaithful, Faithful, faithful_declare, faithful_ifScope,
    faithful_plain, faithful_code, allFaithful_goto, allFaithful_fail, and_true]
  exact ⟨faithful_let_text rfl rfl rfl, faithful_let_text rfl rfl rfl, faithful_let_text rfl rfl rfl,
    ⟨bare_text rfl rfl, bare_text rfl rfl, bare_text rfl rfl⟩, bare_text rfl rfl⟩

theorem faithful_undoBranchcountCode : AllFaithful undoBranchcountCode := by
  simp only [undoBranchcountCode, allFaithful_append, AllFaithful, faithful_declare, faithful_code,
    allFaithful_fail, and_true]
  exact ⟨faithful_let_text rfl rfl rfl, faithful_let_text rfl rfl rfl, bare_text rfl rfl⟩

theorem faithful_lazyBranchcountCode (id target primary secondary : Nat) :
    AllFaithful (lazyBranchcountCode id target primary secondary) := by
  simp only [lazyBranchcountCode, allFaithful_append, AllFaithful, Faithful, faithful_ifScope, faithful_plain,
    faithful_code, allFaithful_goto, and_true, true_and]
  exact ⟨faithful_popCounter, ⟨bare_text rfl rfl, bare_text rfl rfl, bare_text rfl rfl⟩, bare_text rfl rfl,
    bare_text rfl rfl, bare_text rfl rfl⟩

theorem faithful_resumeLazyBranchcountCode (id target limit secondary : Nat) :
    AllFaithful (resumeLazyBranchcountCode id target limit secondary) := by
  simp only [resumeLazyBranchcountCode, allFaithful_append, AllFaithful, Faithful, faithful_declare,
    faithful_ifScope, faithful_plain, faithful_code, allFaithful_goto, allFaithful_fail, and_true]
  exact ⟨faithful_let_text rfl rfl rfl, faithful_let_text rfl rfl rfl, faithful_let_text rfl rfl rfl,
    ⟨bare_around (bare_number limit) rfl rfl rfl, bare_text rfl rfl, bare_text rfl rfl, bare_text rfl rfl⟩,
    bare_text rfl rfl⟩

theorem faithful_undoLazyBranchcountCode : AllFaithful undoLazyBranchcountCode := by
  simp only [undoLazyBranchcountCode, allFaithful_append, AllFaithful, faithful_declare, faithful_code,
    allFaithful_fail, and_true]
  exact ⟨faithful_let_text rfl rfl rfl, faithful_let_text rfl rfl rfl, bare_text rfl rfl, bare_text rfl rfl⟩

/-! #### Atomic groups -/

theorem faithful_setjumpCode (tag : Nat) : AllFaithful (setjumpCode tag) := by
  simp only [setjumpCode, AllFaithful, Faithful, faithful_declare, faithful_code, and_true]
  exact ⟨faithful_let_text rfl rfl rfl, faithful_let_text rfl rfl rfl, bare_text rfl rfl⟩

theorem faithful_backjumpCode : AllFaithful backjumpCode := by
  simp only [backjumpCode, allFaithful_append, AllFaithful, faithful_declare, faithful_code, allFaithful_fail,
    and_true]
  exact ⟨faithful_let_text rfl rfl rfl, faithful_let_text rfl rfl rfl, bare_text rfl rfl,
    faithful_uncaptureTo (bare_text rfl rfl)⟩

theorem faithful_forejumpCode (tag : Nat) : AllFaithful (forejumpCode tag) := by
  simp only [forejumpCode, AllFaithful, Faithful, faithful_declare, faithful_code, and_true]
  exact ⟨faithful_let_text rfl rfl rfl, faithful_let_text rfl rfl rfl, bare_text rfl rfl, bare_text rfl rfl⟩

theorem faithful_undoForejumpCode : AllFaithful undoForejumpCode := by
  simp only [undoForejumpCode, allFaithful_append, AllFaithful, faithful_declare, allFaithful_fail, and_true]
  exact ⟨faithful_let_text rfl rfl rfl, faithful_uncaptureTo (bare_text rfl rfl)⟩

theorem faithful_stop : AllFaithful Source.stop := by
  simp only [Source.stop, AllFaithful, faithful_code, and_true]
  exact ⟨bare_text rfl rfl, bare_text rfl rfl⟩

end

end Source

open Source Source.Stmt

namespace Routine

/-! ### All operations -/

theorem faithful_forwardCode (m : Routine) (o : Operation) : AllFaithful (m.forwardCode o) := by
  have hmatched : ∀ slot : Nat, Bare ("!r.is_matched(" ++ toString slot ++ ")") := fun slot =>
    bare_around (bare_number slot) rfl rfl rfl
  cases hop : o.op <;> simp only [forwardCode, hop]
  case rep t count => exact faithful_repCode o t count
  case span lazy t max =>
    cases lazy
    · exact faithful_greedyCode o t max _
    · exact faithful_lazyCode o max _
  case test t => exact faithful_testCode o t
  case multi i => exact faithful_multiCode o _
  case ref slot => exact faithful_refCode o _ slot
  case assertion a =>
    simp only [AllFaithful, faithful_failIf, faithful_plain, and_true]
    exact faithful_assertion a
  case nothing => exact allFaithful_fail
  case lazybranch target =>
    simp only [AllFaithful, Faithful, faithful_code, and_true]
    exact bare_text rfl rfl
  case branchmark lazy target =>
    cases lazy
    · exact faithful_branchmarkCode ..
    · exact faithful_lazyBranchmarkCode ..
  case branchcount lazy target limit =>
    cases lazy
    · exact faithful_branchcountCode ..
    · exact faithful_lazyBranchcountCode ..
  case nullcount n =>
    simp only [AllFaithful, Faithful, faithful_code, and_true]
    exact bare_around (bare_integer n) rfl rfl rfl
  case setcount n =>
    simp only [AllFaithful, Faithful, faithful_code, and_true]
    exact bare_around (bare_integer n) rfl rfl rfl
  case nullmark => exact ⟨faithful_pushMarkCode (bare_text rfl rfl), trivial, trivial⟩
  case setmark => exact ⟨faithful_pushMarkCode (bare_text rfl rfl), trivial, trivial⟩
  case capturemark slot uncapture => exact faithful_capturemarkCode ..
  case getmark =>
    simp only [AllFaithful, Faithful, faithful_declare, faithful_code, and_true]
    exact ⟨faithful_let_text rfl rfl rfl, bare_text rfl rfl, bare_text rfl rfl⟩
  case setjump => exact faithful_setjumpCode _
  case backjump => exact faithful_backjumpCode
  case forejump => exact faithful_forejumpCode _
  case testref slot =>
    simp only [AllFaithful, faithful_failIf, faithful_plain, and_true]
    exact hmatched slot
  case goto target => exact allFaithful_goto
  case stop => exact faithful_stop

theorem faithful_resumeCode (m : Routine) (o : Operation) (second : Bool) :
    AllFaithful (m.resumeCode o second) := by
  cases hop : o.op <;> simp only [resumeCode, hop]
  case span lazy t max =>
    cases lazy
    · exact faithful_resumeGreedyCode o _
    · exact faithful_resumeLazyCode o t _
  case lazybranch target =>
    simp only [AllFaithful, faithful_code, allFaithful_goto, and_true]
    exact bare_text rfl rfl
  case branchmark lazy target =>
    cases lazy <;> cases second
    · exact faithful_resumeBranchmarkCode ..
    · exact faithful_redoMarkCode
    · exact faithful_resumeLazyBranchmarkCode ..
    · exact faithful_undoLazyBranchmarkCode
  case branchcount lazy target limit =>
    cases lazy <;> cases second
    · exact faithful_resumeBranchcountCode ..
    · exact faithful_undoBranchcountCode
    · exact faithful_resumeLazyBranchcountCode ..
    · exact faithful_undoLazyBranchcountCode
  case nullcount n => exact faithful_undoMark2Code
  case setcount n => exact faithful_undoMark2Code
  case nullmark => exact faithful_undoMarkCode
  case setmark => exact faithful_undoMarkCode
  case capturemark slot uncapture => exact faithful_undoCapturemarkCode ..
  case getmark => exact faithful_redoMarkCode
  case setjump => exact faithful_undoMark2Code
  case forejump => exact faithful_undoForejumpCode
  all_goals exact allFaithful_fail

/-! ### The routine -/

theorem oneLine_describe (o : Operation) : OneLine o.describe :=
  ((bare_number o.id).oneLine.append (oneLine_text rfl rfl)).append (oneLine_comment _)

theorem faithful_operationsCode (m : Routine) (ops : List Operation) : AllFaithful (m.operationsCode ops) := by
  induction ops with
  | nil => trivial
  | cons o ops ih =>
    rw [operationsCode, List.flatMap_cons, allFaithful_append]
    exact ⟨⟨oneLine_describe o, m.faithful_forwardCode o⟩, ih⟩

theorem faithful_armEnd (last : Operation) (next : Option Nat) : AllFaithful (armEnd last next) := by
  unfold armEnd
  split
  · trivial
  split
  · exact ⟨trivial, trivial⟩
  · exact faithful_stop

/-- A label and what stands at it. -/
theorem faithful_labelled {body : List Stmt} (h : AllFaithful body) (n : Nat) :
    (Stmt.block (toString n ++ " =>") body).Faithful := by
  rw [faithful_block]
  exact ⟨(bare_number n).append (breaks_text rfl rfl) (bare_text rfl rfl), h⟩

theorem faithful_armsOf (m : Routine) (segs : List (List Operation)) :
    AllFaithful ((m.armsOf segs).map armCode) := by
  induction segs with
  | nil => trivial
  | cons seg segs ih =>
    cases seg with
    | nil => exact ih
    | cons o seg =>
      refine ⟨faithful_labelled ?_ o.id, ih⟩
      rw [allFaithful_append]
      exact ⟨m.faithful_operationsCode _, faithful_armEnd _ _⟩

theorem faithful_casesFrom (m : Routine) (tag : Nat) (rs : List Resumption) :
    AllFaithful ((m.casesFrom tag rs).map caseCode) := by
  induction rs generalizing tag with
  | nil => trivial
  | cons r rs ih =>
    refine ⟨faithful_labelled ?_ tag, ih (tag + 1)⟩
    split
    · exact m.faithful_resumeCode _ _
    · trivial

theorem faithful_loopCode (m : Routine) : m.loopCode.Faithful := by
  have hdispatch : m.dispatchCode.Faithful := by
    simp only [dispatchCode, Faithful, faithful_plain, allFaithful_append, AllFaithful, faithful_code, and_true]
    exact ⟨⟨bare_text rfl rfl, bare_after (bare_text rfl rfl) rfl rfl⟩, m.faithful_casesFrom 0 _,
      bare_text rfl rfl⟩
  simp only [loopCode, faithful_block, allFaithful_append, AllFaithful, faithful_code, and_true]
  exact ⟨bare_text rfl rfl, bare_text rfl rfl, m.faithful_armsOf _, hdispatch, bare_text rfl rfl⟩

theorem faithful_code (m : Routine) : AllFaithful m.code := by
  simp only [code, AllFaithful, Stmt.faithful_code, faithful_declare, faithful_declareMut, and_true]
  exact ⟨bare_text rfl rfl, faithful_let_text rfl rfl rfl, faithful_let_text rfl rfl rfl,
    faithful_let_text rfl rfl rfl,
    faithful_letMut (bare_text rfl rfl) (faithful_plain.mpr (bare_text rfl rfl)), bare_text rfl rfl,
    m.faithful_loopCode⟩

end Routine

/-! ### The search -/

namespace Source

variable {position condition : String}

theorem bare_farEnd (rightToLeft : Bool) : Bare (farEnd rightToLeft) := by
  cases rightToLeft <;> exact bare_text rfl rfl

theorem faithful_moveTo (h : Bare position) : (moveTo position).Faithful := by
  rw [moveTo, Stmt.faithful_code]
  exact bare_around h rfl rfl rfl

theorem faithful_clampCode (hcondition : Bare condition) (h : Bare position) :
    (clampCode condition position).Faithful := by
  rw [clampCode, faithful_ifScope, faithful_plain]
  exact ⟨hcondition, faithful_moveTo h, trivial⟩

theorem faithful_rejectCode (hcondition : Bare condition) (h : Bare position) :
    (rejectCode condition position).Faithful := by
  simp only [rejectCode, faithful_ifScope, faithful_plain, AllFaithful, Stmt.faithful_code, and_true]
  exact ⟨hcondition, faithful_moveTo h, bare_text rfl rfl⟩

theorem allFaithful_ite {c : Prop} [Decidable c] {s : Stmt} (h : s.Faithful) :
    AllFaithful (if c then [s] else []) := by
  split
  · exact ⟨h, trivial⟩
  · trivial

theorem faithful_anchorsForwardCode (s : AnchorSet) : AllFaithful (anchorsForwardCode s) := by
  simp only [anchorsForwardCode, allFaithful_append, AllFaithful, Stmt.faithful_code, and_true]
  refine ⟨⟨⟨?_, ?_⟩, ?_⟩, bare_text rfl rfl⟩
  · split
    · exact ⟨faithful_clampCode (bare_text rfl rfl) (bare_text rfl rfl), trivial⟩
    · exact allFaithful_ite (faithful_clampCode (bare_text rfl rfl) (bare_text rfl rfl))
  · exact allFaithful_ite (faithful_rejectCode (bare_text rfl rfl) (bare_text rfl rfl))
  · exact allFaithful_ite (faithful_rejectCode (bare_text rfl rfl) (bare_text rfl rfl))

theorem faithful_anchorsBackwardCode (s : AnchorSet) : AllFaithful (anchorsBackwardCode s) := by
  simp only [anchorsBackwardCode, allFaithful_append, AllFaithful, Stmt.faithful_code, and_true]
  refine ⟨⟨⟨⟨?_, ?_⟩, ?_⟩, ?_⟩, bare_text rfl rfl⟩
  · exact allFaithful_ite (faithful_clampCode (bare_text rfl rfl) (bare_text rfl rfl))
  · exact allFaithful_ite (faithful_rejectCode (bare_text rfl rfl) (bare_text rfl rfl))
  · exact allFaithful_ite (faithful_rejectCode (bare_after (bare_text rfl rfl) rfl rfl) (bare_text rfl rfl))
  · exact allFaithful_ite (faithful_rejectCode (bare_text rfl rfl) (bare_text rfl rfl))

theorem faithful_lineStartCode : lineStartCode.Faithful := by
  simp only [lineStartCode, faithful_ifScope, faithful_plain, faithful_block, AllFaithful, Stmt.faithful_code,
    and_true]
  exact ⟨bare_text rfl rfl, bare_text rfl rfl, bare_text rfl rfl, bare_text rfl rfl,
    faithful_moveTo (bare_text rfl rfl), bare_text rfl rfl⟩

theorem faithful_skipCode (rightToLeft : Bool) : AllFaithful (skipCode rightToLeft) := by
  have hheader : Phrase.Closed [.text "match ", .global .skip,
      .text ".find(&r.text, r.text_beg, r.text_pos, r.text_end)"] :=
    .text_cons (sealed_text rfl rfl) <|
      .global_cons (Phrase.breaks_cons (breaks_text rfl rfl)) (.text_cons (sealed_text rfl rfl) .nil)
  simp only [skipCode, AllFaithful, Faithful, faithful_block, Stmt.faithful_code, and_true]
  exact ⟨⟨hheader.faithful, bare_end⟩,
    ⟨bare_text rfl rfl, faithful_moveTo (bare_text rfl rfl), bare_text rfl rfl⟩,
    bare_text rfl rfl, faithful_moveTo (bare_farEnd rightToLeft), bare_text rfl rfl⟩

/-- A character of the text, lowered if case is ignored. -/
theorem faithful_lowered {text : String} (h : Bare text) (ignoreCase : Bool) : Phrase.Faithful
    (if ignoreCase then [.global .culture, .text (".to_lower(" ++ text ++ ")")] else .plain text) := by
  have hlower : Sealed watched (".to_lower(" ++ text ++ ")") [] := sealed_around h rfl rfl rfl
  have hbreaks : Breaks ".to_lower(" := breaks_text rfl rfl
  split
  · exact (Phrase.Closed.global_cons (Phrase.breaks_cons (Breaks.append (Breaks.append hbreaks _) _))
      (.text_cons hlower .nil)).faithful
  · exact faithful_plain.mpr h

theorem faithful_scanCode (rightToLeft ignoreCase : Bool) {p : Phrase} (h : p.Faithful) :
    AllFaithful (scanCode rightToLeft ignoreCase p) := by
  have hlimit : Bare (if rightToLeft then "i > r.text_beg" else "i < r.text_end") := by
    split <;> exact bare_text rfl rfl
  have hstep : Bare (if rightToLeft then "i -= 1;" else "i += 1;") := by
    split <;> exact bare_text rfl rfl
  have hread : Bare (if rightToLeft then "r.text[i - 1]" else "r.text[i]") := by
    split <;> exact bare_text rfl rfl
  simp only [scanCode, AllFaithful, faithful_declareMut, faithful_whileScope, faithful_declare, faithful_ifScope,
    faithful_plain, Stmt.faithful_code, and_true]
  exact ⟨faithful_letMut (bare_text rfl rfl) (faithful_plain.mpr (bare_text rfl rfl)),
    ⟨hlimit, faithful_let (bare_text rfl rfl) (faithful_lowered hread ignoreCase),
      ⟨h, faithful_moveTo (bare_text rfl rfl), bare_text rfl rfl⟩, hstep⟩,
    faithful_moveTo (bare_farEnd rightToLeft), bare_text rfl rfl⟩

theorem faithful_strategyCode (rightToLeft : Bool) (s : StartStrategy) :
    AllFaithful (strategyCode rightToLeft s) := by
  cases s with
  | anchors s =>
    cases rightToLeft
    · exact faithful_anchorsForwardCode s
    · exact faithful_anchorsBackwardCode s
  | skip l => exact faithful_skipCode rightToLeft
  | firstChar c ignoreCase =>
    have hequal : Sealed watched "ch == " [] := sealed_text rfl rfl
    exact faithful_scanCode _ _ (faithful_plain.mpr (hequal.append (sealed_charLiteral c)).loose)
  | firstClass k ignoreCase =>
    have hcalls : Phrase.Closed [.global .charInClass, .text "(ch, ", .global .firstChars, .text ")"] :=
      .global_cons (Phrase.breaks_cons (breaks_text rfl rfl)) <| .text_cons (sealed_text rfl rfl) <|
        .global_cons (Phrase.breaks_cons (breaks_text rfl rfl)) (.text_cons (sealed_text rfl rfl) .nil)
    exact faithful_scanCode _ _ hcalls.faithful
  | anywhere =>
    simp only [strategyCode, AllFaithful, Stmt.faithful_code, and_true]
    exact bare_text rfl rfl

end Source

theorem Program.faithful_startCode (p : Program) : AllFaithful p.startCode := by
  rw [startCode, allFaithful_append]
  exact ⟨allFaithful_ite faithful_lineStartCode, faithful_strategyCode _ _⟩

end PatternCompiler
