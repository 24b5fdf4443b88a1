import PatternCompiler.Proofs.Assembly

/-! The items that generated source refers to.

Of the items that are declared on demand, the code of an operation refers to the culture, and to the
class that the operation looks up (`Routine.serves_forwardCode`, `Routine.serves_resumeCode`). What the
search for a candidate refers to is what it was chosen for (`Program.provides_startCode`). So all that the
source of an accepted program refers to can be declared: `Code.program_provides`. -/
namespace PatternCompiler

open Source

/-! ### What the code refers to -/

namespace Source

/-- The items that code can refer to which tests characters, against a class if one is given. -/
def Global.Serves (k? : Option Nat) : Global → Prop
  | .culture => True
  | .charInClass => True
  | .classTable k => k ∈ k?
  | _ => False

section

variable {g g' : Global} {p q : Phrase} {ss ts : List Stmt} {text name : String}

namespace Phrase

theorem mentions_nil : mentions [] g = false := rfl

theorem mentions_text_cons : mentions (.text text :: p) g = p.mentions g := by
  simp [mentions]

theorem mentions_global_cons : mentions (.global g' :: p) g = (decide (g = g') || p.mentions g) := by
  simp [mentions]

theorem mentions_append : (p ++ q).mentions g = (p.mentions g || q.mentions g) := by
  simp [mentions]

theorem mentions_plain : (plain text).mentions g = false := by
  simp [mentions, plain]

end Phrase

theorem Stmt.anyMentions_append : anyMentions g (ss ++ ts) = (anyMentions g ss || anyMentions g ts) := by
  induction ss with
  | nil => rfl
  | cons s ss ih => rw [List.cons_append, anyMentions, ih, anyMentions, Bool.or_assoc]

theorem Stmt.anyMentions_ite {c : Prop} [Decidable c] :
    anyMentions g (if c then ss else ts) = if c then anyMentions g ss else anyMentions g ts := by
  split <;> rfl

end

end Source

attribute [local simp] Phrase.mentions_nil Phrase.mentions_text_cons Phrase.mentions_global_cons
  Phrase.mentions_append Phrase.mentions_plain Stmt.mentions Stmt.anyMentions Stmt.anyMentions_append
  Stmt.anyMentions_ite Stmt.code Stmt.declare Stmt.declareMut Stmt.ifScope Stmt.whileScope Stmt.block
  failIf Source.fail Source.stop Source.goto stepCode moveCode tooFew limitCode popSpan pushMarkCode uncaptureTo
  popCounter moveTo

namespace Source

variable {g : Global} {p : Phrase}

theorem mentions_read {o : Operation} {index : String} (h : (read o index).mentions g = true) : g = .culture := by
  rw [read] at h
  split at h <;> simp at h
  exact h

theorem serves_of_inClass {k : Nat} (hp : p.mentions g = true → g = .culture)
    (h : (inClass p k).mentions g = true) : g.Serves (some k) := by
  simp only [inClass, Phrase.mentions_global_cons, Phrase.mentions_text_cons, Phrase.mentions_append,
    Phrase.mentions_nil, List.cons_append, Bool.or_eq_true, decide_eq_true_eq, Bool.false_eq_true, or_false] at h
  rcases h with rfl | h | rfl
  · trivial
  · rw [hp h]
    trivial
  · exact rfl

theorem serves_culture {k? : Option Nat} (h : g = .culture) : g.Serves k? := by
  rw [h]
  trivial

theorem serves_of_compared {relation : String} {c : Char} {k? : Option Nat}
    (hp : p.mentions g = true → g = .culture) (h : (compared p relation c).mentions g = true) : g.Serves k? := by
  simp only [compared, Phrase.mentions_append, Phrase.mentions_text_cons, Phrase.mentions_nil, Bool.or_false] at h
  exact serves_culture (hp h)

theorem serves_of_passes {o : Operation} {index : String} {t : CharTest Nat}
    (h : (passes t (read o index)).mentions g = true) : g.Serves t.class? := by
  cases t with
  | one | notone => exact serves_of_compared mentions_read h
  | set k => exact serves_of_inClass mentions_read h

theorem serves_of_misses {o : Operation} {index : String} {t : CharTest Nat}
    (h : (misses t (read o index)).mentions g = true) : g.Serves t.class? := by
  cases t with
  | one | notone => exact serves_of_compared mentions_read h
  | set k =>
    rw [misses, Phrase.mentions_text_cons] at h
    exact serves_of_inClass mentions_read h

theorem mentions_join {between : String} {ps : List Phrase} (h : (Phrase.join between ps).mentions g = true) :
    ∃ p ∈ ps, p.mentions g = true := by
  induction ps with
  | nil => cases h
  | cons p ps ih =>
    cases ps with
    | nil => exact ⟨p, List.mem_cons_self, h⟩
    | cons q ps =>
      rw [Phrase.join, Phrase.mentions_append, Phrase.mentions_text_cons, Bool.or_eq_true] at h
      · rcases h with h | h
        · exact ⟨p, List.mem_cons_self, h⟩
        · obtain ⟨r, hr, hg⟩ := ih h
          exact ⟨r, List.mem_cons_of_mem _ hr, hg⟩
      · simp

theorem mentions_literalMisses {o : Operation} {n i : Nat} {cs : List Char} (hp : p ∈ literalMisses o n i cs)
    (h : p.mentions g = true) : g = .culture := by
  induction cs generalizing i with
  | nil => cases hp
  | cons c cs ih =>
    rcases List.mem_cons.mp hp with rfl | hp
    · simp only [compared, Phrase.mentions_append, Phrase.mentions_text_cons, Phrase.mentions_nil,
        Bool.or_false] at h
      exact mentions_read h
    · exact ih hp

theorem mentions_multiCode {o : Operation} {cs : List Char} (h : Stmt.anyMentions g (multiCode o cs) = true) :
    g = .culture := by
  by_cases hlength : cs.length ≤ maxUnroll <;> simp [multiCode, hlength] at h
  · obtain ⟨p, hp, hg⟩ := mentions_join h
    rcases List.mem_cons.mp hp with rfl | hp
    · simp at hg
    · exact mentions_literalMisses hp hg
  · exact mentions_read h

theorem mentions_refCode {o : Operation} {ecma : Bool} {slot : Nat}
    (h : Stmt.anyMentions g (refCode o ecma slot) = true) : g = .culture := by
  cases ecma <;> simp [refCode] at h <;> exact h.elim mentions_read mentions_read

end Source

namespace Routine

variable {g : Global}

/-- What an operation does first refers to nothing but the culture and its own class. -/
theorem serves_forwardCode (m : Routine) (o : Operation) (h : Stmt.anyMentions g (m.forwardCode o) = true) :
    g.Serves o.op.class? := by
  cases hop : o.op <;> simp only [forwardCode, hop] at h
  case rep t count =>
    by_cases hcount : count = 0 <;> simp [repCode, hcount] at h
    exact serves_of_misses h
  case span lazy t max =>
    cases lazy
    · simp [greedyCode] at h
      exact serves_of_passes h
    · simp [lazyCode] at h
  case test t =>
    simp [testCode] at h
    exact serves_of_misses h
  case multi i => exact serves_culture (mentions_multiCode h)
  case ref slot => exact serves_culture (mentions_refCode h)
  case branchmark lazy target =>
    cases lazy <;> simp [branchmarkCode, lazyBranchmarkCode] at h
  case branchcount lazy target limit =>
    cases lazy <;> simp [branchcountCode, lazyBranchcountCode] at h
  case capturemark slot uncapture =>
    cases slot <;> cases uncapture <;> simp [capturemarkCode, captureCode] at h
  all_goals simp [setjumpCode, backjumpCode, forejumpCode] at h

/-- The same of what it does when it is resumed. -/
theorem serves_resumeCode (m : Routine) (o : Operation) (second : Bool)
    (h : Stmt.anyMentions g (m.resumeCode o second) = true) : g.Serves o.op.class? := by
  have hreplicate : ∀ n, Stmt.anyMentions g (List.replicate n (.code "r.uncapture();")) = false := by
    intro n
    induction n with
    | zero => rfl
    | succ n ih => simpa [List.replicate_succ] using ih
  cases hop : o.op <;> simp only [resumeCode, hop] at h
  case span lazy t max =>
    cases lazy <;> simp [resumeGreedyCode, resumeLazyCode] at h
    exact serves_of_misses h
  case branchmark lazy target =>
    cases lazy <;> cases second <;> simp [resumeBranchmarkCode, resumeLazyBranchmarkCode, redoMarkCode,
      undoLazyBranchmarkCode] at h
  case branchcount lazy target limit =>
    cases lazy <;> cases second <;> simp [resumeBranchcountCode, resumeLazyBranchcountCode, undoBranchcountCode,
      undoLazyBranchcountCode] at h
  case capturemark slot uncapture =>
    have hnone := hreplicate (slot.isSome.toNat + uncapture.isSome.toNat)
    simp [undoCapturemarkCode] at h hnone
    simp [hnone] at h
  all_goals simp [undoMarkCode, undoMark2Code, redoMarkCode, undoForejumpCode] at h

theorem mentions_operationsCode {m : Routine} {ops : List Operation}
    (h : Stmt.anyMentions g (m.operationsCode ops) = true) : ∃ o ∈ ops, g.Serves o.op.class? := by
  induction ops with
  | nil => cases h
  | cons o ops ih =>
    simp only [operationsCode, List.flatMap_cons, Stmt.anyMentions_append, Bool.or_eq_true, Stmt.anyMentions,
      Stmt.mentions, Bool.false_or] at h
    rcases h with h | h
    · exact ⟨o, List.mem_cons_self, m.serves_forwardCode o h⟩
    · obtain ⟨o', ho', hg⟩ := ih h
      exact ⟨o', List.mem_cons_of_mem _ ho', hg⟩

theorem mentions_armEnd {last : Operation} {next : Option Nat} :
    Stmt.anyMentions g (armEnd last next) = false := by
  cases hterminates : last.op.terminates <;> cases next <;> simp [armEnd, hterminates]

theorem mentions_armsOf {m : Routine} {segs : List (List Operation)}
    (h : Stmt.anyMentions g ((m.armsOf segs).map armCode) = true) : ∃ o ∈ segs.flatten, g.Serves o.op.class? := by
  induction segs with
  | nil => cases h
  | cons seg segs ih =>
    cases seg with
    | nil => exact ih h
    | cons o seg =>
      simp only [armsOf, List.map_cons, armCode, Stmt.anyMentions, Stmt.mentions, Stmt.block,
        Phrase.mentions_plain, Stmt.anyMentions_append, mentions_armEnd, Bool.or_false, Bool.false_or,
        Bool.or_eq_true] at h
      rw [List.flatten_cons]
      rcases h with h | h
      · obtain ⟨o', ho', hg⟩ := mentions_operationsCode h
        exact ⟨o', List.mem_append_left _ ho', hg⟩
      · obtain ⟨o', ho', hg⟩ := ih h
        exact ⟨o', List.mem_append_right _ ho', hg⟩

theorem mentions_casesFrom {m : Routine} {tag : Nat} {rs : List Resumption}
    (h : Stmt.anyMentions g ((m.casesFrom tag rs).map caseCode) = true) :
    ∃ o ∈ m.operations.toList, g.Serves o.op.class? := by
  induction rs generalizing tag with
  | nil => cases h
  | cons r rs ih =>
    simp only [casesFrom, List.map_cons, caseCode, Stmt.anyMentions, Stmt.mentions, Stmt.block,
      Phrase.mentions_plain, Bool.false_or, Bool.or_eq_true] at h
    rcases h with h | h
    · split at h
      · rename_i o ho
        exact ⟨o, Array.mem_toList_iff.mpr (Array.mem_of_getElem? ho), m.serves_resumeCode o _ h⟩
      · cases h
    · exact ih h

/-- The routine refers to nothing but the culture and the classes of its operations. -/
theorem mentions_code {m : Routine} (h : Stmt.anyMentions g m.code = true) :
    ∃ o ∈ m.operations.toList, g.Serves o.op.class? := by
  simp [code, loopCode, dispatchCode] at h
  rcases h with h | h
  · obtain ⟨_, hflatten⟩ := segments_segmented m.program.isLabel m.operations.toList
    obtain ⟨o, ho, hg⟩ := mentions_armsOf h
    exact ⟨o, hflatten ▸ ho, hg⟩
  · exact mentions_casesFrom h

end Routine

namespace Program

/-- The program has what is to be declared under the name of an item. -/
def Provides (p : Program) : Global → Prop
  | .culture => True
  | .charInClass => True
  | .classTable k => k < p.code.classes.size
  | .firstChars => ∃ f, p.code.firstChars = some f ∧ f.single? = none
  | .skip => ∃ l, p.code.lead = some l

variable {p : Program} {g : Global}

theorem provides_of_serves {k? : Option Nat} (hk : ∀ k ∈ k?, k < p.code.classes.size) (h : g.Serves k?) :
    p.Provides g := by
  cases g with
  | culture => trivial
  | charInClass => trivial
  | classTable k => exact hk k h
  | _ => exact h.elim

theorem lead_of_strategy {l : Lead} (h : p.start.strategy = .skip l) : p.code.lead = some l := by
  unfold start startStrategy at h
  grind

theorem firstChars_of_strategy {k : CharClass} {ignoreCase : Bool}
    (h : p.start.strategy = .firstClass k ignoreCase) : ∃ f, p.code.firstChars = some f ∧ f.single? = none := by
  unfold start startStrategy at h
  grind

theorem mentions_anchorsForwardCode (s : AnchorSet) : Stmt.anyMentions g (anchorsForwardCode s) = false := by
  simp [anchorsForwardCode, clampCode, rejectCode]

theorem mentions_anchorsBackwardCode (s : AnchorSet) : Stmt.anyMentions g (anchorsBackwardCode s) = false := by
  simp [anchorsBackwardCode, clampCode, rejectCode]

theorem mentions_scanCode {rightToLeft ignoreCase : Bool} {condition : Phrase}
    (h : Stmt.anyMentions g (scanCode rightToLeft ignoreCase condition) = true) :
    g = .culture ∨ condition.mentions g = true := by
  cases ignoreCase <;> simp [scanCode] at h
  · exact .inr h
  · exact h

theorem mentions_strategyCode {rightToLeft : Bool} {s : StartStrategy}
    (h : Stmt.anyMentions g (strategyCode rightToLeft s) = true) :
    g = .culture ∨ g = .charInClass ∨ (g = .firstChars ∧ ∃ k i, s = .firstClass k i) ∨
      g = .skip ∧ ∃ l, s = .skip l := by
  cases s with
  | anchors s =>
    cases rightToLeft
    · exact absurd h (Bool.eq_false_iff.mp (mentions_anchorsForwardCode s))
    · exact absurd h (Bool.eq_false_iff.mp (mentions_anchorsBackwardCode s))
  | skip l =>
    simp [strategyCode, skipCode] at h
    exact .inr (.inr (.inr ⟨h, l, rfl⟩))
  | firstChar c ignoreCase =>
    refine .inl ((mentions_scanCode h).resolve_right ?_)
    simp
  | firstClass k ignoreCase =>
    rcases mentions_scanCode h with h | h
    · exact .inl h
    · simp at h
      rcases h with h | h
      · exact .inr (.inl h)
      · exact .inr (.inr (.inl ⟨h, k, ignoreCase, rfl⟩))
  | anywhere => simp [strategyCode] at h

theorem mentions_lineStartCode {c : Prop} [Decidable c] :
    Stmt.anyMentions g (if c then [lineStartCode] else []) = false := by
  simp [lineStartCode]

theorem provides_startCode (h : Stmt.anyMentions g p.startCode = true) : p.Provides g := by
  simp only [startCode, Stmt.anyMentions_append, mentions_lineStartCode, Bool.false_or] at h
  rcases mentions_strategyCode h with rfl | rfl | ⟨rfl, k, i, hs⟩ | ⟨rfl, l, hs⟩
  · trivial
  · trivial
  · exact firstChars_of_strategy hs
  · exact ⟨l, lead_of_strategy hs⟩

/-- The code of the search and of the routine. -/
def body (p : Program) : List Stmt := p.startCode ++ (Routine.ofProgram p).code

end Program

/-- An accepted program has all that its code refers to. -/
theorem Code.program_provides {c : Code} {p : Program} {g : Global} (h : c.program = .ok p)
    (hg : Stmt.anyMentions g p.body = true) : p.Provides g := by
  rw [Program.body, Stmt.anyMentions_append, Bool.or_eq_true] at hg
  rcases hg with hg | hg
  · exact Program.provides_startCode hg
  · obtain ⟨o, ho, hserves⟩ := Routine.mentions_code hg
    exact Program.provides_of_serves (program_inRange h o ho).2 hserves

end PatternCompiler
