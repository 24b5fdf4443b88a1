import PatternCompiler.Proofs.Counts
import PatternCompiler.Proofs.InBounds
import PatternCompiler.Proofs.TidyReading

/-! Both passes over a pattern come to its end.

Every round of the survey and every round of the reader leaves the cursor further on
than it was (`Survey.construct_keeps`, `Reader.step_keeps`), on the same text. So the
rounds that a pass is given, one for each character, are always enough. For the reader
this rests on the fact that between two rounds nothing is left that may still be
quantified: a round that stays before a quantifier has put a literal character there
itself. -/
namespace PatternCompiler

open Cursor (Ahead Beyond Keeps)

namespace Cursor

variable {c c' : Cursor}

/-- The cursor is at a place of the text, or at its end. -/
def On (text : List Char) (c : Cursor) : Prop := c.pos ≤ text.length ∧ c.rest = text.drop c.pos

theorem On.ahead {text : List Char} (hc : c.On text) (h : Ahead c c') : c'.On text := by
  obtain ⟨run, _, hrest, hpos⟩ := h
  obtain ⟨hle, hdrop⟩ := hc
  have hlength := congrArg List.length hrest
  rw [hdrop, List.length_drop, List.length_append] at hlength
  refine ⟨by omega, ?_⟩
  rw [hpos, ← List.drop_drop, ← hdrop, hrest, List.drop_left]

theorem on_start (text : List Char) : On text ⟨0, text⟩ := ⟨Nat.zero_le _, rfl⟩

theorem Ahead.eq_of_le (h : Ahead c c') (hle : c'.pos ≤ c.pos) : c' = c := by
  obtain ⟨run, _, hrest, hpos⟩ := h
  have hrun : run = [] := List.length_eq_zero_iff.mp (by omega)
  rw [hrun] at hrest hpos
  exact congrArg₂ Cursor.mk hpos hrest.symm

/-- The end of the text is further on than any character. -/
theorem Ahead.beyond_of_nil (h : Ahead c c') (hc : c.rest ≠ []) (hc' : c'.rest = []) : Beyond c c' := by
  have hstop := h.stop_eq
  have hlength := List.length_pos_iff.mpr hc
  rw [stop, stop, hc', List.length_nil] at hstop
  exact ⟨h, by omega⟩

end Cursor

/-! ### The reader -/

namespace Cursor

variable {c c' : Cursor} {ch : Char} {rest : List Char}

/-- Past blanks there is a literal character or a special one. -/
theorem literalRun_ne_nil {o : Options} (h : c.skipBlanks o = .ok c') (hc' : c'.rest = ch :: rest)
    (hch : isSpecial ch = false) : (c'.literalRun o).1 ≠ [] := by
  have hblank := (Reader.skipBlanksFrom_ends h hc').1
  have hends : endsRun o.ignoreWhitespace ch rest = false := by
    rw [endsRun, hch, hblank]
    rfl
  rw [literalRun, hc', literalRunFrom, hends]
  exact List.cons_ne_nil _ _

theorem literalRun_pos (c : Cursor) (o : Options) :
    (c.literalRun o).2.pos = c.pos + (c.literalRun o).1.length := rfl

end Cursor

namespace Reader

variable {r r' : Reader} {e : Setting}

theorem addRun_cursor (e : Setting) (r : Reader) (run : List Char) : (r.addRun e run).cursor = r.cursor := by
  unfold addRun
  split <;> rfl

theorem restore_cursor (r : Reader) : r.restore.cursor = r.cursor := by
  unfold restore
  split <;> rfl

theorem quantifier_keeps (r : Reader) : Keeps r.cursor (fun r' => Ahead r.cursor r'.cursor) r.quantifier := by
  refine (Cursor.skipBlanks_keeps r.cursor r.options).bind fun c h => ?_
  split
  · refine (h.keeps (Cursor.bounds?_keeps c)).bind fun found hfound => ?_
    split
    · exact h
    · rename_i min max c₁
      have h₁ : Ahead r.cursor c₁ := h.trans (hfound _ rfl)
      refine (h₁.keeps (Cursor.skipBlanks_keeps c₁ r.options)).bind fun c₂ h' => ?_
      have h₂ : Ahead r.cursor (c₂.skipChar '?') := (h₁.trans h').trans (Cursor.skipChar_ahead c₂ '?')
      dsimp only
      split
      · exact h₂.fail _
      · exact h₂
  · exact h

theorem openGroup_keeps (r : Reader) : Keeps r.cursor (fun r' => Ahead r.cursor r'.cursor) (r.openGroup e) := by
  refine (Cursor.opening?_keeps e.table r.options r.cursor).bind fun opening h => ?_
  split
  · show Ahead r.cursor r.unmarked.cursor
    rw [unmarked_cursor]
    exact .refl _
  · dsimp only
    split
    · exact h _ rfl
    · exact h _ rfl

theorem closeGroup_keeps (r : Reader) : Keeps r.cursor (fun r' => r'.cursor = r.cursor) r.closeGroup := by
  unfold closeGroup
  split
  · exact (Ahead.refl _).fail _
  split
  · exact (Ahead.refl _).fail _
  dsimp only
  split
  · exact restore_cursor _
  · exact restore_cursor _

/-- A construct takes its special character at least, unless that is a quantifier which is left to be
read with the part before it. -/
theorem special_keeps {c : Cursor} {ch : Char} {rest : List Char} (hc : c.rest = ch :: rest)
    (hr : r.cursor = ⟨c.pos + 1, rest⟩) (nested : Bool) :
    Keeps c (fun r' => Ahead c r'.cursor ∧ (r.unit = none → Beyond c r'.cursor)) (r.special e ch nested) := by
  have hone : Ahead c r.cursor := hr ▸ .one hc
  have htaken {c' : Cursor} (h : Ahead r.cursor c') : Ahead c c' ∧ (r.unit = none → Beyond c c') :=
    ⟨hone.trans h, fun _ => .of_one hc (hr ▸ h)⟩
  have hquantifier (q : Reader) (h : Ahead r.cursor q.cursor) :
      Keeps c (fun r' => Ahead c r'.cursor ∧ (r.unit = none → Beyond c r'.cursor)) q.quantifier :=
    (hone.trans h).keeps ((quantifier_keeps q).imp fun _ h' => htaken (h.trans h'))
  unfold special
  split
  · exact (hone.keeps (Cursor.bracket_keeps ..)).bind fun a ha => hquantifier _ ha
  · exact hone.keeps ((openGroup_keeps r).imp fun _ h => htaken h)
  · exact htaken (.refl _)
  · refine (hone.keeps (closeGroup_keeps r)).bind fun r₁ h => ?_
    have h₁ : Ahead r.cursor r₁.cursor := h ▸ .refl _
    split
    · exact hquantifier r₁ h₁
    · exact htaken h₁
  · exact (hone.keeps (Cursor.backslash_keeps ..)).bind fun a ha => hquantifier _ ha
  · exact hquantifier _ (.refl _)
  · exact hquantifier _ (.refl _)
  · exact hquantifier _ (.refl _)
  · split
    · rename_i hunit
      have hback : (⟨r.cursor.pos - 1, ch :: r.cursor.rest⟩ : Cursor) = c := by
        rw [hr, ← hc]
        rfl
      rw [hback]
      refine (quantifier_keeps { r with cursor := c }).imp fun _ h => ⟨h, fun hnone => ?_⟩
      rw [hnone] at hunit
      cases hunit
    · split <;> exact hone.fail _

theorem addRunQuantified_unit (e : Setting) (r : Reader) {run : List Char} (h : run = []) :
    (r.addRunQuantified e run).unit = r.unit := by
  rw [h]
  rfl

/-- **Every round of the reader takes a character at least.** -/
theorem step_keeps (hunit : r.unit = none) (hrest : r.cursor.rest ≠ []) :
    Keeps r.cursor (fun r' => Beyond r.cursor r'.cursor) (r.step e) := by
  have hblanks := Cursor.skipBlanks_keeps r.cursor r.options
  cases hc₁ : r.cursor.skipBlanks r.options with
  | error problem =>
    rw [step, hc₁]
    exact hblanks.of_error hc₁
  | ok c₁ =>
    have h₁ : Ahead r.cursor c₁ := hblanks.of_ok hc₁
    have h₂ : Ahead r.cursor (c₁.literalRun r.options).2 := h₁.trans (Cursor.literalRun_ahead c₁ r.options)
    have hrun : (c₁.literalRun r.options).1 ≠ [] → Beyond r.cursor (c₁.literalRun r.options).2 := by
      intro hne
      have hlength := List.length_pos_iff.mpr hne
      have hle := h₁.le
      exact ⟨h₂, by rw [Cursor.literalRun_pos]; omega⟩
    rw [step, hc₁]
    refine (h₂.keeps (Cursor.skipBlanks_keeps _ r.options)).bind fun c₃ h => ?_
    have h₃ : Ahead r.cursor c₃ := h₂.trans h
    split
    · rename_i hnil
      show Beyond r.cursor (addRun ..).cursor
      rw [addRun_cursor]
      exact h₃.beyond_of_nil hrest hnil
    rename_i ch rest hch
    by_cases hleft : Beyond r.cursor c₃
    · split
      · exact h₃.keeps ((special_keeps hch rfl _).imp fun r' h' => hleft.trans h'.1)
      · show Beyond r.cursor (addRun ..).cursor
        rw [addRun_cursor]
        exact hleft
    -- Nothing was taken so far, neither blanks nor literal characters.
    have hnil : (c₁.literalRun r.options).1 = [] := by
      by_contra hne
      exact hleft ((hrun hne).trans h)
    have hstay : c₃ = c₁ := by
      refine ((Cursor.literalRun_ahead c₁ r.options).trans h).eq_of_le ?_
      exact Nat.le_trans (Nat.le_of_not_lt fun hlt => hleft ⟨h₃, hlt⟩) h₁.le
    have hspecial : Cursor.isSpecial ch = true := by
      by_contra hspecial
      exact Cursor.literalRun_ne_nil hc₁ (hstay ▸ hch) (Bool.not_eq_true _ ▸ hspecial) hnil
    rw [if_pos hspecial]
    refine h₃.keeps ((special_keeps hch rfl _).imp fun r' h' => h₃.trans_beyond (h'.2 ?_))
    split
    · exact (addRunQuantified_unit e _ hnil).trans hunit
    · exact (addRun_unit e _ _).trans hunit

theorem run_keeps (rounds : Nat) (hr : r.Neat) (hunit : r.unit = none) :
    Keeps r.cursor (fun r' => Ahead r.cursor r'.cursor ∧ (r.cursor.rest.length ≤ rounds → r'.cursor.rest = []))
      (run e rounds r) := by
  induction rounds generalizing r with
  | zero => exact ⟨.refl _, fun h => List.length_eq_zero_iff.mp (Nat.le_zero.mp h)⟩
  | succ rounds ih =>
    rw [run]
    split
    · exact ⟨.refl _, fun _ => ‹_›⟩
    · rename_i ch rest hrest
      have hstep := step_keeps (e := e) hunit (by rw [hrest]; exact List.cons_ne_nil ch rest)
      cases h₁ : r.step e with
      | error problem => exact hstep.of_error h₁
      | ok r₁ =>
        have h : Beyond r.cursor r₁.cursor := hstep.of_ok h₁
        obtain ⟨hr₁, hunit₁⟩ := (kept_neat e).step hr hunit h₁
        refine h.ahead.keeps ((ih hr₁ hunit₁).imp fun r' h' => ?_)
        have hlt := h.length_lt
        exact ⟨h.ahead.trans h'.1, fun hle => h'.2 (by omega)⟩

/-- Once all groups are closed there is a tree. -/
theorem finish_ok (hr : r.Neat) (houter : r.outer = []) : ∃ root, r.finish = .ok root := by
  have hwithin := hr.within
  rw [houter] at hwithin
  have hlimit : (r.frame.endBranch r.options).limit? = none := by
    rw [Frame.limit?, show (r.frame.endBranch r.options).kind = r.frame.kind from rfl, hwithin.whole]
  refine ⟨(r.frame.endBranch r.options).node, ?_⟩
  simp only [finish, houter, Frame.close?, hlimit]

theorem finish_keeps (r : Reader) : Keeps r.cursor (fun _ => True) r.finish := by
  unfold finish
  split
  · exact (Ahead.refl _).fail _
  split
  · exact (Ahead.refl _).fail _
  · trivial

end Reader

/-! ### Special characters and counts -/

namespace Cursor

variable {c c' : Cursor}

/-- What begins like a count is one, unless it is too great. -/
theorem count?_ne_none (h : startsCount c.rest = true) : c.count? ≠ .ok none := by
  obtain ⟨min, max, rest, hrest⟩ := exists_of_startsCount h
  rcases count?_cases hrest with ⟨_, offset, hcount⟩ | ⟨_, hcount⟩
  · rw [hcount]
    rintro ⟨⟩
  · rw [hcount]
    rintro ⟨⟩

/-- What begins with a quantifier has bounds, unless they are too great. -/
theorem bounds?_ne_none (h : startsQuantifier c.rest = true) : c.bounds? ≠ .ok none := by
  unfold startsQuantifier at h
  split at h
  · cases h
  · rename_i rest hrest
    rw [bounds?, hrest]
    exact count?_ne_none h
  · rename_i ch rest hbrace hrest
    simp only [isQuantifier, Bool.or_eq_true, beq_iff_eq] at h
    rw [bounds?, hrest]
    rcases h with ((h | rfl) | rfl) | rfl
    · exact absurd h hbrace
    · rintro ⟨⟩
    · rintro ⟨⟩
    · rintro ⟨⟩

/-- The special characters are those that the reader knows. -/
theorem isSpecial_cases {ch : Char} (h : isSpecial ch = true) :
    ch ∈ ['[', '(', '|', ')', '\\', '^', '$', '.'] ∨ isQuantifier ch = true := by
  simp only [isSpecial, Bool.or_eq_true, beq_iff_eq] at h
  simp only [List.mem_cons, List.not_mem_nil, or_false]
  tauto

/-- The readings that a round is made of stay on the text, and so do the problems that they find. -/
structure KeepsOn (text : List Char) (c : Cursor) : Prop where
  blanks : ∀ o, Keeps c (On text) (c.skipBlanks o)
  skipped : Keeps c (On text) c.skipBracket
  bracket : ∀ m, Keeps c (fun a => a.2.On text) (c.bracket m)
  escape : ∀ e o, Keeps c (fun a => a.2.On text) (c.backslash e o)
  opening : ∀ t o, Keeps c (fun a => ∀ p ∈ a, p.cursor.On text) (c.opening? t o)
  bounds : Keeps c (fun a => ∀ p ∈ a, p.2.2.On text) c.bounds?

theorem On.keepsOn {text : List Char} (hc : c.On text) : c.KeepsOn text where
  blanks o := (skipBlanks_keeps c o).imp fun _ h => hc.ahead h
  skipped := (skipBracket_keeps c).imp fun _ h => hc.ahead h
  bracket m := (bracket_keeps m c).imp fun _ h => hc.ahead h
  escape e o := (backslash_keeps e o c).imp fun _ h => hc.ahead h
  opening t o := (opening?_keeps t o c).imp fun _ h p hp => hc.ahead (h p hp)
  bounds := (bounds?_keeps c).imp fun _ h p hp => hc.ahead (h p hp)

end Cursor

/-! ### Whole patterns -/

/-- The survey is on the text, and its next round ends further on. -/
structure Survey.OnTrack (text : List Char) (s : Survey) : Prop where
  on : s.cursor.On text
  advances : ∀ ch rest s', s.cursor.rest = ch :: rest →
    s.construct ch ⟨s.cursor.pos + 1, rest⟩ = .ok s' → s.cursor.pos < s'.cursor.pos

/-- The reader is on the text, and its next round ends further on. There are options to return to for
every group that is still open, and without such a group there is a tree. -/
structure Reader.OnTrack (text : List Char) (e : Setting) (r : Reader) : Prop where
  on : r.cursor.On text
  advances : ∀ r', r.cursor.rest ≠ [] → r.step e = .ok r' → r.cursor.pos < r'.cursor.pos
  unit : r.unit = none
  saved : r.saved.length = r.outer.length
  finishes : r.outer = [] → ∃ root, r.finish = .ok root

namespace Pattern

theorem survey_onTrack {text : List Char} {o : Options} {rounds : Nat} {s : Survey}
    (h : Survey.run rounds (Survey.start text o) = .ok s) :
    s.OnTrack text ∧ (text.length ≤ rounds → s.cursor.rest = []) := by
  obtain ⟨hahead, hend⟩ := (Survey.run_keeps rounds (Survey.start text o)).of_ok h
  refine ⟨⟨(Cursor.on_start text).ahead hahead, fun ch rest s' hrest h => ?_⟩, hend⟩
  exact ((Survey.construct_keeps hrest).of_ok h).lt

theorem reader_onTrack {text : List Char} {o : Options} {e : Setting} {rounds : Nat} {r : Reader}
    (h : Reader.run e rounds (Reader.start text o) = .ok r) :
    r.OnTrack text e ∧ (text.length ≤ rounds → r.cursor.rest = []) := by
  have hstart := Reader.start_neat text o
  obtain ⟨hneat, hunit⟩ := Reader.run_neat hstart rfl h
  obtain ⟨hahead, hend⟩ := (Reader.run_keeps (e := e) rounds hstart rfl).of_ok h
  refine ⟨⟨(Cursor.on_start text).ahead hahead, fun r' hrest h => ?_, hunit, hneat.within.length_eq,
    Reader.finish_ok hneat⟩, hend⟩
  exact ((Reader.step_keeps hunit hrest).of_ok h).lt

theorem read_keeps (text : List Char) (o : Options) (culture : Culture) :
    Keeps ⟨0, text⟩ (fun _ => True) (read text o culture) := by
  have hsurvey : Keeps ⟨0, text⟩ (fun _ => True) (GroupTable.ofPattern text o) :=
    (Survey.run_keeps text.length (Survey.start text o)).bind fun _ _ => trivial
  refine hsurvey.bind fun table _ => ?_
  refine (Reader.run_keeps text.length (Reader.start_neat text o) rfl).bind fun r h => ?_
  exact (h.1.keeps (Reader.finish_keeps r)).bind fun _ _ => trivial

end Pattern

end PatternCompiler
