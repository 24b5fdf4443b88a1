import Mathlib
import PatternCompiler.Search.Script

/-! The scan loop.

One round of the loop tries the next candidate, and ends the search or moves on by one
character (`scanFrom_found`, `scanFrom_stop`, `scanFrom_following`). Every round but the last
comes closer to the end of the text, so the loop ends.

A matcher `Finds` if it skips only positions where an attempt fails. Then the loop agrees with an
attempt at every position, one after the other (`scan_first`). -/
namespace PatternCompiler

namespace Runner

/-- A position that a match may touch. -/
def Within (r : Runner) (p : Nat) : Prop := r.beg ≤ p ∧ p ≤ r.finish

/-- The state in which an attempt at a position begins: all else that a search has changed by then is
forgotten. -/
def startingAt (r : Runner) (p : Nat) : Runner := { r.reset with pos := p }

end Runner

namespace Matcher

variable {m : Matcher} {r s t : Runner} {p q k stop rounds : Nat}

/-! ### Directions -/

/-- The second position is at or beyond the first one, in the direction of the search. -/
def Reaches (m : Matcher) (p q : Nat) : Prop := if m.rightToLeft then q ≤ p else p ≤ q

/-- The last position of a search. -/
def last (m : Matcher) (r : Runner) : Nat := if m.rightToLeft then r.beg else r.finish

/-- The number of positions beyond one. -/
def ahead (m : Matcher) (r : Runner) (p : Nat) : Nat := if m.rightToLeft then p - r.beg else r.finish - p

/-- The position after one. -/
def following (m : Matcher) (p : Nat) : Nat := if m.rightToLeft then p - 1 else p + 1

theorem Reaches.refl (m : Matcher) (p : Nat) : m.Reaches p p := by
  unfold Reaches
  split <;> exact Nat.le_refl p

theorem Reaches.trans (h : m.Reaches p q) (h' : m.Reaches q k) : m.Reaches p k := by
  unfold Reaches at *
  split at h <;> simp_all <;> omega

theorem Reaches.total (m : Matcher) (p q : Nat) : m.Reaches p q ∨ m.Reaches q p := by
  unfold Reaches
  split <;> omega

theorem Reaches.antisymm (h : m.Reaches p q) (h' : m.Reaches q p) : p = q := by
  unfold Reaches at *
  split at h <;> simp_all <;> omega

/-- What lies between two positions that a match may touch may be touched as well. -/
theorem Reaches.within (h : m.Reaches p q) (hp : r.Within p) (hq : m.Reaches q (m.last r)) : r.Within q := by
  unfold Reaches last Runner.Within at *
  split at h <;> simp_all <;> omega

theorem ahead_le (h : m.Reaches p q) : m.ahead r q ≤ m.ahead r p := by
  unfold Reaches ahead at *
  split at h <;> simp_all <;> omega

theorem within_following (hp : r.Within p) (hne : p ≠ m.last r) :
    r.Within (m.following p) ∧ m.ahead r (m.following p) + 1 = m.ahead r p := by
  unfold Runner.Within following last ahead at *
  split at hne <;> simp_all <;> omega

/-- Beyond a position are the position after it and what is beyond that one. -/
theorem reaches_following (hp : r.Within p) (hne : p ≠ m.last r) :
    m.Reaches (m.following p) q ↔ m.Reaches p q ∧ q ≠ p := by
  unfold Runner.Within following last Reaches at *
  split at hne <;> simp_all <;> omega

/-- As long as the end is not reached, there is a position to move on to. -/
theorem bump_ok (hp : r.Within s.pos) (hne : s.pos ≠ m.last r) (hsize : r.finish < Word.modulus) :
    s.bump m.rightToLeft = .ok { s with pos := m.following s.pos } := by
  unfold Runner.Within last at *
  unfold Runner.bump following
  cases hright : m.rightToLeft with
  | true =>
    rw [hright, if_pos rfl] at hne
    rw [if_pos rfl, if_neg (by omega), if_pos rfl]
  | false =>
    rw [hright, if_neg Bool.false_ne_true] at hne
    rw [if_neg Bool.false_ne_true, if_neg Bool.false_ne_true, Word.after_of_lt (by omega)]
    rfl

/-! ### Rounds -/

theorem tryNext_attempt (hfind : m.findStart s = .ok (true, t)) {u : Runner} (hattempt : m.attempt t.reset = .ok u) :
    m.tryNext s = .ok (decide (0 < u.captures.count 0), u) := by
  simp [tryNext, hfind, hattempt, bind, Except.bind]

theorem tryNext_none (hfind : m.findStart s = .ok (false, t)) : m.tryNext s = .ok (false, t) := by
  simp [tryNext, hfind, bind, Except.bind]

theorem scanFrom_found (h : m.tryNext s = .ok (true, t)) :
    m.scanFrom stop (rounds + 1) s = (fun x => (some x, t)) <$> m.matchOf t := by
  simp only [scanFrom, h, bind, Except.bind, if_true]
  cases m.matchOf t <;> rfl

theorem scanFrom_stop (h : m.tryNext s = .ok (false, t)) (hstop : t.pos = stop) :
    m.scanFrom stop (rounds + 1) s = .ok (none, t) := by
  simp [scanFrom, h, hstop, bind, Except.bind]

theorem scanFrom_following (h : m.tryNext s = .ok (false, t)) (ht : r.Within t.pos)
    (hne : t.pos ≠ m.last r) (hsize : r.finish < Word.modulus) :
    m.scanFrom (m.last r) (rounds + 1) s =
      m.scanFrom (m.last r) rounds { t with pos := m.following t.pos } := by
  simp [scanFrom, h, hne, bump_ok ht hne hsize, bind, Except.bind]

/-- A search from a position, or after an empty match from the following one. -/
theorem scan_eq (hp : r.Within p) (hsize : r.finish < Word.modulus) (afterEmpty : Bool) :
    (m.scan rounds r p afterEmpty =
        m.scanFrom (m.last r) rounds { r with start := p, pos := p } ∧ afterEmpty = false) ∨
      (m.scan rounds r p afterEmpty = .ok (none, { r with start := p, pos := p }) ∧ afterEmpty = true ∧
        p = m.last r) ∨
      (m.scan rounds r p afterEmpty =
          m.scanFrom (m.last r) rounds { r with start := p, pos := m.following p } ∧ afterEmpty = true ∧
        p ≠ m.last r) := by
  have hbump : p ≠ m.last r → ({ r with start := p, pos := p } : Runner).bump m.rightToLeft =
      .ok { r with start := p, pos := m.following p } := by
    intro hne
    exact bump_ok (s := { r with start := p, pos := p }) hp hne hsize
  cases afterEmpty with
  | false => exact .inl ⟨rfl, rfl⟩
  | true =>
    by_cases hstop : p = m.last r
    · refine .inr (.inl ⟨?_, rfl, hstop⟩)
      simp only [scan, if_true]
      exact if_pos hstop
    · refine .inr (.inr ⟨?_, rfl, hstop⟩)
      simp only [scan, if_true, hbump hstop, bind, Except.bind]
      exact if_neg hstop

/-! ### The first match -/

/-- An attempt at the position ends without a match, and changes nothing that another one depends on. -/
def FailsAt (m : Matcher) (r : Runner) (p : Nat) : Prop :=
  ∃ t, m.attempt (r.startingAt p) = .ok t ∧ t.captures.count 0 = 0 ∧ t.reset = r.startingAt p

/-- An attempt at the position ends with a match. -/
def SucceedsAt (m : Matcher) (r : Runner) (p : Nat) (t : Runner) : Prop :=
  m.attempt (r.startingAt p) = .ok t ∧ 0 < t.captures.count 0

/-- The matcher attempts at every position what it may, and skips none where that is a match. The
runner says in which text, with which bounds and from where. -/
structure Finds (m : Matcher) (r : Runner) : Prop where
  attempt : ∀ p, r.Within p → m.FailsAt r p ∨ ∃ t, m.SucceedsAt r p t
  findStart : ∀ s : Runner, s.reset = r.startingAt s.pos → r.Within s.pos →
    (∃ q, m.findStart s = .ok (true, { s with pos := q }) ∧ m.Reaches s.pos q ∧ m.Reaches q (m.last r) ∧
      ∀ k, m.Reaches s.pos k → m.Reaches k q → k ≠ q → m.FailsAt r k) ∨
    (m.findStart s = .ok (false, { s with pos := m.last r }) ∧
      ∀ k, m.Reaches s.pos k → m.Reaches k (m.last r) → m.FailsAt r k)

/-- The positions that a search from `start` goes over. -/
def Covers (m : Matcher) (r : Runner) (start : Nat) (afterEmpty : Bool) (p : Nat) : Prop :=
  m.Reaches start p ∧ m.Reaches p (m.last r) ∧ (afterEmpty = true → p ≠ start)

/-- The first of the positions at which an attempt ends with a match. -/
structure FirstAt (m : Matcher) (r : Runner) (start : Nat) (afterEmpty : Bool) (p : Nat) (t : Runner) :
    Prop where
  covered : m.Covers r start afterEmpty p
  succeeds : m.SucceedsAt r p t
  earlier : ∀ k, m.Covers r start afterEmpty k → m.Reaches k p → k ≠ p → m.FailsAt r k

theorem FailsAt.not_succeeds (h : m.FailsAt r p) : ¬ m.SucceedsAt r p t := by
  rintro ⟨ht, hcount⟩
  obtain ⟨t', ht', hcount', _⟩ := h
  obtain rfl := Except.ok.inj (ht.symm.trans ht')
  omega

theorem startingAt_of_reset (h : s.reset = r.startingAt s.pos) (q : Nat) :
    ({ s with pos := q } : Runner).reset = r.startingAt q :=
  congrArg (fun u : Runner => { u with pos := q }) h

/-- After an empty match at the last position there is none to go over. -/
theorem not_covers_last : ¬ m.Covers r (m.last r) true p := by
  rintro ⟨hlast, hp, hne⟩
  exact hne rfl (hp.antisymm hlast)

/-- What a search comes to. -/
def Ends (m : Matcher) (r : Runner) (start : Nat) (afterEmpty : Bool)
    (x : Except Fault (Option Match × Runner)) : Prop :=
  (∃ t, x = .ok (none, t) ∧ ∀ k, m.Covers r start afterEmpty k → m.FailsAt r k) ∨
    ∃ p t, m.FirstAt r start afterEmpty p t ∧ x = (fun y => (some y, t)) <$> m.matchOf t

/-- A position at which an attempt fails need not be gone over. -/
theorem Ends.of_following {x : Except Fault (Option Match × Runner)} (hp : r.Within p)
    (hne : p ≠ m.last r) (h : m.Ends r (m.following p) false x) : m.Ends r p true x := by
  have hcovers : ∀ k, m.Covers r p true k ↔ m.Covers r (m.following p) false k := by
    intro k
    simp only [Covers, reaches_following hp hne]
    tauto
  rcases h with ⟨t, hx, hfails⟩ | ⟨q, t, hfirst, hx⟩
  · exact .inl ⟨t, hx, fun k hk => hfails k ((hcovers k).mp hk)⟩
  · exact .inr ⟨q, t, ⟨(hcovers q).mpr hfirst.covered, hfirst.succeeds,
      fun k hk => hfirst.earlier k ((hcovers k).mp hk)⟩, hx⟩

/-- Nor need positions before one, if an attempt fails at all of them. -/
theorem Ends.of_skipped {x : Except Fault (Option Match × Runner)} (afterEmpty : Bool)
    (hpq : m.Reaches p q) (hskipped : ∀ k, m.Reaches p k → m.Reaches k q → k ≠ q → m.FailsAt r k)
    (hq : afterEmpty = true → m.FailsAt r q) (h : m.Ends r q afterEmpty x) : m.Ends r p false x := by
  -- A position that is covered from `p` is skipped, or `q` itself, or covered from `q`.
  have hcases : ∀ k, m.Covers r p false k → m.FailsAt r k ∨ m.Covers r q afterEmpty k := by
    intro k hk
    by_cases hkq : m.Reaches k q ∧ k ≠ q
    · exact .inl (hskipped k hk.1 hkq.1 hkq.2)
    · have hqk : m.Reaches q k := by
        rcases Reaches.total m q k with hqk | hqk
        · exact hqk
        · by_cases heq : k = q
          · exact heq ▸ Reaches.refl m q
          · exact absurd ⟨hqk, heq⟩ hkq
      by_cases heq : k = q ∧ afterEmpty = true
      · exact .inl (heq.1 ▸ hq heq.2)
      · exact .inr ⟨hqk, hk.2.1, fun hafter hk => heq ⟨hk, hafter⟩⟩
  rcases h with ⟨t, hx, hfails⟩ | ⟨k, t, hfirst, hx⟩
  · exact .inl ⟨t, hx, fun k hk => (hcases k hk).elim id (hfails k)⟩
  · refine .inr ⟨k, t, ⟨⟨hpq.trans hfirst.covered.1, hfirst.covered.2.1, by simp⟩, hfirst.succeeds, ?_⟩, hx⟩
    intro j hj hjk hne
    exact (hcases j hj).elim id fun hj => hfirst.earlier j hj hjk hne

/-- The loop ends at the first match, or at the last position if there is none. -/
theorem scanFrom_ends (hm : m.Finds r) (hsize : r.finish < Word.modulus) (hs : s.reset = r.startingAt s.pos)
    (hpos : r.Within s.pos) (hrounds : m.ahead r s.pos < rounds) :
    m.Ends r s.pos false (m.scanFrom (m.last r) rounds s) := by
  induction rounds generalizing s with
  | zero => omega
  | succ rounds ih =>
    rcases hm.findStart s hs hpos with ⟨q, hfind, hsq, hlast, hskipped⟩ | ⟨hfind, hfails⟩
    · have hq : r.Within q := hsq.within hpos hlast
      have hstart := startingAt_of_reset hs q
      rcases hm.attempt q hq with hfail | ⟨t, hsucceeds⟩
      · obtain ⟨t, hattempt, hcount, ht⟩ := id hfail
        have htry := tryNext_attempt hfind (hstart ▸ hattempt)
        have htpos : t.pos = q := congrArg Runner.pos ht
        rw [hcount] at htry
        by_cases hstop : q = m.last r
        · have hend : m.scanFrom (m.last r) (rounds + 1) s = .ok (none, t) :=
            scanFrom_stop htry (htpos.trans hstop)
          refine Ends.of_skipped true hsq hskipped (fun _ => hfail) (.inl ⟨t, hend, fun k hk => ?_⟩)
          exact absurd (hstop ▸ hk) not_covers_last
        · have hnext : m.scanFrom (m.last r) (rounds + 1) s =
              m.scanFrom (m.last r) rounds { t with pos := m.following t.pos } :=
            scanFrom_following htry (htpos ▸ hq) (htpos ▸ hstop) hsize
          obtain ⟨hwithin, hahead⟩ := within_following hq hstop
          have hle := ahead_le (r := r) hsq
          rw [hnext, htpos]
          refine Ends.of_skipped true hsq hskipped (fun _ => hfail) (Ends.of_following hq hstop ?_)
          refine ih (s := { t with pos := m.following q }) ?_ hwithin ?_
          · exact startingAt_of_reset (htpos ▸ ht) _
          · show m.ahead r (m.following q) < rounds
            omega
      · have htry := tryNext_attempt hfind (hstart ▸ hsucceeds.1)
        rw [decide_eq_true hsucceeds.2] at htry
        refine .inr ⟨q, t, ⟨⟨hsq, hlast, by simp⟩, hsucceeds, fun k hk => hskipped k hk.1⟩, ?_⟩
        exact scanFrom_found htry
    · refine .inl ⟨_, scanFrom_stop (tryNext_none hfind) rfl, fun k hk => hfails k hk.1 hk.2.1⟩

theorem scan_ends {start : Nat} (hm : m.Finds { r with start := start }) (hsize : r.finish < Word.modulus)
    (hstart : r.Within start) (hrounds : m.ahead r start < rounds) (afterEmpty : Bool) :
    m.Ends { r with start := start } start afterEmpty (m.scan rounds r start afterEmpty) := by
  rcases scan_eq hstart hsize afterEmpty with ⟨hscan, rfl⟩ | ⟨hscan, rfl, hlast⟩ | ⟨hscan, rfl, hne⟩
  · rw [hscan]
    exact scanFrom_ends (s := { r with start := start, pos := start }) hm hsize rfl hstart hrounds
  · refine .inl ⟨_, hscan, fun k hk => ?_⟩
    have hlast : start = m.last { r with start := start } := hlast
    exact absurd (hlast ▸ hk) not_covers_last
  · obtain ⟨hwithin, hahead⟩ := within_following hstart hne
    have hrounds' : m.ahead r (m.following start) < rounds := by omega
    rw [hscan]
    refine Ends.of_following hstart hne ?_
    exact scanFrom_ends (s := { r with start := start, pos := m.following start }) hm hsize rfl hwithin hrounds'

theorem FirstAt.unique {start : Nat} {afterEmpty : Bool} {u : Runner}
    (h : m.FirstAt r start afterEmpty p t) (h' : m.FirstAt r start afterEmpty q u) : t = u := by
  have heq : p = q := by
    by_contra hne
    rcases Reaches.total m p q with hpq | hqp
    · exact (h'.earlier p h.covered hpq hne).not_succeeds h.succeeds
    · exact (h.earlier q h'.covered hqp (Ne.symm hne)).not_succeeds h'.succeeds
  subst heq
  exact Except.ok.inj (h.succeeds.1.symm.trans h'.succeeds.1)

/-- **A search agrees with an attempt at every position.** It ends with the first match in its
direction, and with none just when an attempt fails at every position. -/
theorem scan_first {start : Nat} (hm : m.Finds { r with start := start }) (hsize : r.finish < Word.modulus)
    (hstart : r.Within start) (hrounds : m.ahead r start < rounds) (afterEmpty : Bool) :
    (∀ p t, m.FirstAt { r with start := start } start afterEmpty p t →
        m.scan rounds r start afterEmpty = (fun x => (some x, t)) <$> m.matchOf t) ∧
      ((∃ t, m.scan rounds r start afterEmpty = .ok (none, t)) ↔
        ∀ p, m.Covers r start afterEmpty p → m.FailsAt { r with start := start } p) ∧
      ((∀ p, m.Covers r start afterEmpty p → m.FailsAt { r with start := start } p) ∨
        ∃ p t, m.FirstAt { r with start := start } start afterEmpty p t) := by
  rcases scan_ends hm hsize hstart hrounds afterEmpty with ⟨t, hscan, hfails⟩ | ⟨q, t, hfirst, hscan⟩
  · refine ⟨fun p u hp => ?_, ⟨fun _ => hfails, fun _ => ⟨t, hscan⟩⟩, .inl hfails⟩
    exact absurd hp.succeeds (hfails p hp.covered).not_succeeds
  · refine ⟨fun p u hp => ?_, ⟨?_, fun hfails => ?_⟩, .inr ⟨q, t, hfirst⟩⟩
    · rw [hp.unique hfirst, hscan]
    · rintro ⟨u, hnone⟩
      rw [hscan] at hnone
      cases hmatch : m.matchOf t <;> rw [hmatch] at hnone <;> cases hnone
    · exact absurd hfirst.succeeds (hfails q hfirst.covered).not_succeeds

/-- A matcher of the last letter of a text of three, which skips to it. -/
def lastLetter : Matcher :=
  Script.matcher ⟨some [2], [(2, [.capture 0 2 3, .setPos 3])]⟩ [0] ["0"] false

theorem lastLetter_finds : lastLetter.Finds (.ofText "abc" 1) := by
  have hfails : ∀ k, k ≤ 3 → k ≠ 2 → lastLetter.FailsAt (.ofText "abc" 1) k := by
    intro k hk hne
    interval_cases k
    · exact ⟨_, rfl, rfl, rfl⟩
    · exact ⟨_, rfl, rfl, rfl⟩
    · exact absurd rfl hne
    · exact ⟨_, rfl, rfl, rfl⟩
  refine ⟨fun p hp => ?_, fun s hs hpos => ?_⟩
  · by_cases hne : p = 2
    · subst hne
      exact .inr ⟨_, rfl, by decide⟩
    · exact .inl (hfails p hp.2 hne)
  · have hle : s.pos ≤ 3 := hpos.2
    by_cases hbefore : s.pos ≤ 2
    · refine .inl ⟨2, ?_, hbefore, (by decide : 2 ≤ 3), fun k _ (hk : k ≤ 2) hne => hfails k (by omega) hne⟩
      simp [lastLetter, Script.matcher, Script.findStart, Script.nearest?, hbefore]
    · have hfinish : s.finish = 3 := congrArg Runner.finish hs
      refine .inr ⟨?_, fun k (hk : s.pos ≤ k) (hk' : k ≤ 3) => hfails k hk' (by omega)⟩
      simp [lastLetter, Script.matcher, Script.findStart, Script.nearest?, hbefore, Runner.noStart, hfinish]
      rfl

theorem scan_first_lastLetter :
    ∃ t, lastLetter.SucceedsAt (.ofText "abc" 1) 2 t ∧
      lastLetter.scan 4 (.ofText "abc" 1) 0 true = (fun x => (some x, t)) <$> lastLetter.matchOf t := by
  have hsucceeds : lastLetter.SucceedsAt (.ofText "abc" 1) 2 _ := ⟨rfl, by decide⟩
  refine ⟨_, hsucceeds, ?_⟩
  refine (scan_first (r := .ofText "abc" 1) lastLetter_finds (by decide) ⟨by decide, by decide⟩ (by decide) true).1
    2 _ ⟨⟨(by decide : 0 ≤ 2), (by decide : 2 ≤ 3), by decide⟩, hsucceeds, ?_⟩
  rintro k ⟨-, -, -⟩ (hk : k ≤ 2) hne
  interval_cases k
  · exact ⟨_, rfl, rfl, rfl⟩
  · exact ⟨_, rfl, rfl, rfl⟩
  · exact absurd rfl hne

end Matcher

end PatternCompiler
