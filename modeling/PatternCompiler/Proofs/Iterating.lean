import PatternCompiler.Proofs.Balancing
import PatternCompiler.Proofs.Scanning

/-! Iterations over matches.

A matcher `Progresses` on a text if it never moves against the direction of the search and
captures, as a whole, what is between where an attempt begins and where it ends. Then a search
always comes to an end (`scan_moves`), and so does an iteration: with every match its potential
falls (`potential_lt`), which counts the positions ahead twice and is one less after an empty
match. `findAll_disjoint` says how many matches there are, that they do not overlap, and what
calls after the last one give. -/
namespace PatternCompiler

/-! ### Matches of an attempt -/

/-- Only a slot that there is has events. -/
theorem Captures.Follows.slot_lt {n slot : Nat} {log : Nat → List CaptureEvent} {c : Captures}
    (h : Follows n log c) (hne : log slot ≠ []) : slot < n := by
  -- An event changes the log of one slot, which there is.
  have hupdate : ∀ {log : Nat → List CaptureEvent} {slot' : Nat} {es : List CaptureEvent}, slot' < n →
      (log slot ≠ [] → slot < n) → Function.update log slot' es slot ≠ [] → slot < n := by
    intro log slot' es hslot' hlog hne
    by_cases heq : slot = slot'
    · exact heq ▸ hslot'
    · rw [Function.update_of_ne heq] at hne
      exact hlog hne
  induction h with
  | start => exact absurd rfl hne
  | @add log c c' hc slot' index length _ _ hadd ih => exact hupdate (hc.tells.slot_lt_of_add hadd) ih hne
  | @balance log c c' hc slot' hmatched _ ih => exact hupdate (hc.tells.slot_lt_of_isMatched hmatched) ih hne
  | @remove log c hc slot' hcount ih => exact hupdate (hc.tells.slot_lt hcount) ih hne

theorem mapM_ok {α β ε : Type} {f : α → Except ε β} {g : α → β} {xs : List α}
    (h : ∀ x ∈ xs, f x = .ok (g x)) : xs.mapM f = .ok (xs.map g) := by
  induction xs with
  | nil => rfl
  | cons x xs ih =>
    rw [List.mapM_cons, h x (List.mem_cons_self ..), ih fun y hy => h y (List.mem_cons_of_mem _ hy)]
    rfl

namespace Runner

variable {r : Runner} {text : String} {slots : Nat} {log : Nat → List CaptureEvent}

/-- The part of the text that a capture holds. -/
def captured (r : Runner) (c : Nat × Nat) : Capture := ⟨c.1, (r.text.extract c.1 (c.1 + c.2)).toList⟩

theorem captured_size {c : Nat × Nat} (h : c.1 + c.2 ≤ r.text.size) : (r.captured c).size = c.2 := by
  simp only [captured, Capture.size, Array.length_toList, Array.size_extract]
  omega

theorem group_ok {slot : Nat} {spans : List (Nat × Nat)} (hspans : r.captures.surviving slot = .ok spans)
    (hwithin : ∀ c ∈ spans, c.1 + c.2 ≤ r.text.size) (number : Nat) (name : String) :
    r.group slot number name = .ok ⟨number, name, spans.map r.captured⟩ := by
  have hcaptures : spans.mapM (fun c => r.captureAt c.1 c.2) = .ok (spans.map r.captured) :=
    mapM_ok fun c hc => if_pos (hwithin c hc)
  have hgroup : r.group slot number name =
      spans.mapM (fun c => r.captureAt c.1 c.2) >>= fun captures => .ok ⟨number, name, captures⟩ := by
    rw [group, hspans]
    rfl
  rw [hgroup, hcaptures]
  rfl

theorem groupsFrom_ok {slot : Nat} {numbers : List Nat} (names : List String)
    (h : ∀ k, slot ≤ k → k < slot + numbers.length → ∃ spans, r.captures.surviving k = .ok spans ∧
      ∀ c ∈ spans, c.1 + c.2 ≤ r.text.size) :
    ∃ gs, r.groupsFrom slot numbers names = .ok gs ∧
      ∀ spans, 0 < numbers.length → r.captures.surviving slot = .ok spans →
        gs.head?.map Group.captures = some (spans.map r.captured) := by
  induction numbers generalizing slot names with
  | nil => exact ⟨[], rfl, fun _ hlength => absurd hlength (Nat.lt_irrefl 0)⟩
  | cons n ns ih =>
    obtain ⟨spans, hspans, hwithin⟩ := h slot (Nat.le_refl _) (by simp)
    have hrest : ∀ k, slot + 1 ≤ k → k < slot + 1 + ns.length → ∃ spans,
        r.captures.surviving k = .ok spans ∧ ∀ c ∈ spans, c.1 + c.2 ≤ r.text.size := by
      intro k hk hlt
      exact h k (by omega) (by rw [List.length_cons]; omega)
    obtain ⟨gs, hgs, _⟩ := ih names.tail hrest
    refine ⟨⟨n, names.headD "", spans.map r.captured⟩ :: gs, ?_, fun spans' _ hspans' => ?_⟩
    · simp only [groupsFrom, group_ok hspans hwithin, hgs, bind, Except.bind]
    · rw [Except.ok.inj (hspans'.symm.trans hspans)]
      rfl

/-- A state of a search in the text, with all of it to search in. -/
structure Over (r : Runner) (text : String) (slots : Nat) : Prop where
  chars : r.text = text.toList.toArray
  beg : r.beg = 0
  finish : r.finish = text.length
  slots : r.captures.histories.size = slots

theorem Over.within (h : r.Over text slots) {p : Nat} : r.Within p ↔ p ≤ text.length := by
  simp [Within, h.beg, h.finish]

theorem Over.size (h : r.Over text slots) : r.text.size = text.length := by
  simp [h.chars, String.length_toList]

theorem Over.move (h : r.Over text slots) (start pos : Nat) :
    ({ r with start := start, pos := pos } : Runner).Over text slots :=
  ⟨h.chars, h.beg, h.finish, h.slots⟩

theorem Over.ofText (text : String) (slots : Nat) : (Runner.ofText text slots).Over text slots :=
  ⟨rfl, rfl, by simp [Runner.ofText, String.length_toList], by simp [Runner.ofText, Captures.ofSlots]⟩

end Runner

namespace Matcher

variable {m : Matcher} {text : String} {r s t : Runner} {p q rounds : Nat} {x y : Match}

/-- On the text the matcher only moves in the direction of the search and stays in the text, and what
it captures is in the text. An attempt either captures nothing as a whole and stays where it is, or
the last that it captures as a whole is what it has gone over. -/
structure Progresses (m : Matcher) (text : String) : Prop where
  findStart : ∀ s : Runner, s.Over text m.groupNumbers.length → s.pos ≤ text.length →
    ∃ found q, m.findStart s = .ok (found, { s with pos := q }) ∧ m.Reaches s.pos q ∧ q ≤ text.length
  attempt : ∀ s : Runner, s.Over text m.groupNumbers.length → s.pos ≤ text.length →
    ∃ t log, m.attempt s.reset = .ok t ∧ t.Over text m.groupNumbers.length ∧
      t.captures.Follows m.groupNumbers.length log ∧
      (∀ slot c, .add c ∈ log slot → c.1 + c.2 ≤ text.length) ∧
      ((log 0 = [] ∧ t.pos = s.pos) ∨
        (t.pos ≤ text.length ∧ m.Reaches s.pos t.pos ∧
          ∃ es, log 0 = .add (min s.pos t.pos, max s.pos t.pos - min s.pos t.pos) :: es))

/-- The match goes from a position to where it ended. -/
structure Runs (m : Matcher) (text : String) (p : Nat) (x : Match) : Prop where
  reaches : m.Reaches p x.pos
  inside : p ≤ text.length ∧ x.pos ≤ text.length
  whole : ∃ c, x.whole? = some c ∧ c.index = min p x.pos ∧ c.size = max p x.pos - min p x.pos

/-! ### A search -/

theorem matchOf_ok (hover : t.Over text m.groupNumbers.length) {log : Nat → List CaptureEvent}
    (hfollows : t.captures.Follows m.groupNumbers.length log)
    (hwithin : ∀ slot c, .add c ∈ log slot → c.1 + c.2 ≤ text.length) {c : Nat × Nat}
    {es : List CaptureEvent} (hlog : log 0 = .add c :: es) :
    ∃ x whole, m.matchOf t = .ok x ∧ x.pos = t.pos ∧ x.whole? = some whole ∧ whole.index = c.1 ∧
      whole.size = c.2 := by
  have hslot : 0 < m.groupNumbers.length := hfollows.slot_lt (hlog ▸ List.cons_ne_nil _ _)
  have htells := hfollows.tells
  have hsurviving : ∀ k, 0 ≤ k → k < 0 + m.groupNumbers.length → ∃ spans,
      t.captures.surviving k = .ok spans ∧ ∀ d ∈ spans, d.1 + d.2 ≤ t.text.size := by
    intro k _ hk
    refine ⟨_, htells.surviving (by omega), fun d hd => ?_⟩
    rw [hover.size]
    exact hwithin k d (CaptureEvent.add_mem_of_mem_stack (List.mem_reverse.mp hd))
  obtain ⟨gs, hgs, hhead⟩ := Runner.groupsFrom_ok m.groupNames hsurviving
  have hcaptures := hhead _ hslot (htells.surviving hslot)
  have hsize : c.1 + c.2 ≤ t.text.size := by
    rw [hover.size]
    exact hwithin 0 c (hlog ▸ List.mem_cons_self ..)
  obtain ⟨g, hg, hgcaptures⟩ := Option.map_eq_some_iff.mp hcaptures
  refine ⟨⟨gs, t.pos⟩, t.captured c, ?_, rfl, ?_, rfl, Runner.captured_size hsize⟩
  · rw [matchOf, hgs]
    rfl
  · rw [Match.whole?, hg, Option.bind_some, Group.last?, hgcaptures, hlog, CaptureEvent.stack,
      List.reverse_cons, List.map_append, List.map_singleton, List.getLast?_concat]

/-- A search leaves a state of the same kind, and with a match one that runs from a position that
the search goes over. -/
def Moves (m : Matcher) (text : String) (start : Nat) (afterEmpty : Bool)
    (result : Except Fault (Option Match × Runner)) : Prop :=
  ∃ t : Runner, t.Over text m.groupNumbers.length ∧
    (result = .ok (none, t) ∨
      ∃ x p, result = .ok (some x, t) ∧ m.Runs text p x ∧ m.Reaches start p ∧ (afterEmpty = true → p ≠ start))

theorem Moves.of_reaches {result : Except Fault (Option Match × Runner)} (hpq : m.Reaches p q)
    (h : m.Moves text q false result) : m.Moves text p false result := by
  obtain ⟨t, ht, hnone | ⟨x, k, hx, hruns, hk, _⟩⟩ := h
  · exact ⟨t, ht, .inl hnone⟩
  · exact ⟨t, ht, .inr ⟨x, k, hx, hruns, hpq.trans hk, by simp⟩⟩

theorem Moves.of_following {result : Except Fault (Option Match × Runner)} (hp : r.Within p)
    (hne : p ≠ m.last r) (h : m.Moves text (m.following p) false result) : m.Moves text p true result := by
  obtain ⟨t, ht, hnone | ⟨x, k, hx, hruns, hk, _⟩⟩ := h
  · exact ⟨t, ht, .inl hnone⟩
  · obtain ⟨hpk, hkp⟩ := (reaches_following hp hne).mp hk
    exact ⟨t, ht, .inr ⟨x, k, hx, hruns, hpk, fun _ => hkp⟩⟩

/-- The loop ends, as every round begins closer to the end than the one before. -/
theorem scanFrom_moves (hm : m.Progresses text) (hsize : text.length < Word.modulus)
    (hr : r.Over text m.groupNumbers.length) (hs : s.Over text m.groupNumbers.length)
    (hpos : s.pos ≤ text.length) (hrounds : m.ahead r s.pos < rounds) :
    m.Moves text s.pos false (m.scanFrom (m.last r) rounds s) := by
  induction rounds generalizing s with
  | zero => omega
  | succ rounds ih =>
    obtain ⟨found, q, hfind, hsq, hq⟩ := hm.findStart s hs hpos
    have hover : ({ s with pos := q } : Runner).Over text m.groupNumbers.length := hs.move s.start q
    -- Without a match the round ends at the candidate, whether or not there was an attempt.
    have hnext : ∀ t : Runner, m.tryNext s = .ok (false, t) → t.Over text m.groupNumbers.length →
        t.pos = q → m.Moves text s.pos false (m.scanFrom (m.last r) (rounds + 1) s) := by
      rintro t htry ht rfl
      by_cases hlast : t.pos = m.last r
      · exact ⟨t, ht, .inl (scanFrom_stop htry hlast)⟩
      · have hwithin : r.Within t.pos := hr.within.mpr hq
        obtain ⟨hfollowing, hahead⟩ := within_following hwithin hlast
        have hle := ahead_le (r := r) hsq
        rw [scanFrom_following htry hwithin hlast (hr.finish ▸ hsize)]
        have hreaches := (reaches_following hwithin hlast).mp (Reaches.refl m (m.following t.pos))
        refine Moves.of_reaches (hsq.trans hreaches.1) ?_
        refine ih (s := { t with pos := m.following t.pos }) (ht.move t.start _) (hr.within.mp hfollowing) ?_
        show m.ahead r (m.following t.pos) < rounds
        omega
    cases found with
    | false => exact hnext _ (tryNext_none hfind) hover rfl
    | true =>
      obtain ⟨t, log, hattempt, ht, hfollows, hwithin, hlog⟩ := hm.attempt { s with pos := q } hover hq
      have htry := tryNext_attempt hfind hattempt
      rcases hlog with ⟨hlog, htpos⟩ | ⟨htpos, hreaches, es, hlog⟩
      · have hcount : ¬ 0 < t.captures.count 0 := by
          intro hcount
          rw [hfollows.tells.count_eq (hfollows.tells.slot_lt hcount), hlog] at hcount
          cases hcount
        rw [decide_eq_false hcount] at htry
        exact hnext t htry ht htpos
      · have hslot : 0 < m.groupNumbers.length := hfollows.slot_lt (hlog ▸ List.cons_ne_nil _ _)
        have hcount : 0 < t.captures.count 0 := by
          rw [hfollows.tells.count_eq hslot, hlog]
          exact Nat.succ_pos _
        obtain ⟨x, whole, hx, hxpos, hwhole, hindex, hwsize⟩ := matchOf_ok ht hfollows hwithin hlog
        rw [decide_eq_true hcount] at htry
        refine ⟨t, ht, .inr ⟨x, q, ?_, ?_, hsq, by simp⟩⟩
        · rw [scanFrom_found htry, hx]
          rfl
        · exact ⟨hxpos ▸ hreaches, ⟨hq, hxpos ▸ htpos⟩, whole, hwhole, hxpos ▸ hindex, hxpos ▸ hwsize⟩

theorem scan_moves (hm : m.Progresses text) (hsize : text.length < Word.modulus)
    (hr : r.Over text m.groupNumbers.length) (hp : p ≤ text.length) (hrounds : text.length < rounds)
    (afterEmpty : Bool) : m.Moves text p afterEmpty (m.scan rounds r p afterEmpty) := by
  have hahead : ∀ k, k ≤ text.length → m.ahead r k < rounds := by
    intro k hk
    have hle : m.ahead r k ≤ text.length := by
      unfold ahead
      rw [hr.beg, hr.finish]
      split <;> omega
    omega
  have hwithin := hr.within.mpr hp
  rcases scan_eq hwithin (hr.finish ▸ hsize) afterEmpty with ⟨hscan, rfl⟩ | ⟨hscan, rfl, _⟩ | ⟨hscan, rfl, hne⟩
  · rw [hscan]
    exact scanFrom_moves (s := { r with start := p, pos := p }) hm hsize hr (hr.move p p) hp (hahead p hp)
  · exact ⟨_, hr.move p p, .inl hscan⟩
  · have hfollowing := hr.within.mp (within_following hwithin hne).1
    rw [hscan]
    refine Moves.of_following hwithin hne ?_
    exact scanFrom_moves (s := { r with start := p, pos := m.following p }) hm hsize hr
      (hr.move p _) hfollowing (hahead _ hfollowing)

/-! ### An iteration -/

/-- An iteration that has found all so far that it was asked for. -/
structure Running (m : Matcher) (text : String) (it : Iteration) : Prop where
  active : it.done = false
  runner : it.runner.Over text m.groupNumbers.length
  next : it.next ≤ text.length

/-- A match that an iteration may still find: it begins where the last one ended or beyond, and after
an empty one beyond. -/
def Admits (m : Matcher) (text : String) (it : Iteration) (x : Match) : Prop :=
  ∃ p, m.Runs text p x ∧ m.Reaches it.next p ∧ (it.previous = some 0 → p ≠ it.next)

/-- Twice the positions ahead, and one more if an empty match may be found at the next one. -/
def potential (m : Matcher) (it : Iteration) : Nat :=
  2 * m.ahead it.runner it.next + if it.previous = some 0 then 0 else 1

variable {it it' : Iteration}

/-- What one call gives. -/
theorem advance_running (hm : m.Progresses text) (hsize : text.length < Word.modulus)
    (hit : m.Running text it) (hrounds : text.length < rounds) :
    (∃ it', m.advance rounds it = .ok (none, it') ∧ it'.done = true) ∨
      ∃ x it', m.advance rounds it = .ok (some x, it') ∧ m.Running text it' ∧ m.Admits text it x ∧
        it'.next = x.pos ∧ it'.previous = x.whole?.map Capture.size := by
  obtain ⟨t, ht, hnone | ⟨x, p, hx, hruns, hp, hne⟩⟩ :=
    scan_moves hm hsize hit.runner hit.next hrounds (it.previous == some 0)
  · refine .inl ⟨{ it with runner := t, done := true }, ?_, rfl⟩
    simp [advance, hit.active, hnone]
  · obtain ⟨whole, hwhole, _⟩ := id hruns.whole
    refine .inr ⟨x, { it with runner := t, next := x.pos, previous := some whole.size }, ?_, ?_, ?_, rfl, ?_⟩
    · simp [advance, hit.active, hx, hwhole]
    · exact ⟨hit.active, ht, hruns.inside.2⟩
    · exact ⟨p, hruns, hp, fun hprevious => hne (by simp [hprevious])⟩
    · rw [hwhole]
      rfl

theorem ahead_over (hr : r.Over text m.groupNumbers.length) (ht : t.Over text m.groupNumbers.length) :
    m.ahead r p = m.ahead t p := by
  rw [ahead, ahead, hr.beg, hr.finish, ht.beg, ht.finish]

/-- A position beyond another one has less ahead. -/
theorem ahead_lt (hr : r.Over text m.groupNumbers.length) (hp : p ≤ text.length) (hq : q ≤ text.length)
    (h : m.Reaches p q) (hne : q ≠ p) : m.ahead r q < m.ahead r p := by
  unfold Reaches ahead at *
  rw [hr.beg, hr.finish]
  split at h <;> simp_all <;> omega

/-- With every match the potential falls. -/
theorem potential_lt (hit : m.Running text it) (hit' : m.Running text it') (hx : m.Admits text it x)
    (hnext : it'.next = x.pos) (hprevious : it'.previous = x.whole?.map Capture.size) :
    m.potential it' < m.potential it := by
  obtain ⟨p, hruns, hp, hne⟩ := hx
  obtain ⟨whole, hwhole, _, hsize⟩ := hruns.whole
  have hstart : m.ahead it.runner p ≤ m.ahead it.runner it.next := ahead_le hp
  rw [potential, potential, ← ahead_over hit.runner hit'.runner, hnext, hprevious, hwhole]
  by_cases hpos : x.pos = p
  · -- An empty match: if the last one was empty as well, it begins beyond that one.
    have hempty : whole.size = 0 := by rw [hsize, hpos]; omega
    rw [hpos, if_pos (by simp [hempty])]
    by_cases hlast : it.previous = some 0
    · have hlt := ahead_lt hit.runner hit.next hruns.inside.1 hp (hne hlast)
      rw [if_pos hlast]
      omega
    · rw [if_neg hlast]
      omega
  · have hlt := ahead_lt hit.runner hruns.inside.1 hruns.inside.2 hruns.reaches hpos
    split <;> split <;> omega

/-- What an iteration gives, call by call, before it ends. -/
inductive Yields (m : Matcher) (rounds : Nat) : Iteration → List Match → Prop where
  | done {it it' : Iteration} (call : m.advance rounds it = .ok (none, it')) (done : it'.done = true) :
      Yields m rounds it []
  | cons {it it' : Iteration} {x : Match} {xs : List Match} (call : m.advance rounds it = .ok (some x, it'))
      (rest : Yields m rounds it' xs) : Yields m rounds it (x :: xs)

theorem Yields.collect {xs : List Match} (h : m.Yields rounds it xs) {n : Nat} (hn : xs.length < n) :
    m.collect rounds n it = (xs, none) := by
  induction h generalizing n with
  | done call _ =>
    cases n with
    | zero => cases hn
    | succ n => rw [Matcher.collect, call]
  | cons call _ ih =>
    cases n with
    | zero => cases hn
    | succ n =>
      rw [Matcher.collect, call]
      simp only [ih (Nat.lt_of_succ_lt_succ hn)]

/-- The results of several calls in a row. -/
def calls (m : Matcher) (rounds : Nat) : Nat → Iteration → Except Fault (List (Option Match))
  | 0, _ => .ok []
  | n + 1, it => do
    let (x, it) ← m.advance rounds it
    .ok (x :: (← calls m rounds n it))

/-- An iteration that has ended gives nothing any more. -/
theorem calls_done (h : it.done = true) (n : Nat) :
    m.calls rounds n it = .ok (List.replicate n none) := by
  induction n with
  | zero => rfl
  | succ n ih =>
    have hcall : m.advance rounds it = .ok (none, it) := by simp [advance, h]
    simp only [calls, hcall, ih, bind, Except.bind, List.replicate_succ]

theorem Yields.calls {xs : List Match} (h : m.Yields rounds it xs) (n : Nat) :
    m.calls rounds n it = .ok ((xs.map some ++ List.replicate n none).take n) := by
  induction h generalizing n with
  | done call hdone =>
    cases n with
    | zero => rfl
    | succ n => simp [Matcher.calls, call, calls_done hdone, bind, Except.bind, List.replicate_succ]
  | @cons it it' x xs call _ ih =>
    cases n with
    | zero => rfl
    | succ n =>
      have hlonger : (xs.map some ++ List.replicate (n + 1) none).take n =
          (xs.map some ++ List.replicate n none).take n := by
        rw [List.take_append, List.take_append, List.take_replicate, List.take_replicate]
        congr 2
        omega
      simp only [Matcher.calls, call, ih, bind, Except.bind, List.map_cons, List.cons_append,
        List.take_succ_cons, hlonger]

/-- What an iteration finds later, it might have found now. -/
theorem Admits.of_later (hx : m.Admits text it x) (hnext : it'.next = x.pos) (hy : m.Admits text it' y) :
    m.Admits text it y := by
  obtain ⟨p, hruns, hp, hne⟩ := hx
  obtain ⟨q, hruns', hq, _⟩ := hy
  have hpq : m.Reaches p q := hruns.reaches.trans (hnext ▸ hq)
  refine ⟨q, hruns', hp.trans hpq, fun hprevious heq => hne hprevious ?_⟩
  exact (hp.antisymm (heq ▸ hpq)).symm

end Matcher

/-- The first match ends at or before where the second begins, and before it if the first is empty. From
right to left it is the other way round. -/
def Match.Precedes (rightToLeft : Bool) (x y : Match) : Prop :=
  ∃ c d, x.whole? = some c ∧ y.whole? = some d ∧
    if rightToLeft then d.finish ≤ c.index ∧ (c.size = 0 → d.finish < c.index)
    else c.finish ≤ d.index ∧ (c.size = 0 → c.finish < d.index)

namespace Matcher

variable {m : Matcher} {text : String} {rounds : Nat} {x y : Match} {it it' : Iteration}

theorem Admits.precedes (hx : m.Admits text it x) (hnext : it'.next = x.pos)
    (hprevious : it'.previous = x.whole?.map Capture.size) (hy : m.Admits text it' y) :
    x.Precedes m.rightToLeft y := by
  obtain ⟨p, hruns, _, _⟩ := hx
  obtain ⟨q, hruns', hq, hne⟩ := hy
  obtain ⟨c, hc, hcindex, hcsize⟩ := hruns.whole
  obtain ⟨d, hd, hdindex, hdsize⟩ := hruns'.whole
  have hreaches := hruns.reaches
  have hreaches' := hruns'.reaches
  rw [hnext] at hq hne
  rw [hprevious, hc] at hne
  have hempty : c.size = 0 → q ≠ x.pos := fun h => hne (by simp [h])
  refine ⟨c, d, hc, hd, ?_⟩
  unfold Reaches at hq hreaches hreaches'
  unfold Capture.finish
  split <;> simp_all <;> omega

/-- An iteration ends after no more matches than its potential allows. -/
theorem exists_yields (hm : m.Progresses text) (hsize : text.length < Word.modulus)
    (hit : m.Running text it) (hrounds : text.length < rounds) :
    ∃ xs, m.Yields rounds it xs ∧ xs.length ≤ m.potential it + 1 ∧ (∀ x ∈ xs, m.Admits text it x) ∧
      xs.Pairwise (Match.Precedes m.rightToLeft) := by
  induction hn : m.potential it using Nat.strongRecOn generalizing it with
  | ind n ih =>
    rcases advance_running hm hsize hit hrounds with ⟨it', hcall, hdone⟩ | ⟨x, it', hcall, hit', hx, hnext, hprevious⟩
    · exact ⟨[], .done hcall hdone, Nat.zero_le _, by simp, .nil⟩
    · have hlt := potential_lt hit hit' hx hnext hprevious
      obtain ⟨xs, hyields, hlength, hadmits, hpairwise⟩ := ih _ (hn ▸ hlt) hit' rfl
      refine ⟨x :: xs, .cons hcall hyields, ?_, ?_, ?_⟩
      · rw [List.length_cons]
        omega
      · exact List.forall_mem_cons.mpr ⟨hx, fun y hy => hx.of_later hnext (hadmits y hy)⟩
      · exact List.pairwise_cons.mpr ⟨fun y hy => hx.precedes hnext hprevious (hadmits y hy), hpairwise⟩

theorem iterate_running (m : Matcher) (text : String) :
    m.Running text (m.iterate text) ∧ m.potential (m.iterate text) = 2 * text.length + 1 := by
  have hover := Runner.Over.ofText text m.groupNumbers.length
  have hnext : (m.iterate text).next = if m.rightToLeft then text.length else 0 := by
    rw [← hover.finish]
    rfl
  have hahead : m.ahead (m.iterate text).runner (m.iterate text).next = text.length := by
    rw [hnext]
    show m.ahead (Runner.ofText text m.groupNumbers.length) _ = _
    rw [ahead, hover.beg, hover.finish]
    split <;> rfl
  refine ⟨⟨rfl, hover, ?_⟩, ?_⟩
  · rw [hnext]
    split <;> omega
  · rw [potential, hahead]
    rfl

/-- **An iteration gives finitely many matches that do not overlap.** There are at most two for each
position, each in the text, and an empty one is not found again. After the last one all calls
give none. -/
theorem findAll_disjoint (hm : m.Progresses text) (hsize : text.length < Word.modulus)
    (hrounds : 2 * (text.length + 1) < rounds) :
    ∃ xs, m.findAll rounds text = (xs, none) ∧ xs.length ≤ 2 * (text.length + 1) ∧
      (∀ x ∈ xs, ∃ c, x.whole? = some c ∧ c.finish ≤ text.length) ∧
      xs.Pairwise (Match.Precedes m.rightToLeft) ∧
      ∀ n, m.calls rounds n (m.iterate text) = .ok ((xs.map some ++ List.replicate n none).take n) := by
  obtain ⟨hrunning, hpotential⟩ := m.iterate_running text
  obtain ⟨xs, hyields, hlength, hadmits, hpairwise⟩ := exists_yields hm hsize hrunning (by omega : _ < rounds)
  rw [hpotential] at hlength
  refine ⟨xs, hyields.collect (by omega), by omega, fun x hx => ?_, hpairwise, fun n => hyields.calls n⟩
  obtain ⟨p, hruns, _⟩ := hadmits x hx
  obtain ⟨c, hc, hindex, hcsize⟩ := hruns.whole
  have hinside := hruns.inside
  refine ⟨c, hc, ?_⟩
  rw [Capture.finish, hindex, hcsize]
  omega

/-- An attempt that captures what is between two positions as a whole, and ends at the second. -/
theorem performAll_capture {s : Runner} (hs : s.Over text 1) {p q : Nat} (hp : p ≤ text.length)
    (hq : q ≤ text.length) (hsize : 2 * text.length < Word.modulus) :
    ∃ t log, s.reset.performAll [.capture 0 p q, .setPos q] = .ok t ∧ t.Over text 1 ∧
      t.captures.Follows 1 log ∧ (∀ slot c, .add c ∈ log slot → c.1 + c.2 ≤ text.length) ∧ t.pos = q ∧
      log 0 = [.add (min p q, max p q - min p q)] := by
  have hstart : s.reset.captures = .ofSlots 1 := congrArg Captures.ofSlots hs.slots
  have hsmall : 2 * min p q < Word.modulus ∧ 2 * (max p q - min p q) < Word.modulus := by omega
  obtain ⟨captures, hadd, htells⟩ := (Captures.Tells.ofSlots 1).add Nat.zero_lt_one hsmall.1 hsmall.2
  refine ⟨{ s.reset with crawl := [0], captures := captures, pos := q }, _, ?_,
    ⟨hs.chars, hs.beg, hs.finish, htells.size⟩, Captures.Follows.start.add 0 _ _ hsmall.1 hsmall.2 hadd, ?_,
    rfl, rfl⟩
  · simp only [Runner.performAll, Runner.perform, Runner.capture, hstart, hadd, bind, Except.bind]
    rfl
  · intro slot c hc
    by_cases hslot : slot = 0
    · subst hslot
      obtain rfl : c = (min p q, max p q - min p q) := by simpa using hc
      simp only
      omega
    · simp [hslot] at hc

/-- Finds nothing before the first letter, then the second letter, and then nothing after it. -/
def hops : Matcher :=
  Script.matcher ⟨none, [(0, [.capture 0 0 0, .setPos 0]), (1, [.capture 0 1 2, .setPos 2]),
    (2, [.capture 0 2 2, .setPos 2])]⟩ [0] ["0"] false

theorem hops_progresses : hops.Progresses "ab" := by
  refine ⟨fun s _ hpos => ⟨true, s.pos, rfl, Reaches.refl _ _, hpos⟩, fun s hs hpos => ?_⟩
  have hattempt : ∃ q, s.pos ≤ q ∧ q ≤ 2 ∧
      hops.attempt s.reset = s.reset.performAll [.capture 0 s.pos q, .setPos q] := by
    have hreset : s.reset.pos = s.pos := rfl
    have hpos : s.pos ≤ 2 := hpos
    simp only [hops, Script.matcher, Script.attempt, hreset]
    interval_cases s.pos
    · exact ⟨0, by decide, by decide, rfl⟩
    · exact ⟨2, by decide, by decide, rfl⟩
    · exact ⟨2, by decide, by decide, rfl⟩
  obtain ⟨q, hle, hq, hattempt⟩ := hattempt
  obtain ⟨t, log, hperform, ht, hfollows, hwithin, hend, hlog⟩ :=
    performAll_capture hs hpos (hq : q ≤ "ab".length) (by decide)
  exact ⟨t, log, hattempt.trans hperform, ht, hfollows, hwithin,
    .inr ⟨hend ▸ hq, hend ▸ hle, [], hend ▸ hlog⟩⟩

theorem findAll_disjoint_hops :
    ∃ xs, hops.findAll 7 "ab" = (xs, none) ∧ xs.length = 3 ∧ xs.Pairwise (Match.Precedes false) ∧
      hops.calls 7 5 (hops.iterate "ab") = .ok (xs.map some ++ [none, none]) := by
  obtain ⟨xs, hfound, _, _, hpairwise, hcalls⟩ := findAll_disjoint hops_progresses (by decide) (by decide : _ < 7)
  have hlength : xs.length = 3 := by
    have hthree : (hops.findAll 7 "ab").1.length = 3 := by decide +kernel
    rwa [hfound] at hthree
  refine ⟨xs, hfound, hlength, hpairwise, (hcalls 5).trans ?_⟩
  rw [List.take_append, List.length_map, hlength, List.take_of_length_le (by simp [hlength])]
  rfl

end Matcher

end PatternCompiler
