import PatternCompiler.Proofs.Outcomes

/-! Capture histories as lists of captures.

As long as no capture is taken back by a balancing group, a history is just the list of
its captures (`CaptureHistory.Logs`), and the histories of all slots are the captures of
all groups (`Captures.Logs`). To add a capture is `Groups.record`; to drop the last
entry of a slot is `Groups.forget`. `Groups.undo` drops the entries that a crawl lists,
which is what a failure does. -/
namespace PatternCompiler

/-! ### One slot -/

namespace CaptureHistory

/-- The words of captures. -/
def wordsOf (cs : List (Nat × Nat)) : List Int :=
  cs.flatMap fun c => [Word.ofPosition c.1, Word.ofPosition c.2]

/-- A history holds the given captures and nothing else. -/
structure Logs (h : CaptureHistory) (cs : List (Nat × Nat)) : Prop where
  count : h.count = cs.length
  entries : h.entries = wordsOf cs
  small : ∀ c ∈ cs, 2 * c.1 < Word.modulus ∧ 2 * c.2 < Word.modulus

/-! An entry is added after those that count, whatever was there before. -/

theorem entries_add {h : CaptureHistory} (hsize : h.entries.length = 2 * h.count) (index length : Int) :
    (h.add index length).entries = h.entries ++ [index, length] := by
  show List.take (2 * (h.count + 1)) (((h.words.shrink (2 * h.count)).push _).push _).toList = _
  rw [Array.toList_push, Array.toList_push, Array.toList_shrink, List.append_assoc]
  refine List.take_of_length_le ?_
  rw [List.length_append, ← entries, hsize]
  simp only [List.length_append, List.length_cons, List.length_nil]
  omega

theorem entries_remove (h : CaptureHistory) : h.remove.entries = h.entries.take (2 * (h.count - 1)) := by
  show h.words.toList.take (2 * (h.count - 1)) = _
  rw [entries, List.take_take, Nat.min_eq_left (by omega)]

theorem word?_natCast {h : CaptureHistory} {k : Nat} (hk : k < 2 * h.count) :
    h.word? k = h.entries[k]? := by
  rw [entries, List.getElem?_take_of_lt hk, Array.getElem?_toList, word?, if_neg (by omega),
    Int.toNat_natCast]

theorem wordsOf_length (cs : List (Nat × Nat)) : (wordsOf cs).length = 2 * cs.length := by
  induction cs with
  | nil => rfl
  | cons c cs ih =>
    show (wordsOf cs).length + 1 + 1 = _
    rw [ih, List.length_cons]
    omega

theorem wordsOf_append (cs ds : List (Nat × Nat)) : wordsOf (cs ++ ds) = wordsOf cs ++ wordsOf ds :=
  List.flatMap_append

theorem spans_wordsOf {cs : List (Nat × Nat)}
    (hsmall : ∀ c ∈ cs, 2 * c.1 < Word.modulus ∧ 2 * c.2 < Word.modulus) : spans (wordsOf cs) = cs := by
  induction cs with
  | nil => rfl
  | cons c cs ih =>
    obtain ⟨hindex, hlength⟩ := hsmall c (List.mem_cons_self ..)
    show (_, _) :: spans (wordsOf cs) = _
    rw [ih fun d hd => hsmall d (List.mem_cons_of_mem c hd), Word.position_ofPosition (by omega),
      Word.position_ofPosition (by omega)]

namespace Logs

variable {h : CaptureHistory} {cs : List (Nat × Nat)}

theorem empty : Logs {} [] := ⟨rfl, rfl, nofun⟩

theorem add (hl : h.Logs cs) {index length : Nat} (hindex : 2 * index < Word.modulus)
    (hlength : 2 * length < Word.modulus) :
    (h.add (Word.ofPosition index) (Word.ofPosition length)).Logs (cs ++ [(index, length)]) := by
  refine ⟨by rw [CaptureHistory.add, hl.count, List.length_append]; rfl, ?_, ?_⟩
  · have hsize : h.entries.length = 2 * h.count := by rw [hl.entries, wordsOf_length, hl.count]
    rw [entries_add hsize, hl.entries, wordsOf_append]
    rfl
  · intro c hc
    rcases List.mem_append.mp hc with hc | hc
    · exact hl.small c hc
    · rw [List.mem_singleton.mp hc]
      exact ⟨hindex, hlength⟩

theorem remove (hl : h.Logs cs) : h.remove.Logs cs.dropLast := by
  refine ⟨by rw [CaptureHistory.remove, hl.count, List.length_dropLast], ?_, ?_⟩
  · rw [entries_remove, hl.entries, hl.count]
    rcases List.eq_nil_or_concat cs with rfl | ⟨ds, d, rfl⟩
    · rfl
    · rw [List.concat_eq_append, List.dropLast_concat, wordsOf_append, List.length_append,
        List.length_singleton, Nat.add_sub_cancel, ← wordsOf_length, List.take_left]
  · exact fun c hc => hl.small c (List.dropLast_subset cs hc)

theorem isMatched_iff (hl : h.Logs cs) : h.isMatched = true ↔ cs ≠ [] := by
  rcases List.eq_nil_or_concat cs with rfl | ⟨ds, d, rfl⟩
  · rw [CaptureHistory.isMatched, hl.count]
    simp
  · rw [List.concat_eq_append] at hl ⊢
    have hcount : h.count = ds.length + 1 := by rw [hl.count, List.length_append]; rfl
    have hword : h.word? (h.last + 1) = some (Word.ofPosition d.2) := by
      have hlast : h.last + 1 = (2 * ds.length + 1 : Nat) := by
        rw [CaptureHistory.last, hcount]
        omega
      rw [hlast, word?_natCast (by omega), hl.entries, wordsOf_append, ← wordsOf_length,
        List.getElem?_append_right (by omega), Nat.add_sub_cancel_left]
      rfl
    have hsmall := (hl.small d (by simp)).2
    have hne : Word.ofPosition d.2 ≠ -2 := by
      rw [Word.ofPosition_of_lt hsmall]
      omega
    simp [CaptureHistory.isMatched, hword, hne, hcount]

end Logs

end CaptureHistory

/-! ### All slots -/

namespace Groups

/-- Drops the last capture of the group `n`. -/
def forget (g : Groups) (n : Nat) : Groups := fun k => if k = n then (g k).dropLast else g k

/-- Drops one capture of each group in turn. -/
def undo (g : Groups) : List Nat → Groups
  | [] => g
  | n :: ns => (g.forget n).undo ns

theorem forget_record (g : Groups) (n : Nat) (c : Nat × Nat) : (g.record n c).forget n = g := by
  funext k
  by_cases hk : k = n
  · simp [forget, record, hk]
  · simp [forget, record, hk]

theorem record_ne_nil (g : Groups) (n : Nat) (c : Nat × Nat) : g.record n c n ≠ [] := by
  simp [record]

theorem undo_append (g : Groups) (ns ms : List Nat) : g.undo (ns ++ ms) = (g.undo ns).undo ms := by
  induction ns generalizing g with
  | nil => rfl
  | cons n ns ih => exact ih (g.forget n)

end Groups

namespace Captures

/-- The slots, one for each group in `numbers`, hold the captures `g` and nothing else. -/
structure Logs (numbers : List Nat) (g : Groups) (c : Captures) : Prop where
  unbalanced : c.balanced = false
  slots : c.histories.size = numbers.length
  logs : ∀ n ∈ numbers, ∃ h, c.histories[numbers.idxOf n]? = some h ∧ h.Logs (g n)

namespace Logs

variable {numbers : List Nat} {g : Groups} {c : Captures}

theorem ofSlots (numbers : List Nat) : (Captures.ofSlots numbers.length).Logs numbers fun _ => [] := by
  refine ⟨rfl, by simp [Captures.ofSlots], fun n hn => ⟨{}, ?_, .empty⟩⟩
  rw [Captures.ofSlots, Array.getElem?_replicate, if_pos (List.idxOf_lt_length_iff.mpr hn)]

theorem add (hc : c.Logs numbers g) {n : Nat} (hn : n ∈ numbers) {index length : Nat}
    (hindex : 2 * index < Word.modulus) (hlength : 2 * length < Word.modulus) :
    ∃ c', c.add (numbers.idxOf n) index length = .ok c' ∧ c'.Logs numbers (g.record n (index, length)) := by
  have hslot : numbers.idxOf n < c.histories.size := hc.slots ▸ List.idxOf_lt_length_iff.mpr hn
  refine ⟨_, if_pos hslot, hc.unbalanced, by simp [hc.slots], fun k hk => ?_⟩
  obtain ⟨h, hget, hl⟩ := hc.logs k hk
  by_cases hkn : k = n
  · subst hkn
    refine ⟨_, by rw [Array.getElem?_modify, if_pos rfl, hget]; rfl, ?_⟩
    rw [Groups.record, if_pos rfl]
    exact hl.add hindex hlength
  · refine ⟨h, ?_, by rwa [Groups.record, if_neg hkn]⟩
    rw [Array.getElem?_modify, if_neg, hget]
    exact fun he => hkn ((List.idxOf_inj hk).mp he.symm)

theorem remove (hc : c.Logs numbers g) (n : Nat) :
    (c.remove (numbers.idxOf n)).Logs numbers (g.forget n) := by
  refine ⟨hc.unbalanced, by simp [Captures.remove, hc.slots], fun k hk => ?_⟩
  obtain ⟨h, hget, hl⟩ := hc.logs k hk
  by_cases hkn : k = n
  · subst hkn
    refine ⟨_, by rw [Captures.remove, Array.getElem?_modify, if_pos rfl, hget]; rfl, ?_⟩
    rw [Groups.forget, if_pos rfl]
    exact hl.remove
  · refine ⟨h, ?_, by rwa [Groups.forget, if_neg hkn]⟩
    rw [Captures.remove, Array.getElem?_modify, if_neg, hget]
    exact fun he => hkn ((List.idxOf_inj hk).mp he.symm)

theorem undo (hc : c.Logs numbers g) (ns : List Nat) :
    ((ns.map (numbers.idxOf ·)).foldl Captures.remove c).Logs numbers (g.undo ns) := by
  induction ns generalizing c g with
  | nil => exact hc
  | cons n ns ih => exact ih (hc.remove n)

theorem isMatched_iff (hc : c.Logs numbers g) {n : Nat} (hn : n ∈ numbers) :
    c.isMatched (numbers.idxOf n) = true ↔ g n ≠ [] := by
  obtain ⟨h, hget, hl⟩ := hc.logs n hn
  rw [Captures.isMatched, Array.getD_eq_getD_getElem?, hget]
  exact hl.isMatched_iff

theorem surviving (hc : c.Logs numbers g) {n : Nat} (hn : n ∈ numbers) :
    c.surviving (numbers.idxOf n) = .ok (g n) := by
  obtain ⟨h, hget, hl⟩ := hc.logs n hn
  simp [Captures.surviving, Captures.read, hget, hc.unbalanced, hl.entries,
    CaptureHistory.spans_wordsOf hl.small]

end Logs

end Captures

end PatternCompiler
