import PatternCompiler.Proofs.Decoding
import PatternCompiler.Proofs.Lockstep

/-! Which patterns have a program.

Writing a program never fails, but it is accepted only if all that it refers to is
there. References and the groups that are taken back are looked up when they are read,
so they always are; only a group without a name can miss the table, because the reader
and the survey count such groups each on its own. `Pattern.program_accepted` says so
exactly, and that a clear text always has a program. -/
namespace PatternCompiler

namespace Node

/-- The groups that a node looks up: those that it refers to or takes back. -/
def lookups : Node → List Nat
  | .leaf _ (.ref n) => [n]
  | .wrap _ (.capture _ uncapture) _ => uncapture.toList
  | .many _ (.testref n) _ => [n]
  | _ => []

/-- A condition that is an expression comes with a branch. -/
def Branched : Node → Prop
  | .many _ .testgroup ns => 2 ≤ ns.length
  | _ => True

instance : DecidablePred Branched
  | .leaf _ _ => .isTrue trivial
  | .wrap _ _ _ => .isTrue trivial
  | .many _ .testgroup ns => inferInstanceAs (Decidable (2 ≤ ns.length))
  | .many _ (.testref _) _ => .isTrue trivial
  | .many _ .alternate _ => .isTrue trivial
  | .many _ .concatenate _ => .isTrue trivial
  | .many _ .group _ => .isTrue trivial

variable {t : GroupTable} {next : Nat} {n : Node}

theorem Sound.shaped (hn : n.Sound t next) (hb : n.Branched) : n.Shaped := by
  match n with
  | .leaf _ _ => trivial
  | .wrap _ _ _ => trivial
  | .many _ kind ns =>
    cases kind with
    | testref k => exact hn.2
    | testgroup => exact ⟨hb, hn.2⟩
    | _ => trivial

theorem Sound.lookups_mem (hn : n.Sound t next) : ∀ k ∈ n.lookups, k ∈ t.numbers := by
  intro k hk
  match n with
  | .leaf _ l =>
    cases l with
    | ref m =>
      rw [List.mem_singleton.mp hk]
      exact hn
    | _ => cases hk
  | .wrap _ w _ =>
    cases w with
    | capture number uncapture => exact (hn.2 k (Option.mem_toList.mp hk)).2
    | _ => cases hk
  | .many _ kind ns =>
    cases kind with
    | testref m =>
      rw [List.mem_singleton.mp hk]
      exact hn.1
    | _ => cases hk

/-- All that a sound node names is in the table if all numbers below `next` are. -/
theorem Sound.named (hn : n.Sound t next) (hnext : ∀ k, k < next → k ∈ t.numbers) :
    n.Named t.numbers := by
  intro k hk
  match n with
  | .leaf _ l =>
    cases l with
    | ref m => exact hn.lookups_mem k hk
    | _ => cases hk
  | .wrap _ w _ =>
    cases w with
    | capture number uncapture =>
      rcases List.mem_append.mp hk with hk | hk
      · exact (hn.1 k (Option.mem_toList.mp hk)).2.elim id (hnext k)
      · exact hn.lookups_mem k hk
    | _ => cases hk
  | .many _ kind ns =>
    cases kind with
    | testref m => exact hn.lookups_mem k hk
    | _ => cases hk

end Node

namespace Pattern

variable {text : List Char} {o : Options} {culture : Culture} {p : Pattern}

/-- In a clear text the reader has given no number that is not in the table. -/
theorem read_autocap (h : read text o culture = .ok p) (hclear : Clear text) {r : Reader}
    (hrun : Reader.run ⟨p.culture, p.table⟩ text.length (Reader.start text o) = .ok r)
    (hfinish : r.finish = .ok p.root) : ∀ k, k < r.autocap → k ∈ p.table.numbers := by
  obtain ⟨_, _, s, hs, hbelow⟩ := GroupTable.ofPattern_noted (read_sound h).1
  have hready : (Reader.start text o).Ready := ⟨rfl, nofun⟩
  obtain ⟨s', hgoes, hs'⟩ := Reader.run_autocap (s := Survey.start text o) rfl hready hclear hrun hfinish
  obtain ⟨rounds, hrest⟩ := hgoes.run_eq (Nat.le_refl text.length)
  have hle := (Survey.run_later (hrest.symm.trans hs)).autocap
  intro k hk
  exact hbelow k (by omega)

theorem parse_read {text : String} (h : parse text o culture = .ok p) :
    ∃ culture', read text.toList o culture' = .ok p := by
  unfold parse at h
  split at h
  · cases h
    exact ⟨_, ‹_›⟩
  · cases h

/-- The tree of a pattern is the whole match around a sound tree. -/
theorem read_root (h : read text o culture = .ok p) {r : Reader} (hfinish : r.finish = .ok p.root)
    (hholds : r.Holds p.table) :
    ∃ o' body, p.root = .wrap o' (.capture (some 0) none) body ∧
      body.Everywhere (Node.Sound p.table r.autocap) ∧ 0 ∈ p.table.numbers := by
  obtain ⟨o', body, hroot, hbody⟩ := Reader.finish_whole hholds hfinish
  obtain ⟨rest, hrest⟩ := (GroupTable.ofPattern_noted (read_sound h).1).1.numbers
  exact ⟨o', body, hroot, hbody, by rw [hrest]; exact List.mem_cons_self ..⟩

/-- **Which patterns have a program.** What a tree looks up is always in the table. A program is
accepted just when the groups that capture are in it as well, and they are if the text is clear. -/
theorem program_accepted {text : String} (h : parse text o culture = .ok p)
    (hbranched : p.root.Everywhere Node.Branched) (hsize : p.code.words.size < 2 ^ 31)
    (hgroups : p.table.numbers.length < 2 ^ 31) :
    (p.root.Everywhere fun n => ∀ k ∈ n.lookups, k ∈ p.table.numbers) ∧
      ((∃ program, p.program = .ok program) ↔ p.root.Everywhere (Node.Named p.table.numbers)) ∧
      (Clear text.toList → p.program = .ok ⟨p.code, p.operations.toArray⟩) := by
  obtain ⟨culture', hread⟩ := parse_read h
  obtain ⟨_, r, hrun, hfinish, hholds⟩ := read_sound hread
  obtain ⟨o', body, hroot, hbody, hzero⟩ := read_root hread hfinish hholds
  have hshaped : p.root.Everywhere Node.Shaped := by
    rw [hroot, Node.everywhere_wrap] at hbranched ⊢
    exact ⟨trivial, fun s hs => (hbody s hs).shaped (hbranched.2 s hs)⟩
  have hreads := program_reads p hshaped hsize hgroups
  refine ⟨?_, hreads.isOk_iff, fun hclear => hreads.ok ?_⟩
  · rw [hroot, Node.everywhere_wrap]
    exact ⟨nofun, fun s hs => (hbody s hs).lookups_mem⟩
  · have hbelow := read_autocap hread hclear hrun hfinish
    rw [hroot, Node.everywhere_wrap]
    refine ⟨fun k hk => ?_, fun s hs => (hbody s hs).named hbelow⟩
    rw [List.mem_singleton.mp hk]
    exact hzero

theorem program_accepted_conditional :
    ∃ p, parse "(a)(?<n>\\1)(?(?=x)x|y)" {} .invariant = .ok p ∧
      p.program = .ok ⟨p.code, p.operations.toArray⟩ := by
  obtain ⟨p, hp, hcheck⟩ := exists_ok_of_check (parse "(a)(?<n>\\1)(?(?=x)x|y)" {} .invariant)
    (fun p => decide (p.root.Everywhere Node.Branched ∧ p.code.words.size < 2 ^ 31 ∧
      p.table.numbers.length < 2 ^ 31)) (by decide +kernel)
  obtain ⟨hbranched, hsize, hgroups⟩ := of_decide_eq_true hcheck
  exact ⟨p, hp, (program_accepted hp hbranched hsize hgroups).2.2 (by decide +kernel)⟩

/-- The reader takes the second backslash for the letter of a control character, and a group follows;
the survey takes it for an escape of the parenthesis. -/
theorem program_refused_control :
    ∃ p, parse "\\c\\(a)" {} .invariant = .ok p ∧ ∀ program, p.program ≠ .ok program := by
  obtain ⟨p, hp, hcheck⟩ := exists_ok_of_check (parse "\\c\\(a)" {} .invariant)
    (fun p => p.program.toOption.isNone) (by decide +kernel)
  refine ⟨p, hp, fun program hprogram => ?_⟩
  rw [hprogram] at hcheck
  cases hcheck

end Pattern
end PatternCompiler
