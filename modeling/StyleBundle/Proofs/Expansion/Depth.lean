import StyleBundle.Proofs.Expansion.Assembly
import StyleBundle.Proofs.Source.Memory

/-!
# The depth of expansion is enough

Expansion follows chains of at most `Catalog.depth` files and calls a longer chain circular.  The
paths in flight are one chain of readable files.  `Catalog.Room` says how many files can still
follow them.

At the start there is room for as many files as the limit of the source says
(`Catalog.room_empty`), and every file that comes into flight takes one place
(`Catalog.Room.enter`).  So there is always depth left for a file that is not in flight.  In
particular a result does not depend on the depth that it was found with
(`Catalog.fileOutcome_of_room`).
-/

namespace StyleBundle

namespace Catalog

variable {c : Catalog} {flight : InFlight}

theorem contains_entered {p q : Path} :
    (entered flight p).contains q = true ↔
      q.components = p.normalize.components ∨ flight.contains q = true :=
  Path.isIn_cons

/-- At most `n` readable files with different normal paths can follow the files in flight. -/
def Room (s : Source) (flight : InFlight) (n : Nat) : Prop :=
  ∀ chain : List Path,
    (∀ p ∈ chain, (∃ text, s.read p = .ok text) ∧ flight.contains p.normalize = false) →
      chain.Pairwise (fun p q => p.normalize ≠ q.normalize) → chain.length ≤ n

theorem room_empty {s : Source} (h : s.Lawful) :
    Room s .empty s.chainLimit :=
  fun chain hchain => h.bounded chain fun p hp => (hchain p hp).1

/-- A file that comes into flight takes one place. -/
theorem Room.enter {s : Source} {n : Nat} (h : Room s flight n) {p : Path} {text : Text}
    (hread : s.read p = .ok text) (hp : flight.contains p.normalize = false) :
    ∃ below, n = below + 1 ∧ Room s (entered flight p) below := by
  have hextend : ∀ chain : List Path,
      (∀ q ∈ chain, (∃ text, s.read q = .ok text) ∧
        (entered flight p).contains q.normalize = false) →
      chain.Pairwise (fun p q => p.normalize ≠ q.normalize) → (p :: chain).length ≤ n := by
    intro chain hchain hne
    have hout : ∀ q ∈ chain, ¬ (q.normalize.components = p.normalize.components ∨
        flight.contains q.normalize = true) := by
      intro q hq
      rw [← contains_entered, (hchain q hq).2]
      simp
    apply h (p :: chain)
    · intro q hq
      rcases List.mem_cons.1 hq with rfl | hq
      · exact ⟨⟨text, hread⟩, hp⟩
      · have hq' := hout q hq
        rw [not_or, Bool.not_eq_true] at hq'
        exact ⟨(hchain q hq).1, hq'.2⟩
    · refine List.pairwise_cons.2 ⟨fun q hq heq => ?_, hne⟩
      exact hout q hq (.inl (by rw [heq]))
  have hone := hextend [] (by simp) List.Pairwise.nil
  rw [List.length_singleton] at hone
  refine ⟨n - 1, by omega, fun chain hchain hne => ?_⟩
  have hmore := hextend chain hchain hne
  rw [List.length_cons] at hmore
  omega

/-- A result that some depth is enough for is found whenever there is no room for more. -/
theorem fileOutcome_of_room {depth n : Nat} {p : Path} {e : Expanded}
    (hroom : Room c.source flight n) (h : c.fileOutcome depth flight p = .ok e) :
    c.fileOutcome (n + 1) flight p = .ok e := by
  induction depth generalizing n flight p e with
  | zero => exact absurd h fileOutcome_zero_ne_ok
  | succ depth ih =>
    obtain ⟨text, hread, hcontains, hassembled⟩ := fileOutcome_eq_ok_iff.1 h
    obtain ⟨less, rfl, hless⟩ := hroom.enter hread hcontains
    refine fileOutcome_eq_ok_iff.2 ⟨text, hread, hcontains, ?_⟩
    exact hassembled.imp fun d _ r e' _ hchild _ => ih hless hchild

end Catalog

end StyleBundle
