import MachineLang.Proofs.Moves
import Mathlib.Data.List.Perm.Subperm

/-!
# Paths that come back

A path that makes as many moves as there are points to visit visits one of them twice: it goes round
a loop (`Moves.isLooped_of_length_le`). Loops can be left out, so whatever can be reached at all is
reached by fewer moves than there are points (`Moves.exists_lt_length`). The points are those of a
list; no type has to be finite.
-/

namespace MachineLang

/-- A path of `n` moves comes back to one of its points. -/
def IsLooped {α : Type} (r : α → α → Prop) (n : Nat) (a b : α) : Prop :=
  ∃ p before around after, 0 < around ∧ before + around + after = n ∧
    Moves r before a p ∧ Moves r around p p ∧ Moves r after p b

namespace Moves

variable {α : Type} {r : α → α → Prop} {a b c : α} {n : Nat} {points : List α}

/-- A path comes back to one of its points, or they are all different. In the second case it visits
as many points as it has steps, and one more. -/
theorem isLooped_or_nodup (h : Moves r n a b) :
    IsLooped r n a b ∨ ∃ visited : List α, visited.Nodup ∧ visited.length = n + 1 ∧
      ∀ p ∈ visited, ∃ before after, before + after = n ∧ Moves r before a p ∧
        Moves r after p b := by
  induction h with
  | refl a =>
    refine .inr ⟨[a], List.nodup_cons.2 ⟨List.not_mem_nil, List.nodup_nil⟩, rfl, fun p hp => ?_⟩
    rw [List.mem_singleton] at hp
    subst hp
    exact ⟨0, 0, rfl, .refl p, .refl p⟩
  | @step n a b c hab hbc ih =>
    rcases ih with ⟨p, before, around, after, hpos, hsum, hbefore, haround, hafter⟩ |
      ⟨visited, hnodup, hlength, hvisited⟩
    · exact .inl ⟨p, before + 1, around, after, hpos, by omega, .step hab hbefore, haround, hafter⟩
    · by_cases ha : a ∈ visited
      · -- The rest of the path comes back to the point where it begins.
        obtain ⟨before, after, hsum, hbefore, hafter⟩ := hvisited a ha
        exact .inl ⟨a, 0, before + 1, after, by omega, by omega, .refl a, .step hab hbefore, hafter⟩
      · refine .inr ⟨a :: visited, List.nodup_cons.2 ⟨ha, hnodup⟩, ?_, fun p hp => ?_⟩
        · rw [List.length_cons, hlength]
        · rcases List.mem_cons.1 hp with rfl | hp
          · exact ⟨0, n + 1, by omega, .refl p, .step hab hbc⟩
          · obtain ⟨before, after, hsum, hbefore, hafter⟩ := hvisited p hp
            exact ⟨before + 1, after, by omega, .step hab hbefore, hafter⟩

/-- A path that makes as many moves as there are points comes back to one of them. -/
theorem isLooped_of_length_le (hpoints : ∀ i p, Moves r i a p → p ∈ points) (h : Moves r n a b)
    (hn : points.length ≤ n) : IsLooped r n a b := by
  rcases h.isLooped_or_nodup with hloop | ⟨visited, hnodup, hlength, hvisited⟩
  · exact hloop
  · -- The points on the path would be more than there are.
    have hsubset : visited ⊆ points := by
      intro p hp
      obtain ⟨before, after, -, hbefore, -⟩ := hvisited p hp
      exact hpoints before p hbefore
    have hle : visited.length ≤ points.length := (hnodup.subperm hsubset).length_le
    omega

/-- What can be reached is reached by fewer moves than there are points. -/
theorem exists_lt_length (hpoints : ∀ i p, Moves r i a p → p ∈ points) (h : Moves r n a b) :
    ∃ i < points.length, Moves r i a b := by
  induction n using Nat.strongRecOn with
  | ind n ih =>
    rcases Nat.lt_or_ge n points.length with hn | hn
    · exact ⟨n, hn, h⟩
    · -- Without its loop the path is shorter.
      obtain ⟨p, before, around, after, hpos, hsum, hbefore, -, hafter⟩ :=
        h.isLooped_of_length_le hpoints hn
      exact ih (before + after) (by omega) (hbefore.trans hafter)

end Moves

end MachineLang
