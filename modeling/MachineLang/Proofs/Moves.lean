/-!
# Counted moves

`Moves r n a b` says that `n` moves of a relation lead from one point to another. Bounded searches
are measured by the number of moves that they explore, so the number is part of the relation. A
simulation of one relation by another carries counted moves over (`Moves.simulate`).
-/

namespace MachineLang

/-- A number of moves of a relation, one behind the other. -/
inductive Moves {α : Type} (r : α → α → Prop) : Nat → α → α → Prop
  /-- No move leads nowhere else. -/
  | refl (a : α) : Moves r 0 a a
  /-- A move in front of others is one more move. -/
  | step {n : Nat} {a b c : α} : r a b → Moves r n b c → Moves r (n + 1) a c

namespace Moves

variable {α β : Type} {r s : α → α → Prop} {a b c : α} {n : Nat}

/-- No moves stay where they are. -/
@[simp] theorem zero_iff : Moves r 0 a b ↔ a = b := by
  constructor
  · intro h
    cases h
    rfl
  · rintro rfl
    exact refl a

/-- A positive number of moves begins with a move. -/
theorem succ_iff : Moves r (n + 1) a c ↔ ∃ b, r a b ∧ Moves r n b c := by
  constructor
  · intro h
    cases h with
    | step hab hbc => exact ⟨_, hab, hbc⟩
  · rintro ⟨b, hab, hbc⟩
    exact step hab hbc

/-- Moves can be followed by others. -/
theorem trans {m : Nat} (h : Moves r m a b) (h' : Moves r n b c) : Moves r (m + n) a c := by
  induction h with
  | refl a => rwa [Nat.zero_add]
  | step hab _ ih =>
    rw [Nat.succ_add]
    exact step hab (ih h')

/-- More moves begin with fewer moves. -/
theorem prefix_of_le {m : Nat} (h : Moves r n a c) (hm : m ≤ n) : ∃ b, Moves r m a b := by
  induction m generalizing n a with
  | zero => exact ⟨a, refl a⟩
  | succ m ih =>
    obtain ⟨n, rfl⟩ : ∃ i, n = i + 1 := ⟨n - 1, by omega⟩
    obtain ⟨b, hab, hbc⟩ := succ_iff.1 h
    obtain ⟨d, hbd⟩ := ih hbc (by omega)
    exact ⟨d, step hab hbd⟩

/-- Moves of a relation are moves of every wider one. -/
theorem mono (h : Moves r n a b) (hrs : ∀ a b, r a b → s a b) : Moves s n a b := by
  induction h with
  | refl a => exact refl a
  | step hab _ ih => exact step (hrs _ _ hab) ih

/-- If every move can be followed from related points to related points, so can any number of
moves. -/
theorem simulate {t : β → β → Prop} {R : α → β → Prop}
    (hstep : ∀ a b a', R a a' → r a b → ∃ b', t a' b' ∧ R b b')
    (h : Moves r n a b) {a' : β} (ha : R a a') : ∃ b', Moves t n a' b' ∧ R b b' := by
  induction h generalizing a' with
  | refl a => exact ⟨a', refl a', ha⟩
  | step hab _ ih =>
    obtain ⟨b', hab', hb⟩ := hstep _ _ _ ha hab
    obtain ⟨c', hbc', hc⟩ := ih hb
    exact ⟨c', step hab' hbc', hc⟩

end Moves

end MachineLang
