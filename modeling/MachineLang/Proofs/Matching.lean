import MachineLang.Machine.Basic

/-!
# Reading and matching

A machine reads one symbol from each of its tapes, from all of them with the same width except that
it only reads the tops of stacks (`MachineKind.getElem?_read`). A pattern matches if each of its
symbols is what was read from its tape, or empty (`matchesRead_iff`, `matchesRead_read_iff`); a
literal match leaves no exception for the empty symbol (`matchesRead_literal_iff`).
-/

namespace MachineLang

variable {k : MachineKind} {pattern read : List Symbol} {x y : Symbol} {width : Nat}

/-! ## Reading -/

namespace MachineKind

/-- The width with which a kind of machines reads the tape with a number: one for stacks. -/
def widthAt (k : MachineKind) (width i : Nat) : Nat :=
  if k = .pushdown ∧ i ≠ 0 then 1 else width

/-- One symbol is read from each tape. -/
theorem length_read (k : MachineKind) (width : Nat) (tapes : List Tape) :
    (k.read width tapes).length = tapes.length := by
  cases k with
  | finite => exact List.length_map _
  | turing => exact List.length_map _
  | pushdown =>
    cases tapes with
    | nil => rfl
    | cons input rest =>
      show (input.read width :: rest.map fun stack => stack.read 1).length = _
      rw [List.length_cons, List.length_map, List.length_cons]

/-- The symbol that is read from a tape. -/
theorem getElem?_read (k : MachineKind) (width i : Nat) (tapes : List Tape) :
    (k.read width tapes)[i]? = tapes[i]?.map fun t => t.read (k.widthAt width i) := by
  unfold widthAt
  cases k with
  | finite => exact List.getElem?_map
  | turing => exact List.getElem?_map
  | pushdown =>
    cases tapes with
    | nil => rfl
    | cons input rest =>
      cases i with
      | zero => rfl
      | succ i => exact List.getElem?_map

end MachineKind

/-! ## Matching -/

/-- One symbol matches what is read from the only tape if it is that or empty. -/
theorem matchesRead_singleton_iff : matchesRead false [x] [y] = true ↔ x = y ∨ x = epsilon := by
  simp [matchesRead]

/-- A pattern matches if its first symbol matches and the others do. -/
theorem matchesRead_cons_iff :
    matchesRead false (x :: pattern) (y :: read) = true ↔
      matchesRead false [x] [y] = true ∧ matchesRead false pattern read = true := by
  simp only [matchesRead, Bool.and_true, Bool.and_eq_true]

/-- A pattern matches if each of its symbols is what was read from its tape, or empty. -/
theorem matchesRead_iff :
    matchesRead false pattern read = true ↔ pattern.length = read.length ∧
      ∀ (i : Nat) (x y : Symbol), pattern[i]? = some x → read[i]? = some y → x = y ∨
        x = epsilon := by
  induction pattern generalizing read with
  | nil => cases read <;> simp [matchesRead]
  | cons x pattern ih =>
    cases read with
    | nil => simp [matchesRead]
    | cons y read =>
      rw [matchesRead_cons_iff, matchesRead_singleton_iff, ih, List.length_cons, List.length_cons,
        Nat.add_right_cancel_iff]
      constructor
      · -- The first tape by the comparison of the two heads, the others by the induction.
        rintro ⟨hxy, hlength, hrest⟩
        refine ⟨hlength, fun i => ?_⟩
        cases i with
        | zero => simpa using hxy
        | succ i => exact hrest i
      · rintro ⟨hlength, hall⟩
        exact ⟨hall 0 x y rfl rfl, hlength, fun i => hall (i + 1)⟩

/-- A pattern matches the tapes if each of its symbols is what its tape reads, or empty. -/
theorem matchesRead_read_iff {tapes : List Tape} :
    matchesRead false pattern (k.read width tapes) = true ↔ pattern.length = tapes.length ∧
      ∀ (i : Nat) (x : Symbol) (t : Tape), pattern[i]? = some x → tapes[i]? = some t →
        x = t.read (k.widthAt width i) ∨ x = epsilon := by
  rw [matchesRead_iff, k.length_read]
  refine and_congr_right fun _ => ?_
  simp only [k.getElem?_read, Option.map_eq_some_iff]
  constructor
  · exact fun h i x t hx ht => h i x _ hx ⟨t, ht, rfl⟩
  · rintro h i x _ hx ⟨t, ht, rfl⟩
    exact h i x t hx ht

/-- A pattern that reads nothing matches whatever is read from as many tapes. -/
theorem matchesRead_epsilon {n : Nat} (h : read.length = n) :
    matchesRead false (List.replicate n epsilon) read = true := by
  refine matchesRead_iff.2 ⟨?_, fun i x y hx _ => .inr ?_⟩
  · rw [List.length_replicate, h]
  · exact List.eq_of_mem_replicate (List.mem_of_getElem? hx)

/-- A literal match is equality, without the empty symbol as a wildcard. -/
theorem matchesRead_literal_iff : matchesRead true pattern read = true ↔ pattern = read := by
  induction pattern generalizing read with
  | nil => cases read <;> simp [matchesRead]
  | cons x pattern ih =>
    cases read with
    | nil => simp [matchesRead]
    | cons y read => simp [matchesRead, ih]

end MachineLang
