import MachineLang.Evaluation.Declaration
import Mathlib.Data.List.Nodup
import Mathlib.Order.Lattice.Nat

/-!
# Values on their tapes

Every value that is written in a transition is for one tape: the one that it names, or the one with
as many tapes in front of it as there are values without a name in front of the value (`Addresses`).
Putting the values on tapes one by one keeps what is there of the values so far, namely the last one
for each tape (`HoldsLast.set`), and fails at the first value for which there is no tape
(`settles_arrange`). So no value is lost if and only if those for the same tape are equal
(`arrange_holdsAll_iff`); of two different ones the first is dropped without an error
(`arrange_drops`).
-/

namespace MachineLang

variable {α : Type} {automaton : String} {tapes : List String} {span : Span} {found i j t t' : Nat}
  {neutral : α} {values before rest : List (TapeValue α)} {v w : TapeValue α}
  {arranged result : List α}

/-! ## Which tape a value is for -/

/-- The number of values that name no tape. -/
def unnamed (values : List (TapeValue α)) : Nat := values.countP (·.tape.isNone)

/-- Whether a value behind some others is for a tape: it names the tape, or the tape has as many
tapes in front of it as there are values without a name in front of the value. -/
def TapeValue.IsFor (tapes : List String) (before : List (TapeValue α)) (v : TapeValue α)
    (t : Nat) : Prop :=
  match v.tape with
  | some tape => tapes[t]? = some tape.name
  | none => t = unnamed before ∧ t < tapes.length

/-- Value number `i` of a list is for tape number `t`. -/
def Addresses (tapes : List String) (values : List (TapeValue α)) (i t : Nat) : Prop :=
  ∃ v, values[i]? = some v ∧ v.IsFor tapes (values.take i) t

/-- The error of a value for which there is no tape. -/
def TapeValue.error (v : TapeValue α) (automaton : String) (expected found : Nat) (span : Span) :
    EvaluationError :=
  match v.tape with
  | some tape => .unknownTape tape.name automaton tape.span
  | none => .tooManyTapes automaton expected found span

/-- A value is for one of the tapes. -/
theorem TapeValue.IsFor.lt (h : v.IsFor tapes before t) : t < tapes.length := by
  unfold IsFor at h
  split at h
  · exact (List.getElem?_eq_some_iff.1 h).1
  · exact h.2

/-- A value is for one tape only. -/
theorem TapeValue.IsFor.unique (hnodup : tapes.Nodup) (h : v.IsFor tapes before t)
    (h' : v.IsFor tapes before t') :
    t = t' := by
  have hlt := h.lt
  unfold IsFor at h h'
  split at h
  · next hname =>
    simp only [hname] at h'
    exact (List.getElem?_inj hlt hnodup).1 (h.trans h'.symm)
  · next hname =>
    simp only [hname] at h'
    exact h.1.trans h'.1.symm

namespace Addresses

/-- A value that is for a tape is one of the list. -/
theorem lt (h : Addresses tapes values i t) : i < values.length := by
  obtain ⟨v, hv, -⟩ := h
  exact (List.getElem?_eq_some_iff.1 hv).1

/-- It is for one of the tapes. -/
theorem lt_tapes (h : Addresses tapes values i t) : t < tapes.length := by
  obtain ⟨v, -, hfor⟩ := h
  exact hfor.lt

/-- It is for one tape only. -/
theorem unique (hnodup : tapes.Nodup) (h : Addresses tapes values i t)
    (h' : Addresses tapes values i t') : t = t' := by
  obtain ⟨v, hv, hfor⟩ := h
  obtain ⟨v', hv', hfor'⟩ := h'
  obtain rfl := Option.some.inj (hv.symm.trans hv')
  exact hfor.unique hnodup hfor'

/-- What stands behind a value does not matter. -/
theorem append_iff_of_lt (hi : i < before.length) :
    Addresses tapes (before ++ rest) i t ↔ Addresses tapes before i t := by
  unfold Addresses
  rw [List.getElem?_append_left hi, List.take_append_of_le_length (Nat.le_of_lt hi)]

/-- The value behind some others is for a tape where it is said to be. -/
theorem append_length_iff :
    Addresses tapes (before ++ v :: rest) before.length t ↔ v.IsFor tapes before t := by
  unfold Addresses
  rw [List.getElem?_append_right (Nat.le_refl _), Nat.sub_self, List.take_left]
  constructor
  · rintro ⟨_, hv, hfor⟩
    obtain rfl := Option.some.inj hv
    exact hfor
  · exact fun hfor => ⟨v, rfl, hfor⟩

/-- One more value is for its tape, and all others are for the same tapes as before. -/
theorem snoc_iff :
    Addresses tapes (before ++ [v]) i t ↔ Addresses tapes before i t ∨ i = before.length ∧
      v.IsFor tapes before t := by
  -- Adding a value at the end changes nothing for the places in front of it.
  rcases Nat.lt_or_ge i before.length with hi | hi
  · rw [append_iff_of_lt hi]
    exact (or_iff_left fun h => absurd h.1 (Nat.ne_of_lt hi)).symm
  · constructor
    · intro h
      have hlt := h.lt
      rw [List.length_append, List.length_singleton] at hlt
      obtain rfl : i = before.length := by omega
      exact .inr ⟨rfl, append_length_iff.1 h⟩
    · rintro (h | ⟨rfl, h⟩)
      · exact absurd h.lt (Nat.not_lt.2 hi)
      · exact append_length_iff.2 h

end Addresses

/-! ## What is on the tapes -/

/-- There is one value for each tape: the last one for it, or the neutral one if there is none for
it. -/
structure HoldsLast (tapes : List String) (neutral : α) (values : List (TapeValue α))
    (result : List α) : Prop where
  /-- There is one value for each tape. -/
  length_eq : result.length = tapes.length
  /-- The last value for a tape is on it. -/
  last : ∀ t i v, IsGreatest {i | Addresses tapes values i t} i → values[i]? = some v →
    result[t]? = some v.value
  /-- The neutral value is on every other tape. -/
  others : ∀ t < tapes.length, (∀ i, ¬ Addresses tapes values i t) → result[t]? = some neutral

/-- There is one value for each tape, and no value is lost: each one is on the tape that it is
for. -/
structure HoldsAll (tapes : List String) (neutral : α) (values : List (TapeValue α))
    (result : List α) : Prop where
  /-- There is one value for each tape. -/
  length_eq : result.length = tapes.length
  /-- Every value is on its tape. -/
  every : ∀ i v, values[i]? = some v → ∃ t, Addresses tapes values i t ∧ result[t]? = some v.value
  /-- The neutral value is on every other tape. -/
  others : ∀ t < tapes.length, (∀ i, ¬ Addresses tapes values i t) → result[t]? = some neutral

/-- Before any value the neutral one is on every tape. -/
theorem HoldsLast.nil : HoldsLast tapes neutral [] (List.replicate tapes.length neutral) where
  length_eq := List.length_replicate
  last t i v _ hv := absurd hv (by simp)
  others t ht _ := by rw [List.getElem?_replicate, if_pos ht]

/-- One more value is put on its tape, where it replaces the one that was there, so that the tapes
hold the last ones again. -/
theorem HoldsLast.set (hnodup : tapes.Nodup) (h : HoldsLast tapes neutral before arranged)
    (hfor : v.IsFor tapes before t) :
    HoldsLast tapes neutral (before ++ [v]) (arranged.set t v.value) where
  length_eq := by rw [List.length_set, h.length_eq]
  last t' i w hi hw := by
    obtain ⟨haddresses, hgreatest⟩ := hi
    by_cases ht : t = t'
    · -- The new value is the last one for its tape.
      subst ht
      have hle := hgreatest (Addresses.snoc_iff.2 (.inr ⟨rfl, hfor⟩))
      have hlt := haddresses.lt
      rw [List.length_append, List.length_singleton] at hlt
      obtain rfl : i = before.length := by omega
      rw [List.getElem?_concat_length] at hw
      obtain rfl := Option.some.inj hw
      exact List.getElem?_set_self (h.length_eq ▸ hfor.lt)
    · rcases Addresses.snoc_iff.1 haddresses with hold | ⟨-, hnew⟩
      · rw [List.getElem?_append_left hold.lt] at hw
        rw [List.getElem?_set_ne ht]
        exact h.last t' i w ⟨hold, fun j hj => hgreatest (Addresses.snoc_iff.2 (.inl hj))⟩ hw
      · exact absurd (hfor.unique hnodup hnew) ht
  others t' ht' hnone := by
    have ht : t ≠ t' := by
      rintro rfl
      exact hnone _ (Addresses.snoc_iff.2 (.inr ⟨rfl, hfor⟩))
    rw [List.getElem?_set_ne ht]
    exact h.others t' ht' fun i hi => hnone i (Addresses.snoc_iff.2 (.inl hi))

/-! ## Putting values on tapes -/

/-- How putting values on tapes ends: all have a tape, and the last one for each tape is on it; or
the first one for which there is no tape is to blame. -/
def Settles (automaton : String) (tapes : List String) (found : Nat) (span : Span) (neutral : α)
    (values : List (TapeValue α)) : Except EvaluationError (List α) → Prop
  | .ok result =>
    (∀ i < values.length, ∃ t, Addresses tapes values i t) ∧ HoldsLast tapes neutral values result
  | .error e => ∃ i v, values[i]? = some v ∧ (∀ t, ¬ Addresses tapes values i t) ∧
      (∀ j < i, ∃ t, Addresses tapes values j t) ∧ e = v.error automaton tapes.length found span

/-- The next value is put on the tape that it is for, and the others are arranged behind it; or
there is no such tape, and it is refused with an error of its own. -/
theorem arrangeFrom_cons (before : List (TapeValue α)) :
    (∃ t, v.IsFor tapes before t ∧
      arrangeFrom automaton tapes found span (unnamed before) (v :: rest) arranged =
        arrangeFrom automaton tapes found span (unnamed (before ++ [v])) rest
          (arranged.set t v.value)) ∨
    (∀ t, ¬ v.IsFor tapes before t) ∧
      arrangeFrom automaton tapes found span (unnamed before) (v :: rest) arranged =
        .error (v.error automaton tapes.length found span) := by
  -- A value without a name goes to the tape of its rank among those without one; a named value goes
  -- to the tape of that name.
  obtain ⟨_ | tape, value⟩ := v
  · have hcount : unnamed (before ++ [⟨none, value⟩]) = unnamed before + 1 := by simp [unnamed]
    rw [hcount, arrangeFrom]
    split_ifs with hlt
    · exact .inl ⟨_, ⟨rfl, hlt⟩, rfl⟩
    · refine .inr ⟨?_, rfl⟩
      rintro t ⟨rfl, ht⟩
      exact hlt ht
  · have hcount : unnamed (before ++ [⟨some tape, value⟩]) = unnamed before := by simp [unnamed]
    rw [hcount, arrangeFrom]
    cases hfind : tapes.findIdx? (· == tape.name) with
    | some t =>
      obtain ⟨hlt, hname, -⟩ := List.findIdx?_eq_some_iff_getElem.1 hfind
      exact .inl ⟨t, List.getElem?_eq_some_iff.2 ⟨hlt, beq_iff_eq.1 hname⟩, rfl⟩
    | none =>
      refine .inr ⟨fun t ht => ?_, rfl⟩
      have hne := List.findIdx?_eq_none_iff.1 hfind tape.name (List.mem_of_getElem? ht)
      exact absurd (beq_self_eq_true tape.name) (by rw [hne]; decide)

/-- Putting the rest of the values on tapes, when those in front of them are there. -/
theorem settles_arrangeFrom (hnodup : tapes.Nodup)
    (hbefore : ∀ i < before.length, ∃ t, Addresses tapes before i t)
    (h : HoldsLast tapes neutral before arranged) :
    Settles automaton tapes found span neutral (before ++ rest)
      (arrangeFrom automaton tapes found span (unnamed before) rest arranged) := by
  -- By induction on the values that are left: the tapes hold the last ones of those in front of
  -- them.
  induction rest generalizing before arranged with
  | nil =>
    rw [List.append_nil]
    exact ⟨hbefore, h⟩
  | cons v rest ih =>
    rcases arrangeFrom_cons (v := v) before with ⟨t, hfor, heq⟩ | ⟨hnone, heq⟩
    · have hbehind : ∀ i < (before ++ [v]).length, ∃ t, Addresses tapes (before ++ [v]) i t := by
        intro i hi
        rw [List.length_append, List.length_singleton] at hi
        rcases Nat.lt_or_eq_of_le (Nat.le_of_lt_succ hi) with hi | rfl
        · obtain ⟨t, ht⟩ := hbefore i hi
          exact ⟨t, Addresses.snoc_iff.2 (.inl ht)⟩
        · exact ⟨t, Addresses.snoc_iff.2 (.inr ⟨rfl, hfor⟩)⟩
      rw [heq, ← List.singleton_append, ← List.append_assoc]
      exact ih hbehind (h.set hnodup hfor)
    · rw [heq]
      refine ⟨before.length, v, ?_, fun t ht => hnone t (Addresses.append_length_iff.1 ht),
        fun j hj => ?_, rfl⟩
      · rw [List.getElem?_append_right (Nat.le_refl _), Nat.sub_self]
        rfl
      · obtain ⟨t, ht⟩ := hbefore j hj
        exact ⟨t, (Addresses.append_iff_of_lt hj).2 ht⟩

/-- Putting values on tapes, by one value after the other from neutral ones on. -/
theorem settles_arrange (hnodup : tapes.Nodup) (automaton : String) (span : Span) (neutral : α)
    (values : List (TapeValue α)) :
    Settles automaton tapes values.length span neutral values
      (arrange automaton tapes span neutral values) := by
  have hbefore : ∀ i < ([] : List (TapeValue α)).length, ∃ t,
      Addresses tapes ([] : List (TapeValue α)) i t :=
    fun _ hi => absurd hi (Nat.not_lt_zero _)
  exact settles_arrangeFrom hnodup hbefore .nil

/-! ## Values that are lost -/

/-- Values for the same tape are equal. -/
def Agree (tapes : List String) (values : List (TapeValue α)) : Prop :=
  ∀ i j t v w, Addresses tapes values i t → Addresses tapes values j t → values[i]? = some v →
    values[j]? = some w →
    v.value = w.value

/-- A tape that some value is for has a last one. -/
theorem exists_isGreatest_addresses (h : Addresses tapes values i t) :
    ∃ j w, IsGreatest {j | Addresses tapes values j t} j ∧ values[j]? = some w := by
  have hbounded : BddAbove {j | Addresses tapes values j t} :=
    ⟨values.length, fun j hj => Nat.le_of_lt hj.lt⟩
  have hmem := Nat.sSup_mem ⟨i, h⟩ hbounded
  obtain ⟨w, hw, -⟩ := id hmem
  exact ⟨_, w, ⟨hmem, fun j hj => le_csSup hbounded hj⟩, hw⟩

/-- If the last value for each tape is there, then all are if and only if those for the same tape
are equal. -/
theorem HoldsLast.holdsAll_iff (hnodup : tapes.Nodup)
    (hall : ∀ i < values.length, ∃ t, Addresses tapes values i t)
    (h : HoldsLast tapes neutral values result) :
    HoldsAll tapes neutral values result ↔ Agree tapes values := by
  constructor
  · -- Two values for one tape are both what stands on it.
    intro hholds i j t v w hi hj hv hw
    obtain ⟨t', hi', hvalue⟩ := hholds.every i v hv
    obtain ⟨t'', hj', hvalue'⟩ := hholds.every j w hw
    rw [← hi.unique hnodup hi'] at hvalue
    rw [← hj.unique hnodup hj', hvalue] at hvalue'
    exact Option.some.inj hvalue'
  · refine fun hagree => ⟨h.length_eq, fun i v hv => ?_, h.others⟩
    obtain ⟨t, ht⟩ := hall i (List.getElem?_eq_some_iff.1 hv).1
    -- The last value for the tape is there, and the given one equals it.
    obtain ⟨j, w, hj, hw⟩ := exists_isGreatest_addresses ht
    rw [hagree i j t v w ht hj.1 hv hw]
    exact ⟨t, ht, h.last t j w hj hw⟩

/-- On tapes with different names every value is put, the last one for each tape, or the first one
without a tape is refused; and no value is lost if and only if those for the same tape are equal. -/
theorem arrange_holdsAll_iff (hnodup : tapes.Nodup) (automaton : String) (span : Span) (neutral : α)
    (values : List (TapeValue α)) :
    Settles automaton tapes values.length span neutral values
      (arrange automaton tapes span neutral values) ∧
      ∀ result, arrange automaton tapes span neutral values = .ok result →
        (HoldsAll tapes neutral values result ↔ Agree tapes values) := by
  have hsettles := settles_arrange hnodup automaton span neutral values
  refine ⟨hsettles, fun result hresult => ?_⟩
  rw [hresult] at hsettles
  exact hsettles.2.holdsAll_iff hnodup hsettles.1

/-- A value for the last of three tapes by name, and one without a name. -/
def mixedValues : List (TapeValue Symbol) := [⟨some ⟨"z", .invalid⟩, ['c']⟩, ⟨none, ['a']⟩]

/-- Values with and without a name that are for different tapes are all there, and the tape for
which there is no value has the neutral one. -/
theorem arrange_holdsAll_mixed : ["x", "y", "z"].Nodup ∧
    arrange "t" ["x", "y", "z"] .invalid epsilon mixedValues = .ok [['a'], epsilon, ['c']] ∧
    HoldsAll ["x", "y", "z"] epsilon mixedValues [['a'], epsilon, ['c']] := by
  have hnodup : ["x", "y", "z"].Nodup := by decide
  have hnamed : Addresses ["x", "y", "z"] mixedValues 0 2 := ⟨_, rfl, rfl⟩
  have hunnamed : Addresses ["x", "y", "z"] mixedValues 1 0 := ⟨_, rfl, rfl, by decide⟩
  -- Each value is for a tape of its own, so there is nothing to disagree about.
  have hall : ∀ i t, Addresses ["x", "y", "z"] mixedValues i t → i = 0 ∧ t = 2 ∨ i = 1 ∧ t = 0 := by
    intro i t hi
    have hlt : i < 2 := hi.lt
    obtain rfl | rfl : i = 0 ∨ i = 1 := by omega
    · exact .inl ⟨rfl, hi.unique hnodup hnamed⟩
    · exact .inr ⟨rfl, hi.unique hnodup hunnamed⟩
  have hagree : Agree ["x", "y", "z"] mixedValues := by
    intro i j t v w hi hj hv hw
    have hi' := hall i t hi
    have hj' := hall j t hj
    obtain rfl : i = j := by omega
    exact congrArg TapeValue.value (Option.some.inj (hv.symm.trans hw))
  exact ⟨hnodup, rfl, ((arrange_holdsAll_iff hnodup "t" .invalid epsilon mixedValues).2 _ rfl).2
    hagree⟩

/-- Two different values for one tape, both by name. -/
def contradictingValues : List (TapeValue Symbol) :=
  [⟨some ⟨"x", .invalid⟩, ['a']⟩, ⟨some ⟨"x", .invalid⟩, ['b']⟩]

/-- Of two different values for one tape the first is dropped without an error. -/
theorem arrange_drops :
    arrange "t" ["x"] .invalid epsilon contradictingValues = .ok [['b']] ∧
      ¬ ∀ (automaton : String) (tapes : List String) (span : Span) (neutral : Symbol)
        (values : List (TapeValue Symbol)) (result : List Symbol), tapes.Nodup →
        arrange automaton tapes span neutral values = .ok result →
          HoldsAll tapes neutral values result := by
  refine ⟨rfl, fun hall => ?_⟩
  have hholds := hall "t" ["x"] .invalid epsilon contradictingValues [['b']] (by decide) rfl
  obtain ⟨t, ht, hvalue⟩ := hholds.every 0 ⟨some ⟨"x", .invalid⟩, ['a']⟩ rfl
  obtain rfl : t = 0 := Nat.lt_one_iff.1 ht.lt_tapes
  exact absurd hvalue (by decide)

end MachineLang
