import MachineLang.Proofs.Names
import Mathlib.Data.Nat.Init
import Mathlib.Data.Set.Function
import Mathlib.Order.Bounds.Basic

/-!
# Versions of names

The search for a fresh name counts on from the number at the end of the name. `ComputesVersion` says
which numbers it counts through, in exact arithmetic. There is a last one
(`isGreatest_freshVersion`), behind at most as many others as there are taken names, and its name is
free. In 64 bits the search goes as far as its numbers fit: `freshName?` fails exactly if it
computes one that does not (`freshName?_eq_none_iff`), and otherwise it gives the name of the last
number, which is the least one that gives a free name (`freshName?_eq_some_iff`).

When the states of a machine are renamed apart, there is a search for every state that both machines
have (`Machine.searches`). The renaming exists if all of these fit (`Machine.apart?_isSome_iff`),
and for that it is enough that the numbers in the names are smaller than the largest one of 64 bits
by the number of states (`Machine.apart?_isSome_of_lt`). If it exists, it is injective and gives no
name of the first machine (`Machine.setsApart`). But there are searches that do not fit
(`computesVersion_beyond`).
-/

namespace MachineLang

section

variable {base name : State} {taken : List State} {m n : Nat}

/-! ## The numbers of the search -/

/-- The numbers that the search for a fresh name counts through: the first one if the name is taken,
and one more whenever the name with a number is taken. -/
inductive ComputesVersion (base : State) (taken : List State) : Nat → Prop
  | first (h : base ∈ taken) : ComputesVersion base taken (firstVersion base)
  | next {n : Nat} (h : ComputesVersion base taken n) (htaken : versionName base n ∈ taken) :
      ComputesVersion base taken (n + 1)

/-- Some number has been counted up to if the names with all numbers in front of it are taken. -/
theorem computesVersion_of_taken (hbase : base ∈ taken) (hle : firstVersion base ≤ n)
    (htaken : ∀ i, firstVersion base ≤ i → i < n → versionName base i ∈ taken) :
    ComputesVersion base taken n := by
  induction n, hle using Nat.le_induction with
  | base => exact .first hbase
  | succ n hle ih =>
    refine .next (ih fun i hi hlt => htaken i hi (Nat.lt_succ_of_lt hlt)) ?_
    exact htaken n hle (Nat.lt_succ_self n)

/-- There is a search only if the name is taken. -/
theorem ComputesVersion.mem (h : ComputesVersion base taken n) : base ∈ taken := by
  induction h with
  | first hbase => exact hbase
  | next _ _ ih => exact ih

/-- The search counts no further than to a number whose name is free. -/
theorem ComputesVersion.le_of_free (h : ComputesVersion base taken m) (hle : firstVersion base ≤ n)
    (hfree : versionName base n ∉ taken) : m ≤ n := by
  induction h with
  | first => exact hle
  | next _ htaken ih => exact Nat.lt_of_le_of_ne ih fun heq => hfree (heq ▸ htaken)

/-! ## Where the search ends -/

/-- The search ends with the least number from the first one on that gives a free name. -/
theorem isLeast_freshVersion (base : State) (taken : List State) :
    IsLeast {n | firstVersion base ≤ n ∧ versionName base n ∉ taken} (freshVersion base taken) := by
  obtain ⟨i, -, heq, hfree, hothers⟩ := freshVersion_spec base taken
  rw [heq]
  refine ⟨⟨Nat.le_add_right _ i, hfree⟩, fun n hn => ?_⟩
  by_contra hlt
  obtain ⟨j, rfl⟩ := Nat.exists_eq_add_of_le hn.1
  exact hn.2 (hothers j (by omega))

/-- It is the last number that the search computes. -/
theorem isGreatest_freshVersion (hbase : base ∈ taken) :
    IsGreatest {n | ComputesVersion base taken n} (freshVersion base taken) := by
  obtain ⟨⟨hle, hfree⟩, hleast⟩ := isLeast_freshVersion base taken
  refine ⟨computesVersion_of_taken hbase hle fun i hi hlt => ?_,
    fun m hm => hm.le_of_free hle hfree⟩
  by_contra hi'
  exact absurd (hleast ⟨hi, hi'⟩) (Nat.not_le_of_lt hlt)

/-- The search passes no more numbers than there are taken names. -/
theorem freshVersion_le (base : State) (taken : List State) :
    freshVersion base taken ≤ firstVersion base + taken.length := by
  obtain ⟨i, hi, heq, -⟩ := freshVersion_spec base taken
  omega

/-! ## Counting with 64 bits -/

/-- The numbers of a search fit into 64 bits if and only if its last one does. -/
theorem forall_computesVersion_lt_iff :
    (∀ n, ComputesVersion base taken n → n < versionLimit) ↔
      (base ∈ taken → freshVersion base taken < versionLimit) := by
  constructor
  · exact fun hall hbase => hall _ (isGreatest_freshVersion hbase).1
  · exact fun hlast n hn => Nat.lt_of_le_of_lt ((isGreatest_freshVersion hn.mem).2 hn)
      (hlast hn.mem)

/-- In 64 bits, too, a name that is not taken is kept. -/
theorem freshName?_of_notMem (hbase : base ∉ taken) : freshName? base taken = some base := by
  have hcontains : taken.contains base = false := by simpa using hbase
  simp only [freshName?, freshName, hcontains, Bool.false_and, Bool.false_eq_true, if_false]

/-- In 64 bits a name that is taken gets the number that the search ends with, if that fits. -/
theorem freshName?_of_mem (hbase : base ∈ taken) : freshName? base taken =
    if freshVersion base taken < versionLimit then some (versionName base (freshVersion base taken))
    else none := by
  have hcontains : taken.contains base = true := List.contains_iff_mem.2 hbase
  simp only [freshName?, freshName, hcontains, Bool.true_and, if_true, decide_eq_true_eq]
  split_ifs <;> first | rfl | omega

/-- The search in 64 bits succeeds if and only if it computes no number that does not fit. -/
theorem freshName?_isSome_iff :
    (freshName? base taken).isSome ↔ ∀ n, ComputesVersion base taken n → n < versionLimit := by
  rw [forall_computesVersion_lt_iff]
  by_cases hbase : base ∈ taken
  · simp [freshName?_of_mem hbase, hbase]
  · simp [freshName?_of_notMem hbase, hbase]

/-- The search in 64 bits fails if and only if it computes a number that does not fit. -/
theorem freshName?_eq_none_iff :
    freshName? base taken = none ↔ ∃ n, ComputesVersion base taken n ∧ versionLimit ≤ n := by
  rw [← Option.not_isSome_iff_eq_none, freshName?_isSome_iff]
  push Not
  rfl

/-- The search in 64 bits finds the name itself if it is free, and otherwise its stem with the least
number from the first one on that gives a free name, if that number fits. -/
theorem freshName?_eq_some_iff : freshName? base taken = some name ↔
    (base ∉ taken ∧ name = base) ∨ (base ∈ taken ∧ ∃ n < versionLimit,
      IsLeast {n | firstVersion base ≤ n ∧ versionName base n ∉ taken} n ∧
        name = versionName base n) := by
  by_cases hbase : base ∈ taken
  · have hleast := isLeast_freshVersion base taken
    rw [freshName?_of_mem hbase, Option.ite_none_right_eq_some, Option.some.injEq]
    constructor
    · rintro ⟨hlt, rfl⟩
      exact .inr ⟨hbase, _, hlt, hleast, rfl⟩
    · rintro (⟨hfree, -⟩ | ⟨-, n, hlt, hn, rfl⟩)
      · exact absurd hbase hfree
      · rw [← hn.unique hleast]
        exact ⟨hlt, rfl⟩
  · rw [freshName?_of_notMem hbase, Option.some.injEq]
    constructor
    · exact fun heq => .inl ⟨hbase, heq.symm⟩
    · rintro (⟨-, heq⟩ | ⟨htaken, -⟩)
      · exact heq.symm
      · exact absurd htaken hbase

/-- What the search in 64 bits finds is what is found in exact numbers. -/
theorem eq_freshName_of_freshName?_eq_some (h : freshName? base taken = some name) :
    name = freshName base taken := by
  unfold freshName? at h
  split at h
  · exact absurd h.symm (Option.some_ne_none name)
  · exact (Option.some.inj h).symm

end

/-! ## Renaming apart -/

section

variable {own : SortedSet State} {taken : List String} {l : List State}

/-- The pairs of a renaming in 64 bits are those in exact numbers, by induction over the states:
each search that succeeds gives the same name. -/
theorem eq_namesApart_of_namesApart?_eq_some {pairs : List (State × State)}
    (h : namesApart? own taken l = some pairs) : pairs = namesApart own taken l := by
  -- By induction on the states, with more names taken behind each that is in both machines.
  induction l generalizing taken pairs with
  | nil => exact (Option.some.inj h).symm
  | cons state rest ih =>
    unfold namesApart? at h
    unfold namesApart
    split_ifs at h ⊢ with hown
    · obtain ⟨name, hname, more, hmore, heq⟩ : ∃ name, freshName? state taken = some name ∧
          ∃ more, namesApart? own (name :: taken) rest = some more ∧
            (state, name) :: more = pairs := by
        simpa [Option.bind_eq_some_iff] using h
      rw [← heq, ih hmore, eq_freshName_of_freshName?_eq_some hname]
    · obtain ⟨more, hmore, heq⟩ : ∃ more, namesApart? own taken rest = some more ∧
          (state, state) :: more = pairs := by
        simpa [Option.bind_eq_some_iff] using h
      rw [← heq, ih hmore]

/-- The pairs of a renaming are found in 64 bits if and only if every search for a name succeeds. -/
theorem namesApart?_isSome_iff : (namesApart? own taken l).isSome ↔
    ∀ e ∈ searchesApart own taken l, (freshName? e.1 e.2).isSome := by
  induction l generalizing taken with
  | nil => simp [namesApart?, searchesApart]
  | cons state rest ih =>
    unfold namesApart? searchesApart
    split_ifs with hown
    · cases hname : freshName? state taken with
      | none => simp [hname]
      | some name =>
        -- A search that succeeds gives the fresh name, so the later searches are those that are
        -- listed.
        obtain rfl := eq_freshName_of_freshName?_eq_some hname
        rw [List.forall_mem_cons, hname, ← ih]
        cases hmore : namesApart? own (freshName state taken :: taken) rest <;> simp [hmore]
    · rw [← ih]
      cases namesApart? own taken rest <;> simp

/-- A search for a name begins with a state that both machines have. Besides the names that are
taken at first, only the new names of other states are taken. -/
theorem searchesApart_bound {e : State × List String} (he : e ∈ searchesApart own taken l) :
    e.1 ∈ own ∧ e.1 ∈ l ∧ e.2.length < taken.length + l.length := by
  -- Every state gives at most one new name, so each search finds at most one more name taken than
  -- the one before it.
  induction l generalizing taken with
  | nil => simp [searchesApart] at he
  | cons state rest ih =>
    unfold searchesApart at he
    split_ifs at he with hown
    · rcases List.mem_cons.1 he with rfl | he
      · refine ⟨SortedSet.contains_iff.1 hown, List.mem_cons_self, ?_⟩
        exact Nat.lt_add_of_pos_right (Nat.succ_pos rest.length)
      · obtain ⟨hmem, hrest, hlength⟩ := ih he
        refine ⟨hmem, List.mem_cons_of_mem _ hrest, ?_⟩
        rw [List.length_cons] at hlength ⊢
        omega
    · obtain ⟨hmem, hrest, hlength⟩ := ih he
      refine ⟨hmem, List.mem_cons_of_mem _ hrest, ?_⟩
      rw [List.length_cons]
      omega

end

namespace Machine

variable {k : MachineKind} {m other : Machine k} {r : Renaming}

/-- A renaming in 64 bits is the one in exact numbers. -/
theorem eq_apart_of_apart?_eq_some (h : m.apart? other = some r) : r = m.apart other := by
  unfold apart? at h
  obtain ⟨pairs, hpairs, heq⟩ := Option.map_eq_some_iff.1 h
  rw [← heq, eq_namesApart_of_namesApart?_eq_some hpairs]
  rfl

/-- The states of another machine are renamed in 64 bits if and only if no search for a new name
computes a number that does not fit. -/
theorem apart?_isSome_iff : (m.apart? other).isSome ↔
    ∀ e ∈ m.searches other, ∀ n, ComputesVersion e.1 e.2 n → n < versionLimit := by
  unfold apart? searches
  rw [Option.isSome_map, namesApart?_isSome_iff]
  exact forall₂_congr fun e _ => freshName?_isSome_iff

/-- They are renamed if the numbers in the names of the states that both machines have are smaller
than the largest one of 64 bits by the number of states: a search passes fewer numbers than there
are states, where those of the other machine count twice because of their new names. -/
theorem apart?_isSome_of_lt (h : ∀ q ∈ m.states, q ∈ other.states →
    firstVersion q + (m.states.toList.length + 2 * other.states.toList.length) ≤ versionLimit) :
    (m.apart? other).isSome := by
  rw [apart?_isSome_iff]
  intro e he n hn
  obtain ⟨hown, hother, hlength⟩ := searchesApart_bound he
  have hroom := h e.1 hown hother
  have hlast := (isGreatest_freshVersion hn.mem).2 hn
  have hle := freshVersion_le e.1 e.2
  rw [List.length_append] at hlength
  omega

/-- The states of the other machine get names of their own: none is left out, none is given twice,
and none is one of the first machine. -/
structure IsApart (m other : Machine k) (r : Renaming) : Prop where
  /-- Every state of the other machine, and nothing else, gets a name. -/
  names : ∀ q, (∃ name, r.find? q = some name) ↔ q ∈ other.states
  /-- Different states get different names. -/
  injective : Set.InjOn r.rename {q | q ∈ other.states}
  /-- No name is one of the first machine. -/
  disjoint : ∀ q ∈ other.states, r.rename q ∉ m.states

/-- The renaming in exact numbers sets machines apart, whatever their states are called: every
search ends with a name that is not taken. -/
theorem isApart_apart (m other : Machine k) : m.IsApart other (m.apart other) where
  names q := by
    have hnodup : ((namesApart m.states (m.states.toList ++ other.states.toList)
        other.states.toList).map Prod.fst).Nodup := by
      rw [map_fst_namesApart]
      exact other.states.nodup_toList
    have hcontains := Renaming.contains_ofList_iff (q := q) hnodup
    rw [map_fst_namesApart] at hcontains
    rw [← Option.isSome_iff_exists]
    exact hcontains
  injective _ hp _ hq h := rename_apart_injective hp hq h
  disjoint _ hq := rename_apart_notMem hq

/-- How the states of another machine are renamed in 64 bits. -/
structure SetsApart (m other : Machine k) : Prop where
  /-- If they are renamed, they get names of their own. -/
  isApart : ∀ r, m.apart? other = some r → m.IsApart other r
  /-- They are renamed if and only if all numbers of the searches for their names fit. -/
  isSome_iff : (m.apart? other).isSome ↔
    ∀ e ∈ m.searches other, ∀ n, ComputesVersion e.1 e.2 n → n < versionLimit
  /-- This is so if the numbers in the names that both machines have are not too large. -/
  isSome_of_lt : (∀ q ∈ m.states, q ∈ other.states →
    firstVersion q + (m.states.toList.length + 2 * other.states.toList.length) ≤ versionLimit) →
    (m.apart? other).isSome

/-- Renaming apart sets machines apart: whatever the names, no two states share one afterwards. -/
theorem setsApart (m other : Machine k) : m.SetsApart other where
  isApart r h := by
    rw [eq_apart_of_apart?_eq_some h]
    exact isApart_apart m other
  isSome_iff := apart?_isSome_iff
  isSome_of_lt := apart?_isSome_of_lt

end Machine

/-! ## Fresh names -/

/-- How the search for a fresh name ends. -/
structure FindsVersion (base : State) (taken : List State) : Prop where
  /-- The name that is found is not taken. -/
  notMem : ∀ name, freshName? base taken = some name → name ∉ taken
  /-- It is the name itself if that is free, and otherwise its stem with the least number from the
  first one on that gives a free name, if that number fits into 64 bits. -/
  finds_iff : ∀ name, freshName? base taken = some name ↔
    (base ∉ taken ∧ name = base) ∨ (base ∈ taken ∧ ∃ n < versionLimit,
      IsLeast {n | firstVersion base ≤ n ∧ versionName base n ∉ taken} n ∧
        name = versionName base n)
  /-- The search in exact numbers has a last number, behind at most as many others as names are
  taken. -/
  last : base ∈ taken → ∃ n ≤ firstVersion base + taken.length,
    IsGreatest {n | ComputesVersion base taken n} n
  /-- Nothing is found if and only if a number of the search does not fit into 64 bits. -/
  fails_iff : freshName? base taken = none ↔ ∃ n, ComputesVersion base taken n ∧ versionLimit ≤ n
  /-- All numbers of the search fit if and only if one that does gives a free name. -/
  fits_iff : (∀ n, ComputesVersion base taken n → n < versionLimit) ↔
    (base ∈ taken → ∃ n, firstVersion base ≤ n ∧ n < versionLimit ∧ versionName base n ∉ taken)

/-- The search for a fresh name ends as described. -/
theorem findsVersion (base : State) (taken : List State) : FindsVersion base taken where
  notMem name h := by
    rw [eq_freshName_of_freshName?_eq_some h]
    exact freshName_notMem base taken
  finds_iff name := freshName?_eq_some_iff
  last hbase := ⟨_, freshVersion_le base taken, isGreatest_freshVersion hbase⟩
  fails_iff := freshName?_eq_none_iff
  fits_iff := by
    rw [forall_computesVersion_lt_iff]
    obtain ⟨hmem, hleast⟩ := isLeast_freshVersion base taken
    refine forall_congr' fun _ => ⟨fun hlt => ⟨_, hmem.1, hlt, hmem.2⟩, ?_⟩
    exact fun ⟨n, hle, hlt, hfree⟩ => Nat.lt_of_le_of_lt (hleast ⟨hle, hfree⟩) hlt

/-- The search for a fresh name ends, behind no more numbers than there are taken names. It finds a
name that is not taken, with the least number that gives one, unless that number does not fit into
64 bits. So the states of another machine get names apart from those of the first machine and from
each other, unless one of these searches fails. -/
theorem freshName_findsVersion (base : State) (taken : List State) :
    FindsVersion base taken ∧ ∀ {k : MachineKind} (m other : Machine k), m.SetsApart other :=
  ⟨findsVersion base taken, fun m other => m.setsApart other⟩

/-- A number with a leading zero, behind which the next one is taken: the search computes 10 and 11,
and both fit. -/
theorem freshName_leadingZero : "q09" ∈ ["q10", "q09"] ∧
    freshName? "q09" ["q10", "q09"] = some "q11" ∧
    ∀ n, ComputesVersion "q09" ["q10", "q09"] n → n < versionLimit := by
  -- The number 09 is read as 9, and 10, which is next, is taken.
  have hfirst : firstVersion "q09" = 10 := by decide +kernel
  have hfree : versionName "q09" 11 ∉ ["q10", "q09"] := by decide +kernel
  have hten : versionName "q09" 10 ∈ ["q10", "q09"] := by decide +kernel
  have hends := (freshName_findsVersion "q09" ["q10", "q09"]).1
  have hleast : IsLeast {n | firstVersion "q09" ≤ n ∧ versionName "q09" n ∉ ["q10", "q09"]} 11 := by
    refine ⟨⟨by omega, hfree⟩, fun n hn => ?_⟩
    by_contra hlt
    obtain rfl : n = 10 := by
      have := hn.1
      omega
    exact hn.2 hten
  refine ⟨by decide, (hends.finds_iff "q11").2 ?_, hends.fits_iff.2 fun _ => ?_⟩
  · exact .inr ⟨by decide, 11, by decide, hleast, by decide +kernel⟩
  · exact ⟨11, by omega, by decide, hfree⟩

/-- The numbers of a search need not fit into 64 bits: behind the largest one comes its successor,
so the search for a name fails. -/
theorem computesVersion_beyond :
    freshName? "q18446744073709551615" ["q18446744073709551615"] = none ∧
      ComputesVersion "q18446744073709551615" ["q18446744073709551615"] 18446744073709551616 ∧
      ¬ ∀ (base : State) (taken : List State), (∃ name, freshName? base taken = some name) ∧
        ∀ n, ComputesVersion base taken n → n < versionLimit := by
  have hfirst : firstVersion "q18446744073709551615" = 18446744073709551616 := by decide +kernel
  have hcomputes : ComputesVersion "q18446744073709551615" ["q18446744073709551615"]
      18446744073709551616 := hfirst ▸ .first List.mem_cons_self
  have hlimit : versionLimit ≤ 18446744073709551616 := by decide
  refine ⟨freshName?_eq_none_iff.2 ⟨_, hcomputes, hlimit⟩, hcomputes, fun hall => ?_⟩
  exact absurd ((hall _ _).2 _ hcomputes) (Nat.not_lt_of_le hlimit)

end MachineLang
