import MachineLang.Machine.Rename
import Mathlib.Data.List.Nodup
import Mathlib.Data.List.Perm.Subperm
import Std.Data.String.ToNat

/-!
# Names that stay apart

Three facts about names carry the constructions on machines. A fresh name is not taken
(`freshName_notMem`). The states of a second machine get names that are apart from those of the
first and from each other (`rename_apart_notMem`, `rename_apart_injective`). A composite name tells
its set of states, as long as no member has a comma in its name (`splitComposite_compositeName`).
-/

namespace MachineLang

/-! ## Fresh names -/

/-- Different numbers make different names, since they are written behind the same stem. -/
theorem versionName_injective (base : State) : Function.Injective (versionName base) := by
  intro i j h
  exact Nat.repr_injective ((String.append_right_inj (.ofList (stem base.toList))).1 h)

/-- The search ends with a number behind some others whose names are taken. The name of its own is
free, or there are no tries left. -/
theorem exists_freshVersionFrom_eq (base : State) (taken : List State) (tries version : Nat) :
    ∃ i ≤ tries, freshVersionFrom base taken tries version = version + i ∧
      (∀ j < i, versionName base (version + j) ∈ taken) ∧
      (versionName base (version + i) ∈ taken → i = tries) := by
  -- By induction on the tries: a number whose name is taken is one more in front of the last one.
  induction tries generalizing version with
  | zero => exact ⟨0, Nat.le_refl 0, rfl, fun j hj => absurd hj (Nat.not_lt_zero j), fun _ => rfl⟩
  | succ tries ih =>
    unfold freshVersionFrom
    split_ifs with htaken
    · obtain ⟨i, hi, heq, hothers, hlast⟩ := ih (version + 1)
      have hshift : ∀ j, version + 1 + j = version + (j + 1) := fun j => by omega
      refine ⟨i + 1, Nat.succ_le_succ hi, hshift i ▸ heq, fun j hj => ?_, fun h => ?_⟩
      · cases j with
        | zero => exact List.contains_iff_mem.1 htaken
        | succ j => exact hshift j ▸ hothers j (Nat.lt_of_succ_lt_succ hj)
      · exact congrArg (· + 1) (hlast (hshift i ▸ h))
    · exact ⟨0, Nat.zero_le _, rfl, fun j hj => absurd hj (Nat.not_lt_zero j),
        fun h => absurd (List.contains_iff_mem.2 h) htaken⟩

/-- Of one more number than there are taken names, one gives a free name. -/
theorem exists_versionName_notMem (base : State) (taken : List State) (first : Nat) :
    ∃ i ≤ taken.length, versionName base (first + i) ∉ taken := by
  by_contra! htaken
  -- All candidates would be taken: different names, and one more than there are taken ones.
  have hnodup : ((List.range (taken.length + 1)).map fun i => versionName base (first + i)).Nodup :=
    List.nodup_range.map fun i j h => Nat.add_left_cancel (versionName_injective base h)
  have hsub : ((List.range (taken.length + 1)).map fun i => versionName base (first + i))
      ⊆ taken := by
    intro name hname
    obtain ⟨i, hi, rfl⟩ := List.mem_map.1 hname
    exact htaken i (Nat.le_of_lt_succ (List.mem_range.1 hi))
  have hle := (hnodup.subperm hsub).length_le
  rw [List.length_map, List.length_range] at hle
  omega

/-- The search ends with the least number from the first one on whose name is free, and passes no
more numbers than there are taken names. -/
theorem freshVersion_spec (base : State) (taken : List State) :
    ∃ i ≤ taken.length, freshVersion base taken = firstVersion base + i ∧
      versionName base (firstVersion base + i) ∉ taken ∧
      ∀ j < i, versionName base (firstVersion base + j) ∈ taken := by
  obtain ⟨i, hi, heq, hothers, hlast⟩ :=
    exists_freshVersionFrom_eq base taken taken.length (firstVersion base)
  refine ⟨i, hi, heq, fun hmem => ?_, hothers⟩
  -- If the tries ran out, the free number would be behind them or among those that are taken.
  obtain rfl := hlast hmem
  obtain ⟨j, hj, hfree⟩ := exists_versionName_notMem base taken (firstVersion base)
  rcases Nat.lt_or_eq_of_le hj with hlt | rfl
  · exact hfree (hothers j hlt)
  · exact hfree hmem

/-- The name of the number that the search ends with is free. -/
theorem versionName_freshVersion_notMem (base : State) (taken : List State) :
    versionName base (freshVersion base taken) ∉ taken := by
  obtain ⟨i, -, heq, hfree, -⟩ := freshVersion_spec base taken
  rw [heq]
  exact hfree

/-- A fresh name is not taken. -/
theorem freshName_notMem (base : State) (taken : List State) : freshName base taken ∉ taken := by
  unfold freshName
  split_ifs with hbase
  · exact versionName_freshVersion_notMem base taken
  · exact fun hmem => hbase (List.contains_iff_mem.2 hmem)

/-- A fresh name has only characters of the name that it is made from, and digits. -/
theorem mem_of_mem_freshName {base : State} {taken : List State} {c : Char}
    (h : c ∈ (freshName base taken).toList) : c ∈ base.toList ∨ c.isDigit = true := by
  unfold freshName at h
  split_ifs at h
  · rw [versionName, String.toList_append, List.mem_append, String.toList_ofList] at h
    -- The name is the stem, which is a beginning of the given name, and a number behind it.
    rcases h with h | h
    · unfold stem at h
      rw [List.mem_reverse] at h
      have hdrop := (List.dropWhile_sublist _).subset h
      exact .inl (List.mem_reverse.1 hdrop)
    · have hdigits : ∀ n : Nat, (toString n).toList = Nat.toDigits 10 n := fun _ => Nat.toList_repr
      rw [hdigits] at h
      exact .inr (Nat.isDigit_of_mem_toDigits (by omega) (by omega) h)
  · exact .inl h

/-! ## Names from a list -/

namespace Renaming

variable {l : List (State × State)} {q : State}

/-- A state that is listed once has the name that it is listed with. -/
theorem mem_rename_ofList (hl : (l.map Prod.fst).Nodup) (hq : q ∈ l.map Prod.fst) :
    (q, rename (.ofList l) q) ∈ l := by
  obtain ⟨⟨_, name⟩, he, rfl⟩ := List.mem_map.1 hq
  unfold rename
  rw [SortedMap.find?_ofList hl he]
  exact he

/-- A state has a new name if it is listed. -/
theorem contains_ofList_iff (hl : (l.map Prod.fst).Nodup) :
    (SortedMap.ofList l).contains q = true ↔ q ∈ l.map Prod.fst := by
  unfold SortedMap.contains
  constructor
  · intro h
    by_contra hq
    unfold SortedMap.ofList at h
    rw [SortedMap.find?_foldl_insert_of_notMem hq, SortedMap.find?_empty] at h
    exact absurd h Bool.false_ne_true
  · intro hq
    rw [SortedMap.find?_ofList hl (mem_rename_ofList hl hq)]
    rfl

/-- A state that is listed is renamed to what is found for it. -/
theorem find?_ofList_eq (hl : (l.map Prod.fst).Nodup) (hq : q ∈ l.map Prod.fst) :
    (SortedMap.ofList l).find? q = some (rename (.ofList l) q) :=
  SortedMap.find?_ofList hl (mem_rename_ofList hl hq)

end Renaming

/-! ## Renaming apart -/

/-- Every state gets a name, in the order of the list. -/
theorem map_fst_namesApart (own : SortedSet State) (taken : List String) (l : List State) :
    (namesApart own taken l).map Prod.fst = l := by
  induction l generalizing taken with
  | nil => rfl
  | cons q rest ih =>
    unfold namesApart
    split <;> simp [ih]

/-- A state keeps its name, which the other machine does not use, or gets a fresh one. -/
theorem namesApart_cases {own : SortedSet State} {taken : List String} {l : List State}
    {e : State × State} (h : e ∈ namesApart own taken l) :
    (e.2 = e.1 ∧ e.1 ∉ own) ∨ ∃ more, taken ⊆ more ∧ e.2 = freshName e.1 more := by
  -- The names given out before only add to those that are taken.
  induction l generalizing taken with
  | nil => simp [namesApart] at h
  | cons q rest ih =>
    unfold namesApart at h
    split at h
    · rcases List.mem_cons.1 h with rfl | h
      · exact .inr ⟨taken, List.Subset.refl _, rfl⟩
      · rcases ih h with hkeep | ⟨more, hmore, hfresh⟩
        · exact .inl hkeep
        · exact .inr ⟨more, fun name hname => hmore (List.mem_cons_of_mem _ hname), hfresh⟩
    · next hown =>
      rcases List.mem_cons.1 h with rfl | h
      · exact .inl ⟨rfl, fun hmem => hown (SortedSet.contains_iff.2 hmem)⟩
      · exact ih h

/-- A state keeps its name or gets one that is not taken. -/
theorem namesApart_notMem {own : SortedSet State} {taken : List String} {l : List State}
    {e : State × State} (h : e ∈ namesApart own taken l) : e.2 = e.1 ∧ e.1 ∉ own ∨ e.2 ∉ taken := by
  rcases namesApart_cases h with hkeep | ⟨more, hmore, hfresh⟩
  · exact .inl hkeep
  · refine .inr fun hmem => freshName_notMem e.1 more ?_
    rw [← hfresh]
    exact hmore hmem

/-- No name is given twice: a kept name is taken from the start, and a fresh one once it is
given. -/
theorem nodup_namesApart {own : SortedSet State} {taken : List String} {l : List State}
    (hl : l.Nodup) (htaken : l ⊆ taken) : ((namesApart own taken l).map Prod.snd).Nodup := by
  induction l generalizing taken with
  | nil => exact List.nodup_nil
  | cons q rest ih =>
    obtain ⟨hq, hrest⟩ := List.nodup_cons.1 hl
    obtain ⟨hqt, hrt⟩ := List.cons_subset.1 htaken
    -- A name given later is that of a later state, or was not taken when it was given.
    have hlater : ∀ {taken' : List String} {e : State × State},
        e ∈ namesApart own taken' rest → e.1 ∈ rest := fun {taken'} {e} he => by
      have := List.mem_map_of_mem (f := Prod.fst) he
      rwa [map_fst_namesApart] at this
    unfold namesApart
    split
    · rw [List.map_cons, List.nodup_cons]
      refine ⟨fun hmem => ?_, ih hrest fun p hp => List.mem_cons_of_mem _ (hrt hp)⟩
      obtain ⟨e, he, heq⟩ := List.mem_map.1 hmem
      dsimp only at heq
      rcases namesApart_notMem he with ⟨hkeep, -⟩ | hfresh
      · refine freshName_notMem q taken ?_
        rw [← heq, hkeep]
        exact hrt (hlater he)
      · exact hfresh (heq ▸ List.mem_cons_self)
    · rw [List.map_cons, List.nodup_cons]
      refine ⟨fun hmem => ?_, ih hrest hrt⟩
      obtain ⟨e, he, heq⟩ := List.mem_map.1 hmem
      dsimp only at heq
      rcases namesApart_notMem he with ⟨hkeep, -⟩ | hfresh
      · exact hq (heq ▸ hkeep ▸ hlater he)
      · exact hfresh (heq ▸ hqt)

namespace Machine

variable {k : MachineKind} {m other : Machine k} {p q : State}

/-- The new name of a state of the other machine is the one that it was given. -/
theorem mem_namesApart_rename (hq : q ∈ other.states) :
    (q, (m.apart other).rename q) ∈
      namesApart m.states (m.states.toList ++ other.states.toList) other.states.toList := by
  refine Renaming.mem_rename_ofList ?_ ?_
  · rw [map_fst_namesApart]
    exact other.states.nodup_toList
  · rw [map_fst_namesApart]
    exact hq

/-- The states of the other machine get names that are not those of this one's states. -/
theorem rename_apart_notMem (hq : q ∈ other.states) : (m.apart other).rename q ∉ m.states := by
  rcases namesApart_notMem (mem_namesApart_rename (m := m) hq) with ⟨hkeep, hown⟩ | hfresh
  · dsimp only at hkeep hown
    rw [hkeep]
    exact hown
  · exact fun hmem => hfresh (List.mem_append_left _ hmem)

/-- The states of the other machine get different names. -/
theorem rename_apart_injective (hp : p ∈ other.states) (hq : q ∈ other.states)
    (h : (m.apart other).rename p = (m.apart other).rename q) : p = q := by
  have hnodup : ((namesApart m.states (m.states.toList ++ other.states.toList)
      other.states.toList).map Prod.snd).Nodup :=
    nodup_namesApart other.states.nodup_toList (List.subset_append_right _ _)
  have heq := List.inj_on_of_nodup_map hnodup (mem_namesApart_rename hp)
    (mem_namesApart_rename hq) h
  exact congrArg Prod.fst heq

/-- A name that is none of the states. -/
def freshState (m : Machine k) : State := freshName m.initial m.states.toList

/-- The fresh name is none of the states. -/
theorem freshState_notMem (m : Machine k) : m.freshState ∉ m.states := freshName_notMem _ _

/-- The new name of a state of the other machine has only characters of its old one, and digits. -/
theorem mem_of_mem_rename_apart {c : Char} (hq : q ∈ other.states)
    (h : c ∈ ((m.apart other).rename q).toList) : c ∈ q.toList ∨ c.isDigit = true := by
  rcases namesApart_cases (mem_namesApart_rename (m := m) hq) with ⟨hkeep, -⟩ | ⟨more, -, hfresh⟩
  · dsimp only at hkeep
    rw [hkeep] at h
    exact .inl h
  · dsimp only at hfresh
    rw [hfresh] at h
    exact mem_of_mem_freshName h

end Machine

/-! ## Composite names -/

/-- A text without the character is one part. -/
theorem splitAtChar_of_notMem {c : Char} {part : List Char} (h : c ∉ part) :
    splitAtChar c part = [part] := by
  induction part with
  | nil => rfl
  | cons d ds ih =>
    simp only [List.mem_cons, not_or] at h
    unfold splitAtChar
    rw [if_neg (Ne.symm h.1), ih h.2]

/-- The part in front of the first occurrence of the character comes first. -/
theorem splitAtChar_append {c : Char} {part rest : List Char} (h : c ∉ part) :
    splitAtChar c (part ++ c :: rest) = part :: splitAtChar c rest := by
  induction part with
  | nil => simp [splitAtChar]
  | cons d ds ih =>
    simp only [List.mem_cons, not_or] at h
    rw [List.cons_append]
    conv_lhs => unfold splitAtChar
    rw [if_neg (Ne.symm h.1), ih h.2]

/-- Parts that are joined by a character that none of them has are found again. -/
theorem splitAtChar_intercalate {c : Char} {parts : List (List Char)} (hne : parts ≠ [])
    (h : ∀ part ∈ parts, c ∉ part) : splitAtChar c ([c].intercalate parts) = parts := by
  -- The last part has no character behind it, so it is a case of its own.
  induction parts with
  | nil => exact absurd rfl hne
  | cons part rest ih =>
    cases rest with
    | nil =>
      rw [List.intercalate_singleton]
      exact splitAtChar_of_notMem (h part List.mem_cons_self)
    | cons next rest =>
      rw [List.intercalate_cons_cons, List.append_assoc, List.singleton_append,
        splitAtChar_append (h part List.mem_cons_self),
        ih (List.cons_ne_nil _ _) fun p hp => h p (List.mem_cons_of_mem _ hp)]

/-- The members of a set can be read off its composite name, if there are any and none has a comma
in its name. -/
theorem splitComposite_compositeName {s : SortedSet State} (hne : s.isEmpty = false)
    (hcomma : ∀ q ∈ s, ',' ∉ q.toList) : splitComposite (compositeName s) = s.toList := by
  -- Splitting undoes joining if there is a part, and no part contains the comma that joins them.
  have hlist : s.toList.map String.toList ≠ [] := by
    intro hnil
    rw [List.map_eq_nil_iff] at hnil
    simp [SortedSet.isEmpty, hnil] at hne
  have hparts : ∀ part ∈ s.toList.map String.toList, ',' ∉ part := by
    intro part hpart
    obtain ⟨q, hq, rfl⟩ := List.mem_map.1 hpart
    exact hcomma q hq
  unfold splitComposite compositeName
  rw [String.toList_intercalate, show ",".toList = [','] by decide,
    splitAtChar_intercalate hlist hparts, List.map_map]
  have hid : String.ofList ∘ String.toList = id := by
    funext name
    simp
  rw [hid, List.map_id]

/-- Different sets have different composite names, as long as both have members and no member has a
comma in its name. -/
theorem compositeName_injective {s t : SortedSet State} (hs : s.isEmpty = false)
    (ht : t.isEmpty = false) (hsc : ∀ q ∈ s, ',' ∉ q.toList) (htc : ∀ q ∈ t, ',' ∉ q.toList)
    (h : compositeName s = compositeName t) : s = t := by
  refine SortedSet.eq_of_toList ?_
  rw [← splitComposite_compositeName hs hsc, ← splitComposite_compositeName ht htc, h]

end MachineLang
