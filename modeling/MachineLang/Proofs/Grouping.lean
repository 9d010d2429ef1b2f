import MachineLang.Proofs.Transitions
import Mathlib.Data.List.Sort

/-!
# Transitions by state and pattern

Building a machine groups its transitions by the state that they leave and by what they read. The
choices of a state depend on the transitions that leave it alone (`find?_choices_build`), each
pattern has a target and none twice (`tidy_build`), and grouping the transitions of tidy choices
gives these choices back, with the patterns and their targets in the same order (`entries_grouped`).
-/

namespace MachineLang

namespace SortedMap

variable {α β : Type} [Ord α] [DecidableEq α] {k : α} {v : β} {f : Option β → β} {l : List (α × β)}

omit [DecidableEq α] in
/-- A key behind all others gets its place at the end. -/
theorem updateIn_of_gt (h : ∀ e ∈ l, compare k e.1 = .gt) :
    updateIn k f l = l ++ [(k, f none)] := by
  induction l with
  | nil => rfl
  | cons e rest ih =>
    have hrest : updateIn k f rest = rest ++ [(k, f none)] :=
      ih fun e he => h e (List.mem_cons_of_mem _ he)
    simp only [updateIn, h e List.mem_cons_self, hrest, List.cons_append]

omit [DecidableEq α] in
/-- The value of the last key is updated in its place. -/
theorem updateIn_append_of_gt [Std.LawfulEqOrd α] (h : ∀ e ∈ l, compare k e.1 = .gt) :
    updateIn k f (l ++ [(k, v)]) = l ++ [(k, f (some v))] := by
  induction l with
  | nil => simp [updateIn]
  | cons e rest ih =>
    have hrest : updateIn k f (rest ++ [(k, v)]) = rest ++ [(k, f (some v))] :=
      ih fun e he => h e (List.mem_cons_of_mem _ he)
    simp only [List.cons_append, updateIn, h e List.mem_cons_self, hrest]

/-- Two maps with the same values are equal, since both list their entries in the order of the keys.
So machines can be compared state by state. -/
theorem ext [Std.TransOrd α] [Std.LawfulEqOrd α] {m n : SortedMap α β}
    (h : ∀ k, m.find? k = n.find? k) : m = n := by
  have hmem : ∀ e, e ∈ m.entries ↔ e ∈ n.entries := by
    rintro ⟨k, v⟩
    rw [mem_entries_iff, mem_entries_iff, h k]
  have hirrefl : Std.Irrefl fun a b : α × β => compare a.1 b.1 = .lt := ⟨fun a ha => by simp at ha⟩
  have hasymm : Std.Asymm fun a b : α × β => compare a.1 b.1 = .lt :=
    ⟨fun a b hab hba => by
      have haa : compare a.1 a.1 = .lt := Std.TransCmp.lt_trans hab hba
      simp at haa⟩
  exact eq_of_entries (m.sorted.eq_of_mem_iff n.sorted hmem)

/-- Of the entries of a map, those of one key are its value alone: a key occurs once, so what is
collected from its entries is what comes of the value that is found. -/
theorem flatMap_entries [Std.TransOrd α] {γ : Type} (m : SortedMap α β) (k : α)
    (g : α → β → List γ) :
    (m.entries.flatMap fun e => if e.1 = k then g e.1 e.2 else []) =
      ((m.find? k).map (g k)).getD [] := by
  obtain ⟨l, hl⟩ := m
  simp only [find?]
  induction l with
  | nil => rfl
  | cons e rest ih =>
    obtain ⟨he, hrest⟩ := List.pairwise_cons.1 hl
    rw [List.flatMap_cons]
    by_cases hk : e.1 = k
    · -- No later entry has the same key.
      have hnil : (rest.flatMap fun e => if e.1 = k then g e.1 e.2 else []) = [] := by
        rw [List.flatMap_eq_nil_iff]
        intro e' he'
        refine if_neg fun hk' => ?_
        have hlt := he e' he'
        rw [hk, hk'] at hlt
        simp at hlt
      rw [if_pos hk, hnil, List.append_nil, List.find?_cons_of_pos (by simpa using hk), hk]
      rfl
    · rw [if_neg hk, List.nil_append, List.find?_cons_of_neg (by simpa using hk)]
      exact ih hrest

end SortedMap

namespace Machine

variable {k : MachineKind}

/-! ## The choices of a state -/

section

-- The order of what transitions read, each law under one name wherever it is used.

local instance transOrdRead : Std.TransOrd (List Symbol) := inferInstance

local instance lawfulEqOrdRead : Std.LawfulEqOrd (List Symbol) := inferInstance

/-- Adds a transition to the choices of the state that it leaves. -/
def addChoice (byRead : Choices k) (t : Transition k) : Choices k :=
  byRead.update t.read fun targets => addTarget ⟨t.target, t.action⟩ (targets.getD [])

end

/-- The transitions that leave one state, by what they read. -/
def grouped (transitions : List (Transition k)) : Choices k := transitions.foldl addChoice .empty

/-- The transitions of a list that leave a state. -/
def leaving (transitions : List (Transition k)) (q : State) : List (Transition k) :=
  transitions.filter fun t => t.source = q

/-- Adding transitions changes only the choices of the states that they leave, and those as if the
other transitions were not there. So each state can be looked at alone. -/
theorem find?_foldl_addTransition {l : List (Transition k)} {choices : SortedMap State (Choices k)}
    {q : State} : (l.foldl addTransition choices).find? q =
      if leaving l q = [] then choices.find? q
      else some ((leaving l q).foldl addChoice ((choices.find? q).getD .empty)) := by
  induction l generalizing choices with
  | nil => rfl
  | cons t rest ih =>
    have hadd : (addTransition choices t).find? q =
        if q = t.source then some (addChoice ((choices.find? t.source).getD .empty) t)
        else choices.find? q := SortedMap.find?_update _ _ _ _
    rw [List.foldl_cons, ih, hadd]
    by_cases hq : t.source = q
    · -- The transition is the first of those that leave the state.
      have hleaving : leaving (t :: rest) q = t :: leaving rest q :=
        List.filter_cons_of_pos (by simpa using hq)
      rw [hleaving, if_neg (List.cons_ne_nil _ _), List.foldl_cons, if_pos hq.symm, hq]
      split
      · next hnone => rw [hnone, List.foldl_nil]
      · rfl
    · have hleaving : leaving (t :: rest) q = leaving rest q :=
        List.filter_cons_of_neg (by simpa using hq)
      rw [hleaving, if_neg (Ne.symm hq)]

/-- The choices of a state of a built machine are its transitions, grouped. -/
theorem find?_choices_build (d : Definition k) (q : State) : (build d).choices.find? q =
    if leaving d.transitions q = [] then none else some (grouped (leaving d.transitions q)) := by
  unfold build
  rw [find?_foldl_addTransition, SortedMap.find?_empty]
  rfl

/-- What leaves a state of a built machine is what its definition lists for the state, grouped by
what is read. -/
theorem choicesAt_build (d : Definition k) (q : State) :
    (build d).choicesAt q = (grouped (leaving d.transitions q)).entries := by
  unfold choicesAt
  rw [find?_choices_build]
  -- A state that nothing leaves is not listed, and its group is empty.
  split
  · next hfind =>
    split at hfind
    · simp at hfind
    · injection hfind with hfind
      rw [hfind]
  · next hfind =>
    split at hfind
    · next hnone => rw [hnone]; rfl
    · simp at hfind

/-! ## Tidy choices -/

/-- Each pattern has a target, and none twice. -/
def TidyChoices (byRead : Choices k) : Prop :=
  ∀ read targets, byRead.find? read = some targets → targets ≠ [] ∧ targets.Nodup

/-- Each pattern of each state has a target, and none twice. -/
def Tidy (choices : SortedMap State (Choices k)) : Prop :=
  ∀ source byRead, choices.find? source = some byRead → TidyChoices byRead

/-- A target that is added is not listed twice. -/
theorem addTarget_tidy {target : Target k} {targets : List (Target k)} (h : targets.Nodup) :
    addTarget target targets ≠ [] ∧ (addTarget target targets).Nodup := by
  unfold addTarget
  split
  · next hmem => exact ⟨List.ne_nil_of_mem (List.contains_iff_mem.1 hmem), h⟩
  · next hmem =>
    refine ⟨List.append_ne_nil_of_right_ne_nil _ (List.cons_ne_nil _ _), ?_⟩
    rw [List.nodup_append]
    refine ⟨h, List.nodup_cons.2 ⟨List.not_mem_nil, List.nodup_nil⟩, ?_⟩
    rintro target' htarget' _ hsingle rfl
    obtain rfl := List.mem_singleton.1 hsingle
    exact hmem (List.contains_iff_mem.2 htarget')

/-- The choices of a state are tidy, also if there are none. -/
theorem Tidy.getD {choices : SortedMap State (Choices k)} (h : Tidy choices) (source : State) :
    TidyChoices ((choices.find? source).getD .empty) := by
  cases hold : choices.find? source with
  | none =>
    intro read targets htargets
    simp at htargets
  | some byRead => exact h source byRead hold

/-- The targets of a pattern are listed once, also if there are none. -/
theorem TidyChoices.nodup_getD {byRead : Choices k} (h : TidyChoices byRead)
    (read : List Symbol) : ((byRead.find? read).getD []).Nodup := by
  cases hold : byRead.find? read with
  | none => exact List.nodup_nil
  | some targets => exact (h read targets hold).2

/-- Adding a transition keeps the choices tidy. -/
theorem tidy_addTransition {choices : SortedMap State (Choices k)} (h : Tidy choices)
    (t : Transition k) : Tidy (addTransition choices t) := by
  have hread := h.getD t.source
  intro source byRead hbyRead
  -- Only the choices of the source are updated, and of these only the targets of the pattern.
  refine SortedMap.of_find?_update h ?_ hbyRead
  intro read targets htargets
  exact SortedMap.of_find?_update (P := fun targets => targets ≠ [] ∧ targets.Nodup) hread
    (addTarget_tidy (hread.nodup_getD t.read)) htargets

/-- Building a machine makes tidy choices. -/
theorem tidy_build (d : Definition k) : Tidy (build d).choices := by
  have hfold : ∀ (l : List (Transition k)) (choices : SortedMap State (Choices k)), Tidy choices →
      Tidy (l.foldl addTransition choices) := by
    intro l
    induction l with
    | nil => exact fun choices h => h
    | cons t rest ih => exact fun choices h => ih _ (tidy_addTransition h t)
  refine hfold d.transitions .empty ?_
  intro source byRead hbyRead
  simp at hbyRead

/-- The choices of a machine that some definition describes are tidy. -/
theorem IsBuilt.tidy {m : Machine k} (h : m.IsBuilt) : Tidy m.choices := by
  obtain ⟨d, hd⟩ := h
  obtain ⟨rfl, -⟩ := of_new_eq_ok hd
  exact tidy_build d

/-- A machine with tidy choices lists no transition twice: states and patterns are keys of maps, and
the targets that are kept for a pattern are different from each other. -/
theorem Tidy.nodup_transitions {m : Machine k} (h : Tidy m.choices) : m.transitions.Nodup := by
  unfold transitions
  rw [List.nodup_flatMap]
  refine ⟨fun ⟨source, byRead⟩ hentry => ?_, m.choices.sorted.imp fun {e e'} hlt t ht ht' => ?_⟩
  · have htidy := h source byRead (SortedMap.mem_entries_iff.1 hentry)
    unfold transitionsOf
    rw [List.nodup_flatMap]
    refine ⟨fun ⟨read, targets⟩ hread => ?_, byRead.sorted.imp fun {e e'} hlt t ht ht' => ?_⟩
    · refine (htidy read targets (SortedMap.mem_entries_iff.1 hread)).2.map
        fun target target' heq => ?_
      injection heq with _ _ hstate haction
      exact (Target.mk.injEq ..).mpr ⟨hstate, haction⟩
    · -- What leads to targets of different patterns reads differently.
      obtain ⟨_, -, rfl⟩ := List.mem_map.1 ht
      obtain ⟨_, -, heq⟩ := List.mem_map.1 ht'
      injection heq with _ hread
      rw [hread] at hlt
      simp at hlt
  · -- What is listed for different states leaves different states.
    have hsource : ∀ (e : State × Choices k) {t : Transition k}, t ∈ transitionsOf e.1 e.2 →
        t.source = e.1 := by
      intro e t ht
      obtain ⟨_, -, ht⟩ := List.mem_flatMap.1 ht
      obtain ⟨_, -, rfl⟩ := List.mem_map.1 ht
      rfl
    rw [← hsource e ht, ← hsource e' ht'] at hlt
    simp at hlt

/-! ## Grouping what is grouped already -/

/-- Patterns in increasing order, each with its targets and none twice. -/
structure InOrder (groups : List (List Symbol × List (Target k))) : Prop where
  /-- Each pattern is smaller than those behind it. -/
  sorted : groups.Pairwise fun a b => compare a.1 b.1 = .lt
  /-- Each pattern has a target. -/
  targets_ne_nil : ∀ e ∈ groups, e.2 ≠ []
  /-- No target of a pattern is listed twice. -/
  nodup : ∀ e ∈ groups, e.2.Nodup

/-- Groups stay in order if different targets of a pattern are replaced by different ones. -/
theorem InOrder.map_targets {groups : List (List Symbol × List (Target k))} (h : InOrder groups)
    {g : Target k → Target k}
    (hg : ∀ e ∈ groups, ∀ a ∈ e.2, ∀ b ∈ e.2, g a = g b → a = b) :
    InOrder (groups.map fun e => (e.1, e.2.map g)) where
  sorted := List.pairwise_map.2 h.sorted
  targets_ne_nil e he := by
    obtain ⟨group, hgroup, rfl⟩ := List.mem_map.1 he
    exact fun hnil => h.targets_ne_nil group hgroup (List.map_eq_nil_iff.1 hnil)
  nodup e he := by
    obtain ⟨group, hgroup, rfl⟩ := List.mem_map.1 he
    exact (h.nodup group hgroup).map_on fun a ha b hb => hg group hgroup a ha b hb

/-- The transitions from one state that read one pattern. -/
def transitionsTo (source : State) (read : List Symbol) (targets : List (Target k)) :
    List (Transition k) :=
  targets.map fun target => ⟨source, read, target.state, target.action⟩

/-- Further targets of the last pattern are added behind its first ones, one by one, and the entries
in front of it stay as they are. -/
theorem entries_foldl_addChoice_append {source : State} {read : List Symbol}
    {first more : List (Target k)} {before : List (List Symbol × List (Target k))}
    (hread : ∀ e ∈ before, compare read e.1 = .gt) (hnodup : (first ++ more).Nodup)
    {byRead : Choices k} (h : byRead.entries = before ++ [(read, first)]) :
    ((transitionsTo source read more).foldl addChoice byRead).entries =
      before ++ [(read, first ++ more)] := by
  -- The pattern stays the last of the list, so each target goes to the end of the last entry.
  induction more generalizing first byRead with
  | nil => simpa [transitionsTo] using h
  | cons target more ih =>
    have hnew : target ∉ first := fun hmem =>
      (List.nodup_append.1 hnodup).2.2 target hmem target List.mem_cons_self rfl
    have hadd : addTarget ⟨target.state, target.action⟩ first = first ++ [target] :=
      if_neg fun hmem => hnew (List.contains_iff_mem.1 hmem)
    have hstep : (addChoice byRead ⟨source, read, target.state, target.action⟩).entries =
        before ++ [(read, first ++ [target])] := by
      rw [← hadd]
      show SortedMap.updateIn _ _ byRead.entries = _
      rw [h, SortedMap.updateIn_append_of_gt hread]
      rfl
    have hassoc : first ++ target :: more = first ++ [target] ++ more := by simp
    rw [hassoc] at hnodup ⊢
    exact ih hnodup hstep

/-- Adding all transitions that read a pattern behind all others adds the pattern with their
targets. -/
theorem entries_foldl_addChoice {source : State} {read : List Symbol} {targets : List (Target k)}
    (hne : targets ≠ []) (hnodup : targets.Nodup) {byRead : Choices k}
    (hread : ∀ e ∈ byRead.entries, compare read e.1 = .gt) :
    ((transitionsTo source read targets).foldl addChoice byRead).entries =
      byRead.entries ++ [(read, targets)] := by
  obtain ⟨target, more, rfl⟩ := List.exists_cons_of_ne_nil hne
  have hstep : (addChoice byRead ⟨source, read, target.state, target.action⟩).entries =
      byRead.entries ++ [(read, [target])] := by
    show SortedMap.updateIn _ _ byRead.entries = _
    rw [SortedMap.updateIn_of_gt hread]
    rfl
  have hnodup' : ([target] ++ more).Nodup := hnodup
  exact entries_foldl_addChoice_append hread hnodup' hstep

/-- Grouping the transitions of groups that are in order gives the groups back. This is what makes a
machine equal to the one that is built of its own transitions. -/
theorem entries_grouped {source : State} {groups : List (List Symbol × List (Target k))}
    (h : InOrder groups) :
    (grouped (groups.flatMap fun e => transitionsTo source e.1 e.2)).entries = groups := by
  -- The groups that were added already are in front of those that are still to be added.
  have hfold : ∀ byRead : Choices k,
      (∀ e ∈ byRead.entries, ∀ e' ∈ groups, compare e'.1 e.1 = .gt) →
      ((groups.flatMap fun e => transitionsTo source e.1 e.2).foldl addChoice byRead).entries =
        byRead.entries ++ groups := by
    obtain ⟨hsorted, hne, hnodup⟩ := h
    induction groups with
    | nil => simp
    | cons group rest ih =>
      intro byRead hbefore
      obtain ⟨hgroup, hrest⟩ := List.pairwise_cons.1 hsorted
      have hstep : ((transitionsTo source group.1 group.2).foldl addChoice byRead).entries =
          byRead.entries ++ [group] :=
        entries_foldl_addChoice (hne group List.mem_cons_self) (hnodup group List.mem_cons_self)
          fun e he => hbefore e he group List.mem_cons_self
      rw [List.flatMap_cons, List.foldl_append,
        ih hrest (fun e he => hne e (List.mem_cons_of_mem _ he))
          (fun e he => hnodup e (List.mem_cons_of_mem _ he)), hstep, List.append_assoc,
        List.singleton_append]
      intro e he e' he'
      rw [hstep] at he
      rcases List.mem_append.1 he with he | he
      · exact hbefore e he e' (List.mem_cons_of_mem _ he')
      · obtain rfl := List.mem_singleton.1 he
        exact Std.OrientedCmp.gt_of_lt (hgroup e' he')
  have hempty := hfold .empty (fun e he => absurd he List.not_mem_nil)
  exact hempty

/-- The choices of a state are in order if they are tidy. -/
theorem TidyChoices.inOrder {byRead : Choices k} (h : TidyChoices byRead) :
    InOrder byRead.entries where
  sorted := byRead.sorted
  targets_ne_nil e he := (h e.1 e.2 (SortedMap.mem_entries_iff.1 he)).1
  nodup e he := (h e.1 e.2 (SortedMap.mem_entries_iff.1 he)).2

/-- What leaves a state of a machine with tidy choices is in order. -/
theorem Tidy.inOrder_choicesAt {m : Machine k} (h : Tidy m.choices) (q : State) :
    InOrder (m.choicesAt q) := by
  unfold choicesAt
  split
  · next byRead hfind => exact (h q byRead hfind).inOrder
  · exact ⟨List.Pairwise.nil, fun e he => absurd he List.not_mem_nil,
      fun e he => absurd he List.not_mem_nil⟩

/-- The transitions that leave a state are listed in the order of its choices: by the patterns that
are read, and for one pattern in the order in which its targets were added. -/
theorem leaving_transitions (m : Machine k) (q : State) :
    leaving m.transitions q = (m.choicesAt q).flatMap fun e => transitionsTo q e.1 e.2 := by
  -- All transitions of an entry leave its state.
  have hentry : ∀ e : State × Choices k, (transitionsOf e.1 e.2).filter (fun t => t.source = q) =
      if e.1 = q then transitionsOf e.1 e.2 else [] := by
    rintro ⟨source, byRead⟩
    have hsource : ∀ t ∈ transitionsOf source byRead, t.source = source := by
      intro t ht
      obtain ⟨e, -, ht⟩ := List.mem_flatMap.1 ht
      obtain ⟨target, -, rfl⟩ := List.mem_map.1 ht
      rfl
    dsimp only
    split
    · next hq => exact List.filter_eq_self.2 fun t ht => by simpa [hsource t ht] using hq
    · next hq => exact List.filter_eq_nil_iff.2 fun t ht => by simpa [hsource t ht] using hq
  unfold leaving transitions
  rw [List.filter_flatMap]
  simp only [hentry]
  rw [SortedMap.flatMap_entries]
  unfold choicesAt
  cases m.choices.find? q with
  | none => rfl
  | some byRead => rfl

end Machine

end MachineLang
