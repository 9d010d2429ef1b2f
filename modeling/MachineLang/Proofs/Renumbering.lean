import MachineLang.Machine.Reenumerate
import MachineLang.Proofs.Grouping
import MachineLang.Proofs.Names
import MachineLang.Proofs.Reach

/-!
# Renumbered machines

`Machine.reenumerate` gives the states that can be reached new names and drops the others. The names
are all different, whatever names are proposed (`nodup_nameInTurn`), and what leaves a renamed state
is what left the state, in the same order (`copies_reenumerate`). A machine that copies the
reachable part of another in this way has the same computations under the new names: the same
layers, with their configurations in the same order, and so the same verdicts
(`reenumerate_layers`).
-/

namespace MachineLang

/-- The target under the new name of its state. -/
def Target.rename {k : MachineKind} (f : State → State) (target : Target k) : Target k :=
  { target with state := f target.state }

/-- The configuration under the new name of its state. -/
def Configuration.rename (f : State → State) (c : Configuration) : Configuration :=
  { c with state := f c.state }

/-! ## Names in turn -/

/-- Every state gets a name, in the order of the list. -/
theorem map_fst_nameInTurn (names : Nat → Option State) (i : Nat) (used : List String)
    (l : List State) : (nameInTurn names i used l).map Prod.fst = l := by
  induction l generalizing i used with
  | nil => rfl
  | cons q rest ih =>
    unfold nameInTurn
    rw [List.map_cons, ih]

/-- A proposed name that is in use is not taken, and neither is its replacement. -/
theorem proposed_notMem (proposed : Option State) (i : Nat) (used : List String) :
    (proposed.filter fun name => !used.contains name).getD (freshName (numberedName i) used) ∉
      used := by
  cases hname : proposed.filter fun name => !used.contains name with
  | none => exact freshName_notMem _ _
  | some name =>
    have hunused := (Option.filter_eq_some_iff.1 hname).2
    simpa using hunused

/-- No name is given that is in use. -/
theorem nameInTurn_notMem {names : Nat → Option State} {i : Nat} {used : List String}
    {l : List State} {e : State × State} (h : e ∈ nameInTurn names i used l) : e.2 ∉ used := by
  induction l generalizing i used with
  | nil => simp [nameInTurn] at h
  | cons q rest ih =>
    unfold nameInTurn at h
    rcases List.mem_cons.1 h with rfl | h
    · exact proposed_notMem (names i) i used
    · exact fun hused => ih h (List.mem_cons_of_mem _ hused)

/-- No name is given twice: a name that has been given out is not given again. -/
theorem nodup_nameInTurn (names : Nat → Option State) (i : Nat) (used : List String)
    (l : List State) : ((nameInTurn names i used l).map Prod.snd).Nodup := by
  induction l generalizing i used with
  | nil => exact List.nodup_nil
  | cons q rest ih =>
    unfold nameInTurn
    rw [List.map_cons, List.nodup_cons]
    refine ⟨fun hmem => ?_, ih _ _⟩
    -- A name that is given later was not in use, but this one is by then.
    obtain ⟨e, he, hname⟩ := List.mem_map.1 hmem
    exact nameInTurn_notMem he (hname ▸ List.mem_cons_self)

/-! ## Copies of a part of a machine -/

/-- New things stay new under different names: if the renaming tells apart the things in question,
dropping those that were seen and renaming can be exchanged. -/
theorem newOnes_map {α β : Type} [DecidableEq α] [DecidableEq β] {g : α → β} {seen l : List α}
    (h : ∀ a ∈ l, ∀ b ∈ seen ++ l, g a = g b → a = b) :
    newOnes id (seen.map g) (l.map g) = (newOnes id seen l).map g := by
  induction l generalizing seen with
  | nil => rfl
  | cons a rest ih =>
    have hseen : g a ∈ seen.map g ↔ a ∈ seen := by
      constructor
      · intro hmem
        obtain ⟨b, hb, hba⟩ := List.mem_map.1 hmem
        rw [h a List.mem_cons_self b (List.mem_append_left _ hb) hba.symm]
        exact hb
      · exact fun hmem => List.mem_map_of_mem hmem
    -- Whether the first is kept or dropped, the map still tells apart what is left.
    have hrest : ∀ seen', (∀ b ∈ seen', b ∈ a :: seen) →
        newOnes id (seen'.map g) (rest.map g) = (newOnes id seen' rest).map g := by
      intro seen' hsub
      refine ih fun c hc b hb => h c (List.mem_cons_of_mem _ hc) b ?_
      rcases List.mem_append.1 hb with hb | hb
      · rcases List.mem_cons.1 (hsub b hb) with rfl | hb
        · exact List.mem_append_right _ List.mem_cons_self
        · exact List.mem_append_left _ hb
      · exact List.mem_append_right _ (List.mem_cons_of_mem _ hb)
    rw [List.map_cons]
    unfold newOnes
    simp only [id_eq, hseen]
    split
    · exact hrest seen fun b hb => List.mem_cons_of_mem _ hb
    · rw [List.map_cons]
      exact congrArg _ (hrest (a :: seen) fun b hb => hb)

namespace Machine

variable {k : MachineKind} {m copy : Machine k} {inside : State → Prop} {f : State → State}

/-- A machine is a copy of a part of another machine under new names for its states. -/
structure Copies (m copy : Machine k) (inside : State → Prop) (f : State → State) : Prop where
  /-- Both read with the same width. -/
  width_eq : copy.width = m.width
  /-- No transition leaves the part. -/
  target_inside : ∀ t ∈ m.transitions, inside t.source → inside t.target
  /-- Different states of the part have different names. -/
  injective : ∀ p q, inside p → inside q → f p = f q → p = q
  /-- What leaves a state of the part leaves its copy, in the same order. -/
  choicesAt_eq : ∀ q, inside q →
    copy.choicesAt (f q) = (m.choicesAt q).map fun e => (e.1, e.2.map (Target.rename f))
  /-- A state of the part is final if its copy is. -/
  final_iff : ∀ q, inside q → (f q ∈ copy.finals ↔ q ∈ m.finals)

namespace Copies

variable {c d : Configuration} {layer : List Configuration}

/-- The configuration of a copied state is a copy. -/
theorem configuration_eq (h : Copies m copy inside f) {q : State} (hq : inside q)
    (tapes : List Tape) :
    copy.configuration (f q) tapes = (m.configuration q tapes).rename f := by
  have hfinal : copy.finals.contains (f q) = m.finals.contains q := by
    rw [Bool.eq_iff_iff, SortedSet.contains_iff, SortedSet.contains_iff, h.final_iff q hq]
  unfold configuration Configuration.rename
  rw [hfinal]

/-- The target of a choice inside the part is inside as well. -/
theorem inside_of_choice (h : Copies m copy inside f) {q : State} (hq : inside q)
    {read : List Symbol} {targets : List (Target k)} (hchoice : (read, targets) ∈ m.choicesAt q)
    {target : Target k} (htarget : target ∈ targets) : inside target.state := by
  have ht : (⟨q, read, target.state, target.action⟩ : Transition k) ∈ m.transitions :=
    mem_transitions_iff.2 ⟨targets, hchoice, htarget⟩
  exact h.target_inside _ ht hq

/-- The successors of a copy for a width are the copies of the successors. -/
theorem stepAt_eq (h : Copies m copy inside f) (hc : inside c.state) (width : Nat) :
    copy.stepAt (c.rename f) width = (m.stepAt c width).map (Configuration.rename f) := by
  unfold stepAt
  show (copy.choicesAt (f c.state)).flatMap _ = _
  rw [h.choicesAt_eq c.state hc, List.flatMap_map, List.map_flatMap]
  refine List.flatMap_congr ?_
  -- The pattern is matched against the same tapes, so the same targets are taken, under their new
  -- names.
  rintro ⟨read, targets⟩ hchoice
  show (if matchesRead false read (k.read width c.tapes) = true then _ else _) = _
  dsimp only
  split
  · rw [List.map_map, List.map_map]
    refine List.map_congr_left fun target htarget => ?_
    exact h.configuration_eq (h.inside_of_choice hc hchoice htarget) _
  · rfl

/-- The successors of a copy are the copies of the successors, in the same order, because the
choices of a state are copied in their order. -/
theorem step_eq (h : Copies m copy inside f) (hc : inside c.state) :
    copy.step (c.rename f) = (m.step c).map (Configuration.rename f) := by
  unfold step
  rw [h.width_eq]
  induction m.width with
  | zero => rfl
  | succ width ih =>
    have hat := h.stepAt_eq hc (width + 1)
    unfold stepFrom
    dsimp only
    rw [hat, List.isEmpty_map, ih]
    split <;> rfl

/-- A step stays inside the part. -/
theorem inside_of_move (h : Copies m copy inside f) (hc : inside c.state) (hd : d ∈ m.step c) :
    inside d.state := by
  obtain ⟨width, -, -, hd, -⟩ := mem_step.1 hd
  obtain ⟨t, ht, hsource, -, rfl⟩ := mem_stepAt.1 hd
  exact h.target_inside t ht (hsource ▸ hc)

/-- Copies of different configurations inside the part are different. -/
theorem rename_injective (h : Copies m copy inside f) (hc : inside c.state) (hd : inside d.state)
    (heq : c.rename f = d.rename f) : c = d := by
  obtain ⟨p, accepted, tapes⟩ := c
  obtain ⟨q, accepted', tapes'⟩ := d
  injection heq with hstate haccepted htapes
  obtain rfl := h.injective p q hc hd hstate
  obtain rfl : accepted = accepted' := haccepted
  obtain rfl : tapes = tapes' := htapes
  rfl

/-- The configurations behind a layer inside the part are inside as well. -/
theorem inside_nextLayer (h : Copies m copy inside f) (hlayer : ∀ c ∈ layer, inside c.state) :
    ∀ d ∈ m.nextLayer layer, inside d.state := by
  intro d hd
  obtain ⟨c, hc, -, hmove⟩ := mem_nextLayer.1 hd
  exact h.inside_of_move (hlayer c hc) hmove

/-- The layer behind a copied layer is the copy of the layer behind it, in the same order. So a
renaming leaves whole computations alike, and not only their verdicts. -/
theorem nextLayer_eq (h : Copies m copy inside f) (hlayer : ∀ c ∈ layer, inside c.state) :
    copy.nextLayer (layer.map (Configuration.rename f)) =
      (m.nextLayer layer).map (Configuration.rename f) := by
  have hopen : (layer.map (Configuration.rename f)).filter (fun c => !c.accepted) =
      (layer.filter fun c => !c.accepted).map (Configuration.rename f) := by
    rw [List.filter_map]
    rfl
  have hsuccessors :
      ((layer.filter fun c => !c.accepted).map (Configuration.rename f)).flatMap copy.step =
        ((layer.filter fun c => !c.accepted).flatMap m.step).map (Configuration.rename f) := by
    rw [List.flatMap_map, List.map_flatMap]
    exact List.flatMap_congr fun c hc => h.step_eq (hlayer c (List.mem_of_mem_filter hc))
  have hinside : ∀ d ∈ (layer.filter fun c => !c.accepted).flatMap m.step, inside d.state := by
    intro d hd
    obtain ⟨c, hc, hd⟩ := List.mem_flatMap.1 hd
    exact h.inside_of_move (hlayer c (List.mem_of_mem_filter hc)) hd
  unfold nextLayer
  rw [hopen, hsuccessors]
  -- Duplicates are left out of both layers in the same places, since no two configurations get the
  -- same name.
  have hinjective : ∀ c ∈ (layer.filter fun c => !c.accepted).flatMap m.step,
      ∀ d ∈ [] ++ (layer.filter fun c => !c.accepted).flatMap m.step,
        Configuration.rename f c = Configuration.rename f d → c = d :=
    fun c hc d hd => h.rename_injective (hinside c hc) (hinside d hd)
  exact newOnes_map hinjective

/-- The layers from a copied layer on are the copies of the layers, as many as are asked for, by
induction over their number. -/
theorem layersFrom_eq (h : Copies m copy inside f) (count : Nat)
    (hlayer : ∀ c ∈ layer, inside c.state) :
    copy.layersFrom count (layer.map (Configuration.rename f)) =
      (m.layersFrom count layer).map (List.map (Configuration.rename f)) := by
  induction count generalizing layer with
  | zero => rfl
  | succ count ih =>
    unfold layersFrom
    rw [List.isEmpty_map]
    split
    · rfl
    · rw [h.nextLayer_eq hlayer, ih (h.inside_nextLayer hlayer), List.map_cons]

/-- The verdict on a copied layer is the verdict on the layer, at every limit: copies accept alike,
and one of them is empty only if the other one is. -/
theorem verdictFrom_eq (h : Copies m copy inside f) (limit : Nat)
    (hlayer : ∀ c ∈ layer, inside c.state) :
    copy.verdictFrom limit (layer.map (Configuration.rename f)) = m.verdictFrom limit layer := by
  have haccept : ∀ layer : List Configuration,
      (layer.map (Configuration.rename f)).any Configuration.accepted =
        layer.any Configuration.accepted := fun layer => List.any_map
  -- By the number of layers: a copied layer is empty or accepting if the layer is.
  induction limit generalizing layer with
  | zero =>
    unfold verdictFrom
    rw [List.isEmpty_map]
  | succ limit ih =>
    by_cases hnil : layer = []
    · rw [hnil, List.map_nil, verdictFrom_nil, verdictFrom_nil]
    · have hcopied : layer.map (Configuration.rename f) ≠ [] :=
        fun h => hnil (List.map_eq_nil_iff.1 h)
      rw [verdictFrom_succ hnil, verdictFrom_succ hcopied, haccept, h.nextLayer_eq hlayer,
        ih (h.inside_nextLayer hlayer)]

end Copies

/-! ## The reachable part under its new names -/

/-- A state can be reached from the initial one by transitions. -/
def CanReach (m : Machine k) (q : State) : Prop :=
  Relation.ReflTransGen (fun p q => ∃ t ∈ m.transitions, t.source = p ∧ t.target = q) m.initial q

/-- The states that can be reached are those that the search lists. -/
theorem mem_reachableInOrder_iff {q : State} :
    q ∈ m.reachableInOrder none m.initial ↔ m.CanReach q := by
  have hmem : q ∈ m.reachable m.initial none ↔ q ∈ m.reachableInOrder none m.initial :=
    SortedSet.mem_ofList
  rw [← hmem, mem_reachable_iff]
  simp only [mem_neighbours_iff, Option.mem_def, reduceCtorEq, false_imp_iff, implies_true,
    and_true]
  rfl

section

variable (m : Machine k) (names : Nat → Option State)

/-- The new names of the states that can be reached, as they are given. -/
def givenNames : List (State × State) :=
  nameInTurn names 0 [] (m.reachableInOrder none m.initial)

/-- Every state that can be reached is given one name. -/
theorem map_fst_givenNames :
    (m.givenNames names).map Prod.fst = m.reachableInOrder none m.initial :=
  map_fst_nameInTurn _ _ _ _

/-- No state is given two names. -/
theorem nodup_fst_givenNames : ((m.givenNames names).map Prod.fst).Nodup := by
  rw [map_fst_givenNames]
  have hnodup : ((m.reachableInOrder none m.initial).map id).Nodup := nodup_discover
  rwa [List.map_id] at hnodup

/-- The states that can be reached have new names. -/
theorem contains_numbering_iff {q : State} :
    (m.numbering names).contains q = true ↔ m.CanReach q := by
  rw [← mem_reachableInOrder_iff, ← map_fst_givenNames m names]
  exact Renaming.contains_ofList_iff (m.nodup_fst_givenNames names)

/-- The new name of a state that can be reached is found. -/
theorem find?_numbering {q : State} (hq : m.CanReach q) :
    (m.numbering names).find? q = some ((m.numbering names).rename q) := by
  rw [← mem_reachableInOrder_iff, ← map_fst_givenNames m names] at hq
  exact Renaming.find?_ofList_eq (m.nodup_fst_givenNames names) hq

/-- Different states that can be reached have different new names. -/
theorem numbering_injective {p q : State} (hp : m.CanReach p) (hq : m.CanReach q)
    (h : (m.numbering names).rename p = (m.numbering names).rename q) : p = q := by
  have hmem : ∀ q, m.CanReach q → (q, (m.numbering names).rename q) ∈ m.givenNames names := by
    intro q hq
    rw [← mem_reachableInOrder_iff, ← map_fst_givenNames m names] at hq
    exact Renaming.mem_rename_ofList (m.nodup_fst_givenNames names) hq
  have heq := List.inj_on_of_nodup_map (nodup_nameInTurn _ _ _ _) (hmem p hp) (hmem q hq) h
  exact congrArg Prod.fst heq

end

variable {names : Nat → Option State}

/-- A transition from a state that can be reached leads to one. -/
theorem CanReach.target {t : Transition k} (ht : t ∈ m.transitions) (h : m.CanReach t.source) :
    m.CanReach t.target := h.tail ⟨t, ht, rfl, rfl⟩

/-- The transitions of a renumbered machine are those that leave a state that can be reached, under
the new names. -/
theorem mem_transitions_reenumerate {t : Transition k} :
    t ∈ (m.reenumerate names).transitions ↔
      ∃ s ∈ m.transitions, m.CanReach s.source ∧ t = s.rename (m.numbering names) := by
  unfold reenumerate restrictTo
  rw [mem_transitions_build]
  simp only [List.mem_map, List.mem_filter, contains_numbering_iff, and_assoc, eq_comm (a := t)]

/-- The final states of a renumbered machine are the new names of final states. -/
theorem mem_finals_reenumerate {q : State} :
    q ∈ (m.reenumerate names).finals ↔
      ∃ p ∈ m.finals, m.CanReach p ∧ (m.numbering names).rename p = q := by
  unfold reenumerate restrictTo build
  rw [SortedSet.mem_ofList, List.mem_filterMap]
  constructor
  · rintro ⟨p, hp, hfind⟩
    -- The new names are given to the states that can be reached, and only to them.
    have hreach : m.CanReach p := by
      rw [← contains_numbering_iff m names]
      unfold SortedMap.contains
      rw [hfind]
      rfl
    rw [find?_numbering m names hreach] at hfind
    injection hfind with hname
    exact ⟨p, hp, hreach, hname⟩
  · rintro ⟨p, hp, hreach, rfl⟩
    exact ⟨p, hp, find?_numbering m names hreach⟩

/-- A renumbered machine has the symbols of the machine. -/
theorem alphabet_reenumerate (hm : m.WellFormed) :
    (m.reenumerate names).alphabet = m.alphabet := by
  refine SortedSet.ext fun x => mem_alphabet_build_of_read ?_ hm.alphabet_ne
  intro t ht
  obtain ⟨s, hs, rfl⟩ := List.mem_map.1 ht
  exact hm.read_mem s (List.mem_of_mem_filter hs)

/-- A renumbered machine is one that a definition describes. -/
theorem isBuilt_reenumerate (hm : m.WellFormed) : (m.reenumerate names).IsBuilt := by
  refine hm.isBuilt_build_of_fits rfl fun t ht => ?_
  obtain ⟨s, hs, rfl⟩ := List.mem_map.1 ht
  exact hm.fits s (List.mem_of_mem_filter hs)

/-- The states of a renumbered machine are the new names of the states that the machine can reach,
whether or not they are final or have transitions. -/
theorem mem_states_reenumerate {q : State} :
    q ∈ (m.reenumerate names).states ↔
      ∃ p, m.CanReach p ∧ (m.numbering names).rename p = q := by
  have hstates : q ∈ (m.reenumerate names).states ↔
      q = (m.reenumerate names).initial ∨ q ∈ (m.reenumerate names).finals ∨
        ∃ t ∈ (m.reenumerate names).transitions, q = t.source ∨ q = t.target := by
    unfold reenumerate restrictTo
    simp only [mem_transitions_build]
    rw [mem_states_build]
    exact or_congr_right (or_iff_right List.not_mem_nil)
  rw [hstates]
  constructor
  · rintro (rfl | hfinal | ⟨t, ht, hq⟩)
    · exact ⟨m.initial, .refl, rfl⟩
    · obtain ⟨p, -, hreach, hname⟩ := mem_finals_reenumerate.1 hfinal
      exact ⟨p, hreach, hname⟩
    · obtain ⟨s, hs, hreach, rfl⟩ := mem_transitions_reenumerate.1 ht
      rcases hq with rfl | rfl
      · exact ⟨s.source, hreach, rfl⟩
      · exact ⟨s.target, hreach.target hs, rfl⟩
  · rintro ⟨p, hreach, rfl⟩
    -- A state is reached without a transition, or it is the target of one.
    rcases Relation.ReflTransGen.cases_tail hreach with rfl | ⟨o, ho, t, ht, rfl, rfl⟩
    · exact .inl rfl
    · exact .inr (.inr ⟨_, mem_transitions_reenumerate.2 ⟨t, ht, ho, rfl⟩, .inr rfl⟩)

/-- The transitions that leave a new name are those that left the state, in the same order. -/
theorem leaving_rename {q : State} (hq : m.CanReach q) :
    leaving ((m.transitions.filter fun t => (m.numbering names).contains t.source).map
        (Transition.rename (m.numbering names))) ((m.numbering names).rename q) =
      (leaving m.transitions q).map (Transition.rename (m.numbering names)) := by
  unfold leaving
  rw [List.filter_map, List.filter_filter]
  refine congrArg _ (List.filter_congr fun t _ => ?_)
  rw [Bool.eq_iff_iff, Bool.and_eq_true, contains_numbering_iff, Function.comp_apply,
    decide_eq_true_iff, decide_eq_true_iff]
  constructor
  · rintro ⟨hname, hreach⟩
    exact numbering_injective m names hreach hq hname
  · rintro rfl
    exact ⟨rfl, hq⟩

/-- A renumbered machine is a copy of the part that can be reached: it makes the same choices in the
same order, under names that tell its states apart. -/
theorem copies_reenumerate (h : m.IsBuilt) :
    Copies m (m.reenumerate names) m.CanReach (m.numbering names).rename where
  width_eq := by
    unfold width
    rw [alphabet_reenumerate h.wellFormed]
  target_inside t ht := CanReach.target ht
  injective p q := numbering_injective m names
  choicesAt_eq q hq := by
    have hinside : ∀ e ∈ m.choicesAt q, ∀ target ∈ e.2, m.CanReach target.state := by
      rintro ⟨read, targets⟩ hchoice target htarget
      have ht : (⟨q, read, target.state, target.action⟩ : Transition k) ∈ m.transitions :=
        mem_transitions_iff.2 ⟨targets, hchoice, htarget⟩
      exact CanReach.target ht hq
    -- New names keep the order of the choices and leave different targets different.
    have hinOrder : InOrder ((m.choicesAt q).map fun e =>
        (e.1, e.2.map (Target.rename (m.numbering names).rename))) := by
      refine (h.tidy.inOrder_choicesAt q).map_targets ?_
      rintro e he ⟨p, action⟩ hp ⟨p', action'⟩ hp' heq
      injection heq with hstate haction
      obtain rfl : p = p' :=
        numbering_injective m names (hinside e he _ hp) (hinside e he _ hp') hstate
      obtain rfl : action = action' := haction
      rfl
    have hleaving : (leaving m.transitions q).map (Transition.rename (m.numbering names)) =
        ((m.choicesAt q).map fun e =>
          (e.1, e.2.map (Target.rename (m.numbering names).rename))).flatMap fun e =>
            transitionsTo ((m.numbering names).rename q) e.1 e.2 := by
      rw [leaving_transitions, List.map_flatMap, List.flatMap_map]
      refine List.flatMap_congr fun e _ => ?_
      unfold transitionsTo
      rw [List.map_map, List.map_map]
      rfl
    unfold reenumerate restrictTo
    rw [choicesAt_build]
    dsimp only
    rw [leaving_rename hq, hleaving, entries_grouped hinOrder]
  final_iff q hq := by
    rw [mem_finals_reenumerate]
    constructor
    · rintro ⟨p, hp, hreach, hname⟩
      rwa [← numbering_injective m names hreach hq hname]
    · exact fun hfinal => ⟨q, hfinal, hq, rfl⟩

/-- Renumbering a machine gives the states that can be reached different new names, which are the
states of the new machine, whatever names are proposed: too few, the same more than once, or such
that are also default names. For all inputs the layers of both machines are the same under the new
names, with the configurations in the same order and with the same tapes and acceptance, and all
verdicts are the same. -/
theorem reenumerate_layers (m : Machine k) (h : m.IsBuilt) (names : Nat → Option State) :
    ∃ f : State → State,
      (∀ p q, m.CanReach p → m.CanReach q → f p = f q → p = q) ∧
      (∀ q, q ∈ (m.reenumerate names).states ↔ ∃ p, m.CanReach p ∧ f p = q) ∧
      (∀ inputs count, (m.reenumerate names).layers inputs count =
        (m.layers inputs count).map (List.map (List.map (Configuration.rename f)))) ∧
      ∀ inputs limit, (m.reenumerate names).testWithin inputs limit = m.testWithin
        inputs limit := by
  have hcopies : Copies m (m.reenumerate names) m.CanReach (m.numbering names).rename :=
    copies_reenumerate h
  have hcount : (m.reenumerate names).tapeCount = m.tapeCount :=
    h.wellFormed.tapeCount_build_eq rfl
  -- Both machines start alike, in the part that can be reached, and one is a copy of that part.
  have hstart : ∀ inputs, (m.reenumerate names).initialConfiguration inputs =
      (m.initialConfiguration inputs).map (Configuration.rename (m.numbering names).rename) := by
    intro inputs
    unfold initialConfiguration
    rw [hcount]
    split
    · rfl
    · have htapes : (m.reenumerate names).loadTapes inputs = m.loadTapes inputs :=
        loadTapes_congr hcount rfl inputs
      rw [htapes]
      exact congrArg _ (hcopies.configuration_eq .refl _)
  have hinside : ∀ inputs c, m.initialConfiguration inputs = .ok c →
      ∀ d ∈ [c], m.CanReach d.state := by
    intro inputs c hc d hd
    obtain rfl := List.mem_singleton.1 hd
    unfold initialConfiguration at hc
    split at hc
    · simp at hc
    · injection hc with hc
      subst hc
      exact .refl
  refine ⟨(m.numbering names).rename, fun p q => numbering_injective m names,
    fun q => mem_states_reenumerate, fun inputs count => ?_, fun inputs limit => ?_⟩
  · unfold layers
    rw [hstart]
    cases hc : m.initialConfiguration inputs with
    | error e => rfl
    | ok c => exact congrArg Except.ok (hcopies.layersFrom_eq count (hinside inputs c hc))
  · unfold testWithin
    rw [hstart]
    cases hc : m.initialConfiguration inputs with
    | error e => rfl
    | ok c => exact congrArg Except.ok (hcopies.verdictFrom_eq limit (hinside inputs c hc))

/-- An automaton for the words of an odd number of letters "a", with a state that cannot be
reached. -/
def ringing : Machine .finite :=
  build {
    transitions := [⟨"even", [['a']], "odd", ()⟩, ⟨"even", [['b']], "rest", ()⟩,
      ⟨"odd", [['a']], "even", ()⟩, ⟨"lost", [['a']], "even", ()⟩]
    initial := "even"
    finals := .single "odd"
    bounded := true }

/-- Proposes the default name of the second state twice, then that of the third one, and no more. -/
def clashingNames (i : Nat) : Option State := ["q1", "q1", "q2"][i]?

/-- With proposed names that clash three states of the automaton get different names, and the
renumbered automaton still accepts "aaa" within four layers. -/
theorem reenumerate_ringing :
    ringing.IsBuilt ∧ (ringing.reenumerate clashingNames).states.toList = ["q1", "q2", "q3"] ∧
      (ringing.reenumerate clashingNames).testWithin [['a', 'a', 'a']] 4 = .ok (some true) := by
  have hbuilt : ringing.IsBuilt := isBuilt_build (by decide)
  obtain ⟨f, -, -, -, htest⟩ := reenumerate_layers ringing hbuilt clashingNames
  have haccepts : ringing.testWithin [['a', 'a', 'a']] 4 = .ok (some true) := by decide +kernel
  refine ⟨hbuilt, by decide +kernel, ?_⟩
  rw [htest, haccepts]

end Machine

end MachineLang
