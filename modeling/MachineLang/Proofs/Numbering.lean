import MachineLang.Machine.Numbering
import MachineLang.Proofs.Definitions

/-!
# Numbered states

A Turing machine with numbered states tells the machine: no number is missing or given twice, so
every number goes back to the state that it was given to (`nameOf?_numberOf`). A state that has no
number would go by that of the initial state; but the transitions of a machine lead from states to
states, and address each tape in what they read, write and move, so nothing of them is lost
(`original?_numbered`).
-/

namespace MachineLang

/-! ## Reading numbered machines -/

/-- The initial of a direction stands for it. -/
theorem Direction.ofChar?_letter (d : Direction) : Direction.ofChar? d.letter = some d := by
  cases d with
  | left => rfl
  | right => rfl
  | stay => rfl

namespace NumberedMachine

/-- The name of the state with a number. -/
def nameOf? (n : NumberedMachine) (id : Nat) : Option State :=
  (n.states.find? (·.id == id)).map NumberedState.name

/-- The transition between the states with the numbers, with directions for their letters. -/
def original? (n : NumberedMachine) (t : NumberedTransition) : Option (Transition .turing) := do
  let source ← n.nameOf? t.source
  let target ← n.nameOf? t.target
  let shift ← (t.tapes.map fun step => step.shift.letter).mapM Direction.ofChar?
  return ⟨source, t.tapes.map TapeStep.read, target,
    TapeAction.mk (t.tapes.map TapeStep.write) shift⟩

/-- The states, the state where computations begin, the final states and the transitions, from a
numbered machine. -/
def rebuild? (n : NumberedMachine) :
    Option (SortedSet State × State × SortedSet State × List (Transition .turing)) :=
  do
  let initial ← n.states.find? NumberedState.initial
  let transitions ← n.transitions.mapM n.original?
  return (.ofList (n.states.map NumberedState.name), initial.name,
    .ofList ((n.states.filter NumberedState.accepting).map NumberedState.name), transitions)

/-- A numbered machine tells a machine. -/
structure Tells (n : NumberedMachine) (m : Machine .turing) : Prop where
  /-- The numbers are those from zero on, in the order of the list, one for each state. -/
  ids_eq : n.states.map NumberedState.id = List.range m.states.toList.length
  /-- The names are the initial state and then the others as they stand among the states. -/
  names_eq : n.states.map NumberedState.name = m.initial :: m.states.toList.filter (· ≠ m.initial)
  /-- The states of the machine are named, and no others. -/
  mem_names : ∀ q, q ∈ n.states.map NumberedState.name ↔ q ∈ m.states
  /-- Behind the initial state the names increase. -/
  names_sorted : (n.states.map NumberedState.name).tail.Pairwise fun p q => compare p q = .lt
  /-- The initial state is marked as such, and no other state is. -/
  initial_iff : ∀ s ∈ n.states, s.initial = true ↔ s.name = m.initial
  /-- The initial state has the number zero, and no other state has. -/
  id_eq_zero_iff : ∀ s ∈ n.states, s.id = 0 ↔ s.name = m.initial
  /-- The final states are marked as such, and no other states are. -/
  accepting_iff : ∀ s ∈ n.states, s.accepting = true ↔ s.name ∈ m.finals
  /-- There are as many tapes. -/
  tapes_eq : n.tapes = m.tapeCount
  /-- With names for numbers and directions for letters, the transitions are those of the machine,
  in their order. -/
  transitions_eq : n.transitions.mapM n.original? = some m.transitions
  /-- So these parts of the machine can be built again. -/
  rebuild?_eq : n.rebuild? = some (m.states, m.initial, m.finals, m.transitions)

end NumberedMachine

/-! ## Steps on tapes -/

section

variable {reads writes : List Symbol} {shifts : List Direction}

/-- If all lists are as long as the first one, nothing of them is lost. -/
theorem tapeSteps_parts (hwrites : writes.length = reads.length)
    (hshifts : shifts.length = reads.length) :
    (tapeSteps reads writes shifts).map TapeStep.read = reads ∧
      (tapeSteps reads writes shifts).map TapeStep.write = writes ∧
      (tapeSteps reads writes shifts).map TapeStep.shift = shifts := by
  induction reads generalizing writes shifts with
  | nil =>
    obtain rfl := List.length_eq_zero_iff.1 hwrites
    obtain rfl := List.length_eq_zero_iff.1 hshifts
    exact ⟨rfl, rfl, rfl⟩
  | cons read reads ih =>
    obtain ⟨write, writes, rfl⟩ := List.exists_cons_of_length_eq_add_one hwrites
    obtain ⟨shift, shifts, rfl⟩ := List.exists_cons_of_length_eq_add_one hshifts
    obtain ⟨hread, hwrite, hshift⟩ := ih (Nat.succ.inj hwrites) (Nat.succ.inj hshifts)
    exact ⟨congrArg _ hread, congrArg _ hwrite, congrArg _ hshift⟩

/-- The letters of some directions stand for them. -/
theorem mapM_ofChar?_letter (ds : List Direction) :
    (ds.map Direction.letter).mapM Direction.ofChar? = some ds := by
  induction ds with
  | nil => rfl
  | cons d ds ih =>
    rw [List.map_cons, List.mapM_cons, Direction.ofChar?_letter, ih]
    rfl

end

namespace Machine

variable {k : MachineKind} {m : Machine k} {q : State}

/-! ## The order of the numbers -/

/-- The states that have a number are those of the machine. -/
theorem WellFormed.mem_numberedOrder (h : m.WellFormed) : q ∈ m.numberedOrder ↔ q ∈ m.states := by
  unfold numberedOrder
  rw [List.mem_cons, SortedSet.mem_toList]
  unfold SortedSet.erase
  rw [SortedSet.mem_filter, decide_eq_true_iff]
  constructor
  · rintro (rfl | ⟨hq, -⟩)
    · exact h.initial_mem
    · exact hq
  · intro hq
    by_cases heq : q = m.initial
    · exact .inl heq
    · exact .inr ⟨hq, heq⟩

/-- No state has two numbers: the initial one is taken out of the set behind it. -/
theorem nodup_numberedOrder (m : Machine k) : m.numberedOrder.Nodup := by
  refine List.nodup_cons.2 ⟨fun hmem => ?_, SortedSet.nodup_toList _⟩
  have hne := (List.mem_filter.1 hmem).2
  exact (decide_eq_true_iff.1 hne) rfl

/-- There are as many numbers as states. -/
theorem WellFormed.length_numberedOrder (h : m.WellFormed) :
    m.numberedOrder.length = m.states.toList.length := by
  have hperm : m.numberedOrder.Perm m.states.toList :=
    (List.perm_ext_iff_of_nodup m.nodup_numberedOrder m.states.nodup_toList).2 fun _ =>
      h.mem_numberedOrder
  exact hperm.length_eq

/-- A state stands where its number says. -/
theorem getElem?_numberOf (h : q ∈ m.numberedOrder) : m.numberedOrder[m.numberOf q]? = some q := by
  unfold numberOf
  cases hfind : m.numberedOrder.findIdx? (· == q) with
  | none =>
    have hne := List.findIdx?_eq_none_iff.1 hfind q h
    exact absurd rfl (beq_eq_false_iff_ne.1 hne)
  | some i =>
    obtain ⟨hi, hname, -⟩ := List.findIdx?_eq_some_iff_getElem.1 hfind
    rw [Option.getD_some, List.getElem?_eq_getElem hi, beq_iff_eq.1 hname]

end Machine

namespace Machine

variable {m : Machine .turing} {q : State} {id : Nat} {s : NumberedState}

/-! ## Numbered states -/

/-- The numbered states in the order of their numbers. -/
theorem states_withNumbers (m : Machine .turing) :
    m.withNumbers.states = m.numberedOrder.zipIdx.map fun entry =>
    ⟨entry.2, entry.1, decide (entry.1 = m.initial), m.finals.contains entry.1⟩ := rfl

/-- The numbered states are those of the order, each with its place in it. -/
theorem mem_states_withNumbers : s ∈ m.withNumbers.states ↔
    m.numberedOrder[s.id]? = some s.name ∧ s.initial = decide (s.name = m.initial) ∧
      s.accepting = m.finals.contains s.name := by
  obtain ⟨id, name, initial, accepting⟩ := s
  rw [states_withNumbers, List.mem_map]
  constructor
  · rintro ⟨⟨q, i⟩, hmem, heq⟩
    obtain ⟨rfl, rfl, rfl, rfl⟩ := NumberedState.mk.inj heq
    exact ⟨List.mem_zipIdx_iff_getElem?.1 hmem, rfl, rfl⟩
  · rintro ⟨hmem, hinitial, haccepting⟩
    refine ⟨(name, id), List.mem_zipIdx_iff_getElem?.2 hmem, ?_⟩
    exact congr (congrArg (NumberedState.mk id name) hinitial.symm) haccepting.symm

/-- The names of the numbered states. -/
theorem names_withNumbers (m : Machine .turing) :
    m.withNumbers.states.map NumberedState.name = m.numberedOrder := by
  rw [states_withNumbers, List.map_map]
  exact List.zipIdx_map_fst 0 _

/-- The numbers of the numbered states. -/
theorem ids_withNumbers (m : Machine .turing) :
    m.withNumbers.states.map NumberedState.id = List.range m.numberedOrder.length := by
  rw [states_withNumbers, List.map_map, List.range_eq_range']
  exact List.zipIdx_map_snd 0 _

/-- A number stands for the state at its place of the order, and no other state has this number. -/
theorem nameOf?_withNumbers (h : m.numberedOrder[id]? = some q) :
    m.withNumbers.nameOf? id = some q := by
  unfold NumberedMachine.nameOf?
  cases hfind : m.withNumbers.states.find? (·.id == id) with
  | none =>
    have hmem : (⟨id, q, decide (q = m.initial), m.finals.contains q⟩ : NumberedState) ∈
        m.withNumbers.states :=
      mem_states_withNumbers.2 ⟨h, rfl, rfl⟩
    exact absurd (beq_self_eq_true id) (List.find?_eq_none.1 hfind _ hmem)
  | some s =>
    have hid : (s.id == id) = true :=
      List.find?_some (p := fun s : NumberedState => s.id == id) hfind
    -- The entry that is found has the number asked for, and a number has one place in the order.
    obtain ⟨hname, -⟩ := mem_states_withNumbers.1 (List.mem_of_find?_eq_some hfind)
    rw [beq_iff_eq.1 hid] at hname
    exact hname.symm.trans h

/-- The number of a state goes back to it. -/
theorem WellFormed.nameOf?_numberOf (hm : m.WellFormed) (h : q ∈ m.states) :
    m.withNumbers.nameOf? (m.numberOf q) = some q :=
  nameOf?_withNumbers (getElem?_numberOf (hm.mem_numberedOrder.2 h))

/-- Zero is the number of the initial state only. -/
theorem getElem?_numberedOrder_zero_iff (h : m.numberedOrder[id]? = some q) :
    id = 0 ↔ q = m.initial := by
  have hzero : m.numberedOrder[0]? = some m.initial := rfl
  constructor
  · rintro rfl
    exact Option.some.inj (h.symm.trans hzero)
  · rintro rfl
    obtain ⟨hid, -⟩ := List.getElem?_eq_some_iff.1 h
    exact (List.getElem?_inj hid m.nodup_numberedOrder).1 (h.trans hzero.symm)

/-! ## Numbered transitions -/

/-- A transition between states that addresses every tape comes back: its numbers lead to its
states, and its steps tell for each tape what is read, written and where the head moves. -/
theorem WellFormed.original?_numbered (hm : m.WellFormed) {t : Transition .turing}
    (ht : t ∈ m.transitions) {a : TapeAction} (ha : t.action = a) :
    m.withNumbers.original? ⟨m.numberOf t.source, m.numberOf t.target,
      tapeSteps t.read a.write a.shift⟩ = some t := by
  obtain ⟨source, read, target, action⟩ := t
  obtain rfl : action = a := ha
  have hfits : (read.length == m.tapeCount &&
      (action.write.length == m.tapeCount && action.shift.length == m.tapeCount)) =
      true := hm.fits _ ht
  simp only [Bool.and_eq_true, beq_iff_eq] at hfits
  obtain ⟨hread, hwrite, hshift⟩ := hfits
  obtain ⟨hreads, hwrites, hshifts⟩ :=
    tapeSteps_parts (hwrite.trans hread.symm) (hshift.trans hread.symm)
  -- Letters for the directions are read back as the directions.
  have hletters : ((tapeSteps read action.write action.shift).map fun step =>
      step.shift.letter).mapM Direction.ofChar? =
      some action.shift := by
    rw [← mapM_ofChar?_letter action.shift]
    conv => rhs; rw [← hshifts, List.map_map]
    rfl
  unfold NumberedMachine.original?
  dsimp only
  rw [hm.nameOf?_numberOf (hm.source_mem _ ht), hm.nameOf?_numberOf (hm.target_mem _ ht), hletters,
    hreads, hwrites]
  rfl

/-- All transitions come back from their numbered forms, in their order, because each of them leads
from a state of the machine to one and addresses every tape. -/
theorem WellFormed.mapM_original?_withNumbers (hm : m.WellFormed) :
    m.withNumbers.transitions.mapM m.withNumbers.original? = some m.transitions := by
  -- Stated for any transitions of the machine, since the induction removes them one by one.
  have hall : ∀ ts : List (Transition .turing), (∀ t ∈ ts, t ∈ m.transitions) →
      (ts.map fun t =>
        let a : TapeAction := t.action
        (⟨m.numberOf t.source, m.numberOf t.target,
          tapeSteps t.read a.write a.shift⟩ : NumberedTransition)).mapM m.withNumbers.original? =
          some ts := by
    intro ts hts
    induction ts with
    | nil => rfl
    | cons t ts ih =>
      obtain ⟨ht, hts⟩ := List.forall_mem_cons.1 hts
      rw [List.map_cons, List.mapM_cons, ih hts]
      dsimp only
      rw [hm.original?_numbered ht rfl]
      rfl
  exact hall m.transitions fun _ => id

/-- What is rebuilt from the numbered machine is what it was made of: its states, the initial one,
the final ones, and its transitions in their order. -/
theorem WellFormed.rebuild?_withNumbers (hm : m.WellFormed) :
    m.withNumbers.rebuild? = some (m.states, m.initial, m.finals, m.transitions) := by
  -- The initial state is the one that is marked, since the numbered states are the states.
  have hinitial : (m.withNumbers.states.find? NumberedState.initial).map NumberedState.name =
      some m.initial := by
    cases hfind : m.withNumbers.states.find? NumberedState.initial with
    | none =>
      have hmem : (⟨0, m.initial, true, m.finals.contains m.initial⟩ : NumberedState) ∈
          m.withNumbers.states :=
        mem_states_withNumbers.2 ⟨rfl, (decide_eq_true rfl).symm, rfl⟩
      exact absurd rfl (List.find?_eq_none.1 hfind _ hmem)
    | some s =>
      obtain ⟨-, hmarked, -⟩ := mem_states_withNumbers.1 (List.mem_of_find?_eq_some hfind)
      exact congrArg some (decide_eq_true_iff.1 (hmarked.symm.trans (List.find?_some hfind)))
  obtain ⟨s, hs, hname⟩ := Option.map_eq_some_iff.1 hinitial
  have hstates : SortedSet.ofList m.numberedOrder = m.states :=
    SortedSet.ext fun q => SortedSet.mem_ofList.trans hm.mem_numberedOrder
  have hfinals : SortedSet.ofList
      ((m.withNumbers.states.filter NumberedState.accepting).map NumberedState.name) =
      m.finals := by
    refine SortedSet.ext fun q => SortedSet.mem_ofList.trans ?_
    rw [List.mem_map]
    constructor
    · rintro ⟨s, hs, rfl⟩
      obtain ⟨hs, haccepting⟩ := List.mem_filter.1 hs
      obtain ⟨-, -, hmarked⟩ := mem_states_withNumbers.1 hs
      exact SortedSet.contains_iff.1 (hmarked.symm.trans haccepting)
    · intro hq
      have hplace := getElem?_numberOf (hm.mem_numberedOrder.2 (hm.final_mem q hq))
      have hcontains : m.finals.contains q = true := SortedSet.contains_iff.2 hq
      exact ⟨⟨m.numberOf q, q, decide (q = m.initial), true⟩,
        List.mem_filter.2 ⟨mem_states_withNumbers.2 ⟨hplace, rfl, hcontains.symm⟩, rfl⟩, rfl⟩
  unfold NumberedMachine.rebuild?
  rw [hs, hm.mapM_original?_withNumbers, names_withNumbers, hstates, hfinals]
  exact congrArg (fun q => some (m.states, q, m.finals, m.transitions)) hname

/-- The Turing machines that a sequence of operations makes of those that definitions describe are
told by their numbered machines. -/
theorem withNumbers_tells (m : Machine .turing) (h : m.Derived) : m.withNumbers.Tells m := by
  have hm := h.isBuilt.wellFormed
  exact
    { ids_eq := by rw [ids_withNumbers, hm.length_numberedOrder]
      names_eq := names_withNumbers m
      mem_names := fun q => by rw [names_withNumbers, hm.mem_numberedOrder]
      names_sorted := by
        rw [names_withNumbers]
        exact (m.states.erase m.initial).sorted
      initial_iff := fun s hs => by
        rw [(mem_states_withNumbers.1 hs).2.1, decide_eq_true_iff]
      id_eq_zero_iff := fun s hs => getElem?_numberedOrder_zero_iff (mem_states_withNumbers.1 hs).1
      accepting_iff := fun s hs => by
        rw [(mem_states_withNumbers.1 hs).2.2, SortedSet.contains_iff]
      tapes_eq := rfl
      transitions_eq := hm.mapM_original?_withNumbers
      rebuild?_eq := hm.rebuild?_withNumbers }

/-- A machine whose initial state comes last among the names of its states: its numbers, and what
they tell. -/
theorem withNumbers_tells_marking : marking.Derived ∧
    marking.withNumbers.states = [⟨0, "scan", true, false⟩, ⟨1, "done", false, true⟩] ∧
    marking.withNumbers.transitions = [⟨0, 1, [⟨blank, ['b'], .left⟩]⟩,
      ⟨0, 0, [⟨['a'], epsilon, .right⟩]⟩] ∧
    marking.withNumbers.Tells marking := by
  obtain ⟨d, hd⟩ : marking.IsBuilt := isBuilt_build (by decide)
  exact ⟨.new d hd, by decide, by decide, withNumbers_tells marking (.new d hd)⟩

end Machine

end MachineLang
