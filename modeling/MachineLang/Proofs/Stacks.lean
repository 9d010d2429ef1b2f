import MachineLang.Proofs.Paths

/-!
# Stacks

A pushdown automaton whose symbols have one character works as in a textbook. A point of its
computation is a state, the part of the word that is still to be read, and the contents of the
stacks, tops first (`Description`). A move takes a transition: what it reads is in front of the rest
of the word, what it pops is on top of the stacks, and what it pushes comes in its place
(`StackMove`). The automaton's own moves follow these one by one (`move_facing_iff`), so a word is
accepted within a limit if fewer moves than the limit read all of it and end in a final state
(`testWithin_iff_stackMoves`).
-/

namespace MachineLang

/-- A point of a computation with stacks. -/
structure Description where
  /-- The state. -/
  state : State
  /-- The part of the word that is still to be read. -/
  rest : Word
  /-- The contents of the stacks, tops first. -/
  held : List Word

/-- Stacks that have some words on top of others. -/
def onTop (tops below : List Word) : List Word := List.zipWith (fun top w => top ++ w) tops below

/-! ## Symbols on stacks -/

variable {pops pushes : List Symbol} {held below : List Word} {x : Symbol}

/-- Symbols of at most one character match the tops of the stacks if they are on top of them. -/
theorem matchesRead_tops_iff (hpops : ∀ x ∈ pops, x.length ≤ 1) :
    matchesRead false pops (held.map fun w => w.take 1) = true ↔
      ∃ below, below.length = pops.length ∧ held = onTop pops below := by
  -- The induction is on what is popped; each symbol splits the stack that it is matched with.
  induction pops generalizing held with
  | nil =>
    cases held with
    | nil => exact iff_of_true rfl ⟨[], rfl, rfl⟩
    | cons w held => simp [matchesRead, onTop]
  | cons x pops ih =>
    obtain ⟨hx, hpops⟩ := List.forall_mem_cons.1 hpops
    cases held with
    | nil =>
      refine iff_of_false (by simp [matchesRead]) ?_
      rintro ⟨below, hlength, hstacks⟩
      cases below with
      | nil => simp at hlength
      | cons w below => simp [onTop] at hstacks
    | cons w held =>
      rw [List.map_cons, matchesRead_cons_iff, Machine.matchesRead_take_iff hx, ih hpops]
      constructor
      · rintro ⟨⟨u, rfl⟩, below, hlength, rfl⟩
        exact ⟨u :: below, by rw [List.length_cons, List.length_cons, hlength], rfl⟩
      · rintro ⟨below, hlength, hstacks⟩
        cases below with
        | nil => simp at hlength
        | cons u below =>
          obtain ⟨rfl, rfl⟩ := List.cons.inj hstacks
          exact ⟨⟨u, rfl⟩, below, Nat.succ.inj hlength, rfl⟩

/-- Popping what is on top of the stacks and pushing something else puts it in its place, on each of
the stacks, and leaves what is below. -/
theorem replace_onTop (hpops : below.length = pops.length)
    (hpushes : below.length = pushes.length) :
    MachineKind.replace pops pushes ((onTop pops below).map fun w => standing w 0) =
      (onTop pushes below).map fun w => standing w 0 := by
  -- The induction is on the stacks; each of them changes on its own.
  induction below generalizing pops pushes with
  | nil =>
    obtain rfl := List.length_eq_zero_iff.1 hpops.symm
    obtain rfl := List.length_eq_zero_iff.1 hpushes.symm
    rfl
  | cons w below ih =>
    cases pops with
    | nil => simp at hpops
    | cons pop pops =>
      cases pushes with
      | nil => simp at hpushes
      | cons push pushes =>
        have htop : ((standing (pop ++ w) 0).popFront pop.length).pushFront push =
            standing (push ++ w) 0 := by
          unfold standing Tape.popFront Tape.pushFront
          dsimp only
          rw [List.drop_left]
        have hbelow := ih (Nat.succ.inj hpops) (Nat.succ.inj hpushes)
        show ((standing (pop ++ w) 0).popFront pop.length).pushFront push ::
          MachineKind.replace pops pushes ((onTop pops below).map fun w => standing w 0) = _
        rw [htop, hbelow]
        rfl

namespace Machine

variable {m : Machine .pushdown} {s s' : Description} {before : Word} {c d : Configuration}
  {n : Nat}

/-! ## Moves as in a textbook -/

/-- A transition replaces what it reads and pops by what it pushes. -/
inductive StackMove (m : Machine .pushdown) : Description → Description → Prop
  /-- What a transition reads is in front of the rest, and what it pops is on top of the stacks. -/
  | take {q p : State} {x : Symbol} {pops pushes : List Symbol} {rest : Word} {below : List Word} :
      ⟨q, x :: pops, p, StackAction.mk pushes⟩ ∈ m.transitions → below.length = pops.length →
      StackMove m ⟨q, x ++ rest, onTop pops below⟩ ⟨p, rest, onTop pushes below⟩

/-- The point at which a computation begins: the first input is to be read, and the stacks hold the
others; stacks without an input are empty. -/
def startDescription (m : Machine .pushdown) (inputs : List Word) : Description :=
  ⟨m.initial, inputs.getD 0 [], (List.range (m.tapeCount - 1)).map fun i => inputs.getD (i + 1) []⟩

/-- A configuration with some of the word read, in front of the rest, and with the given stacks. -/
def facing (m : Machine .pushdown) (before : Word) (s : Description) : Configuration :=
  m.configuration s.state
    (standing (before ++ s.rest) before.length :: s.held.map fun w => standing w 0)

/-- What a transition reads and does: it has one symbol for the word and one for each stack, and a
word to push for each stack. -/
theorem WellFormed.transition_cases (hm : m.WellFormed) {t : Transition .pushdown}
    (ht : t ∈ m.transitions) :
    ∃ q x pops p pushes, t = ⟨q, x :: pops, p, StackAction.mk pushes⟩ ∧
      pops.length + 1 = m.tapeCount ∧ pushes.length + 1 = m.tapeCount := by
  have hfits := hm.fits t ht
  obtain ⟨q, read, p, ⟨pushes⟩⟩ := t
  unfold Machine.fits MachineKind.fits at hfits
  rw [Bool.and_eq_true, beq_iff_eq, beq_iff_eq] at hfits
  obtain ⟨hread, hpush⟩ := hfits
  cases read with
  | nil =>
    have hpos := hm.tapeCount_pos
    rw [List.length_nil] at hread
    omega
  | cons x pops => exact ⟨q, x, pops, p, pushes, rfl, hread, hpush⟩

/-- A configuration accepts in a final state with nothing left to read. -/
theorem accepted_facing_iff :
    (m.facing before s).accepted = true ↔ s.state ∈ m.finals ∧ s.rest = [] := by
  show (m.finals.contains s.state && (standing _ _).isAtEnd) = true ↔ _
  rw [Bool.and_eq_true, SortedSet.contains_iff, isAtEnd_standing_iff]

/-- One character is read from the word and from each stack, if there is any. -/
theorem read_facing (m : Machine .pushdown) (before : Word) (s : Description) :
    MachineKind.pushdown.read 1 (m.facing before s).tapes =
      s.rest.take 1 :: s.held.map fun w => w.take 1 := by
  show (standing (before ++ s.rest) before.length).read 1 ::
    (s.held.map fun w => standing w 0).map (fun stack => stack.read 1) = _
  rw [read_standing, List.drop_left, List.map_map]
  rfl

/-- A transition leads from a configuration in front of what it reads and pops to one behind what it
reads, with what it pushes on the stacks. -/
theorem act_facing {q p : State} {rest : Word} (hpops : below.length = pops.length)
    (hpushes : below.length = pushes.length) :
    m.configuration p (MachineKind.pushdown.act (x :: pops) (StackAction.mk pushes)
        (m.facing before ⟨q, x ++ rest, onTop pops below⟩).tapes) =
      m.facing (before ++ x) ⟨p, rest, onTop pushes below⟩ := by
  have hle : before.length + x.length ≤ (before ++ (x ++ rest)).length := by
    simp only [List.length_append]
    omega
  show m.configuration p ((standing (before ++ (x ++ rest)) before.length).shift x.length ::
    MachineKind.replace pops pushes ((onTop pops below).map fun w => standing w 0)) = _
  rw [shift_standing hle, replace_onTop hpops hpushes, ← List.length_append, ← List.append_assoc]
  rfl

/-- A transition with symbols of at most one character matches if what it reads is in front of the
rest and what it pops is on top of the stacks. -/
theorem matchesRead_facing_iff (hshort : ∀ y ∈ x :: pops, y.length ≤ 1) :
    matchesRead false (x :: pops) (MachineKind.pushdown.read 1 (m.facing before s).tapes) = true ↔
      (∃ rest, s.rest = x ++ rest) ∧ ∃ below, below.length = pops.length ∧
        s.held = onTop pops below := by
  obtain ⟨hx, hpops⟩ := List.forall_mem_cons.1 hshort
  rw [read_facing, matchesRead_cons_iff, matchesRead_take_iff hx, matchesRead_tops_iff hpops]

/-- The moves of a pushdown automaton with symbols of one character are those of a textbook. -/
theorem move_facing_iff (hm : m.WellFormed) (hw : m.width = 1) :
    m.Move (m.facing before s) d ↔
      ∃ x s', m.StackMove s s' ∧ s.rest = x ++ s'.rest ∧ d = m.facing (before ++ x) s' := by
  have hshort : ∀ t ∈ m.transitions, ∀ y ∈ t.read, y.length ≤ 1 := by
    intro t ht y hy
    rw [← hw]
    exact hm.length_read_le ht hy
  unfold Move
  rw [mem_step_of_width_eq_one hw]
  constructor
  · rintro ⟨t, ht, hsource, hmatch, rfl⟩
    obtain ⟨q, x, pops, p, pushes, rfl, hpops, hpushes⟩ := hm.transition_cases ht
    obtain ⟨⟨rest, hrest⟩, below, hbelow, hheld⟩ :=
      (matchesRead_facing_iff (hshort _ ht)).1 hmatch
    obtain ⟨state, word, held⟩ := s
    dsimp only at hrest hheld
    obtain rfl : q = state := hsource
    subst hrest hheld
    exact ⟨x, ⟨p, rest, onTop pushes below⟩, .take ht hbelow, rfl, act_facing hbelow (by omega)⟩
  · rintro ⟨y, s', hmove, hrest, rfl⟩
    cases hmove with
    | @take q p x pops pushes rest below ht hbelow =>
      -- What the transition reads is what separates the two rests.
      obtain rfl : x = y := List.append_cancel_right hrest
      obtain ⟨_, _, _, _, _, heq, hpops, hpushes⟩ := hm.transition_cases ht
      cases heq
      have hmatch : matchesRead false (x :: pops) (MachineKind.pushdown.read 1
          (m.facing before ⟨q, x ++ rest, onTop pops below⟩).tapes) = true :=
        (matchesRead_facing_iff (hshort _ ht)).2 ⟨⟨rest, rfl⟩, below, hbelow, rfl⟩
      exact ⟨_, ht, rfl, hmatch, (act_facing hbelow (by omega)).symm⟩

/-- A configuration of the automaton shows a point of a textbook computation. -/
def Faces (m : Machine .pushdown) (c : Configuration) (s : Description) : Prop :=
  ∃ before, c = m.facing before s

/-- A configuration accepts within a limit if fewer moves than the limit lead from the point that it
shows to a final state with nothing left to read. -/
theorem acceptsWithin_iff_stackMoves (hm : m.WellFormed) (hw : m.width = 1) (h : m.Faces c s)
    {limit : Nat} :
    m.AcceptsWithin limit c ↔
      ∃ n < limit, ∃ f ∈ m.finals, ∃ held, Moves m.StackMove n s ⟨f, [], held⟩ := by
  constructor
  · rintro ⟨n, hn, d, hmoves, hd⟩
    have hstep : ∀ c d s, m.Faces c s → m.Move c d → ∃ s', m.StackMove s s' ∧ m.Faces d s' := by
      rintro _ d s ⟨before, rfl⟩ hmove
      obtain ⟨x, s', hstack, -, hd⟩ := (move_facing_iff hm hw).1 hmove
      exact ⟨s', hstack, before ++ x, hd⟩
    obtain ⟨s', hstacks, before, rfl⟩ := hmoves.simulate hstep h
    obtain ⟨hfinal, hrest⟩ := accepted_facing_iff.1 hd
    obtain ⟨f, rest, held⟩ := s'
    dsimp only at hfinal hrest
    subst hrest
    exact ⟨n, hn, f, hfinal, held, hstacks⟩
  · rintro ⟨n, hn, f, hfinal, held, hmoves⟩
    have hstep : ∀ s s' c, m.Faces c s → m.StackMove s s' → ∃ d, m.Move c d ∧ m.Faces d s' := by
      rintro s s' _ ⟨before, rfl⟩ hstack
      -- A textbook move does not say what it reads; the rests before and after it do.
      obtain ⟨x, hrest⟩ : ∃ x, s.rest = x ++ s'.rest := by
        cases hstack with
        | take ht hbelow => exact ⟨_, rfl⟩
      exact ⟨_, (move_facing_iff hm hw).2 ⟨x, s', hstack, hrest, rfl⟩, before ++ x, rfl⟩
    obtain ⟨d, hmoves', before, rfl⟩ :=
      hmoves.simulate (R := fun s c => m.Faces c s) hstep h
    exact ⟨n, hn, _, hmoves', accepted_facing_iff.2 ⟨hfinal, rfl⟩⟩

/-- A pushdown automaton begins with the whole word in front of it and its stacks loaded. -/
theorem start_eq_facing (hm : m.WellFormed) (inputs : List Word) :
    m.start inputs = m.facing [] (m.startDescription inputs) := by
  have hpos := hm.tapeCount_pos
  -- The first tape holds the word, and the others are the stacks.
  have hrange : List.range m.tapeCount =
      0 :: (List.range (m.tapeCount - 1)).map Nat.succ := by
    rw [← List.range_succ_eq_map, Nat.sub_add_cancel hpos]
  unfold start loadTapes facing startDescription
  dsimp only
  rw [hrange, List.map_cons, List.map_map, List.map_map]
  rfl

/-- A pushdown automaton with symbols of one character accepts as in a textbook, with any number of
stacks and whatever they hold at the beginning. Its transitions read nothing or one character, pop
nothing or one character from each stack and push a word on each; and it accepts within a limit if
and only if fewer moves than the limit lead from the beginning to a final state with nothing left to
read. -/
theorem testWithin_iff_stackMoves (m : Machine .pushdown) (hm : m.IsBuilt) (hw : m.width = 1)
    (inputs : List Word) (h : inputs.length ≤ m.tapeCount) :
    (∀ t ∈ m.transitions, ∃ q x pops p pushes, t = ⟨q, x :: pops, p, StackAction.mk pushes⟩ ∧
      pops.length + 1 = m.tapeCount ∧ pushes.length + 1 = m.tapeCount ∧
      ∀ y ∈ x :: pops, y = epsilon ∨ ∃ c : Char, y = [c]) ∧
    (∀ limit, m.testWithin inputs limit = .ok (some true) ↔
      ∃ n < limit, ∃ f ∈ m.finals, ∃ held,
        Moves m.StackMove n (m.startDescription inputs) ⟨f, [], held⟩) ∧
    ((∃ limit, m.testWithin inputs limit = .ok (some true)) ↔
      ∃ n, ∃ f ∈ m.finals, ∃ held,
        Moves m.StackMove n (m.startDescription inputs) ⟨f, [], held⟩) := by
  have hwf := hm.wellFormed
  -- A verdict is positive if moves of configurations accept, and these are moves of descriptions.
  have hlimit : ∀ limit, m.testWithin inputs limit = .ok (some true) ↔
      ∃ n < limit, ∃ f ∈ m.finals, ∃ held,
        Moves m.StackMove n (m.startDescription inputs) ⟨f, [], held⟩ := by
    intro limit
    rw [testWithin_eq h, Except.ok.injEq, verdict_eq_true_iff,
      acceptsWithin_iff_stackMoves hwf hw ⟨[], start_eq_facing hwf inputs⟩]
  refine ⟨fun t ht => ?_, hlimit, ?_⟩
  · obtain ⟨q, x, pops, p, pushes, rfl, hpops, hpushes⟩ := hwf.transition_cases ht
    refine ⟨q, x, pops, p, pushes, rfl, hpops, hpushes, fun y hy => ?_⟩
    apply eq_epsilon_or_singleton
    rw [← hw]
    exact hwf.length_read_le ht hy
  · constructor
    · rintro ⟨limit, hverdict⟩
      obtain ⟨n, -, hmoves⟩ := (hlimit limit).1 hverdict
      exact ⟨n, hmoves⟩
    · rintro ⟨n, hmoves⟩
      exact ⟨n + 1, (hlimit _).2 ⟨n, Nat.lt_succ_self n, hmoves⟩⟩

/-- A pushdown automaton with two stacks that puts an "x" on the first one for each "a" and takes an
"x" and a "y" off the two for each "b". -/
def matching : Machine .pushdown :=
  build {
    transitions := [⟨"count", [['a'], epsilon, epsilon], "count", StackAction.mk [['x'], epsilon]⟩,
      ⟨"count", [['b'], ['x'], ['y']], "count", StackAction.mk [epsilon, epsilon]⟩]
    initial := "count"
    finals := .single "count"
    tapes := ["input", "counter", "supply"]
    bounded := true }

/-- With a "y" on its second stack the automaton reads "ab" by two moves, so three layers accept it.
With empty stacks it fails at the "b", so fewer than three moves do not read the word. -/
theorem testWithin_matching :
    matching.IsBuilt ∧ matching.width = 1 ∧ [['a', 'b'], [], ['y']].length ≤ matching.tapeCount ∧
      matching.testWithin [['a', 'b'], [], ['y']] 3 = .ok (some true) ∧
      [['a', 'b']].length ≤ matching.tapeCount ∧
      ¬ ∃ n < 3, ∃ f ∈ matching.finals, ∃ held,
        Moves matching.StackMove n (matching.startDescription [['a', 'b']]) ⟨f, [], held⟩ := by
  have hmatching : matching.IsBuilt := isBuilt_build (by decide)
  have hwidth : matching.width = 1 := by decide +kernel
  obtain ⟨-, hfilled, -⟩ := testWithin_iff_stackMoves matching hmatching hwidth
    [['a', 'b'], [], ['y']] (Nat.le_refl 3)
  obtain ⟨-, hempty, -⟩ :=
    testWithin_iff_stackMoves matching hmatching hwidth [['a', 'b']] (by decide)
  -- The automaton takes an "a" for a new "x" on its first stack, and a "b" for that and the "y" on
  -- the second one.
  have hcount : ⟨"count", ['a'] :: [epsilon, epsilon], "count", StackAction.mk [['x'], epsilon]⟩ ∈
      matching.transitions := mem_transitions_build.2 List.mem_cons_self
  have htake : ⟨"count", ['b'] :: [['x'], ['y']], "count", StackAction.mk [epsilon, epsilon]⟩ ∈
      matching.transitions :=
    mem_transitions_build.2 (List.mem_cons_of_mem _ List.mem_cons_self)
  have hpush : matching.StackMove ⟨"count", ['a'] ++ ['b'], onTop [epsilon, epsilon] [[], ['y']]⟩
      ⟨"count", ['b'], onTop [['x'], epsilon] [[], ['y']]⟩ := .take hcount rfl
  have hpop : matching.StackMove ⟨"count", ['b'] ++ [], onTop [['x'], ['y']] [[], []]⟩
      ⟨"count", [], onTop [epsilon, epsilon] [[], []]⟩ := .take htake rfl
  refine ⟨hmatching, hwidth, Nat.le_refl 3, (hfilled 3).2 ?_, by decide, ?_⟩
  · exact ⟨2, by decide, "count", List.mem_singleton_self _, _,
      .step hpush (.step hpop (.refl _))⟩
  · rw [← hempty]
    decide +kernel

end Machine

end MachineLang
