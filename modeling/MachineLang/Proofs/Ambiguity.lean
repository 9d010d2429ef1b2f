import MachineLang.Machine.Analysis
import MachineLang.Proofs.Grouping
import MachineLang.Proofs.Verdict

/-!
# More than one way to go on

A state is reported as non-deterministic if two different transitions that leave it overlap: on each
tape they read the same, or one of them reads nothing. Two transitions that match what is read
overlap, so a state that is not reported has at most one successor for each width
(`length_stepAt_le`). The other way round, the symbols of two overlapping transitions of a finite
automaton can be joined to the contents of its tapes, on which both match and lead to different
successors (`exists_steps_of_overlap`). So the analysis is sound for machines of every kind and
exact for finite automata with bounded tapes (`nonDeterministicStates_sound_and_exact`).
-/

namespace MachineLang

variable {pattern pattern' : List Symbol}

/-! ## Patterns that overlap -/

/-- Two patterns that match the same read overlap: on each tape either one of them asks for nothing,
or both ask for what was read. So a state whose patterns do not overlap has at most one that
matches. -/
theorem overlap_of_matchesRead {read : List Symbol} (h : matchesRead false pattern read = true)
    (h' : matchesRead false pattern' read = true) : overlap pattern pattern' = true := by
  -- All three lists have one length, and the symbols overlap place by place.
  induction pattern generalizing pattern' read with
  | nil =>
    cases read with
    | nil =>
      cases pattern' with
      | nil => rfl
      | cons y pattern' => simp [matchesRead] at h'
    | cons z read => simp [matchesRead] at h
  | cons x pattern ih =>
    cases read with
    | nil => simp [matchesRead] at h
    | cons z read =>
      cases pattern' with
      | nil => simp [matchesRead] at h'
      | cons y pattern' =>
        rw [matchesRead_cons_iff, matchesRead_singleton_iff] at h h'
        obtain ⟨hx, hpattern⟩ := h
        obtain ⟨hy, hpattern'⟩ := h'
        have hxy : (x == y || x == epsilon || y == epsilon) = true := by
          rcases hx with rfl | rfl
          · rcases hy with rfl | rfl
            · simp
            · simp
          · simp
        rw [overlap, hxy, ih hpattern hpattern']
        rfl

/-- A pattern overlaps itself, so two targets of one pattern are always a choice. -/
theorem overlap_self (pattern : List Symbol) : overlap pattern pattern = true := by
  induction pattern with
  | nil => rfl
  | cons x pattern ih =>
    rw [overlap, ih]
    simp

/-- Patterns pass the test if no two of them overlap. -/
theorem anyOverlap_eq_false_iff {patterns : List (List Symbol)} :
    anyOverlap patterns = false ↔
      patterns.Pairwise fun pattern pattern' => overlap pattern pattern' = false := by
  induction patterns with
  | nil => simp [anyOverlap]
  | cons pattern rest ih =>
    rw [anyOverlap, Bool.or_eq_false_iff, ih, List.pairwise_cons, List.any_eq_false]
    simp only [Bool.not_eq_true]

/-- What two overlapping patterns read: on each tape what one of them reads, unless that is
nothing. -/
def joinedPatterns : List Symbol → List Symbol → List Word
  | x :: pattern, y :: pattern' => (if x = epsilon then y else x) :: joinedPatterns pattern pattern'
  | _, _ => []

/-- Overlapping patterns both match what they read together. On each tape that is the symbol of the
one that asks for something, and where both do, their symbols are equal. -/
theorem matchesRead_joinedPatterns (h : overlap pattern pattern' = true) :
    matchesRead false pattern (joinedPatterns pattern pattern') = true ∧
      matchesRead false pattern' (joinedPatterns pattern pattern') = true := by
  -- At each place the joined pattern takes the symbol of the one that asks for something.
  induction pattern generalizing pattern' with
  | nil =>
    cases pattern' with
    | nil => exact ⟨rfl, rfl⟩
    | cons y pattern' => simp [overlap] at h
  | cons x pattern ih =>
    cases pattern' with
    | nil => simp [overlap] at h
    | cons y pattern' =>
      rw [overlap, Bool.and_eq_true] at h
      obtain ⟨hxy, hrest⟩ := h
      obtain ⟨hpattern, hpattern'⟩ := ih hrest
      rw [joinedPatterns, matchesRead_cons_iff (x := x), matchesRead_cons_iff (x := y),
        matchesRead_singleton_iff, matchesRead_singleton_iff]
      refine ⟨⟨?_, hpattern⟩, ?_, hpattern'⟩
      · split_ifs with hx
        · exact .inr hx
        · exact .inl rfl
      · split_ifs with hx
        · exact .inl rfl
        · simp only [Bool.or_eq_true, beq_iff_eq] at hxy
          rcases hxy with (hxy | hxy) | hxy
          · exact .inl hxy.symm
          · exact absurd hxy hx
          · exact .inr hxy

/-- Overlapping patterns address as many tapes as they read together. -/
theorem length_joinedPatterns (h : overlap pattern pattern' = true) :
    (joinedPatterns pattern pattern').length = pattern.length :=
  (matchesRead_iff.1 (matchesRead_joinedPatterns h).1).1.symm

/-- What overlapping patterns read together is read by one of them on each tape. -/
theorem mem_of_mem_joinedPatterns {x : Symbol} (h : x ∈ joinedPatterns pattern pattern') :
    x ∈ pattern ∨ x ∈ pattern' := by
  induction pattern generalizing pattern' with
  | nil => exact absurd h List.not_mem_nil
  | cons y pattern ih =>
    cases pattern' with
    | nil => exact absurd h List.not_mem_nil
    | cons z pattern' =>
      rcases List.mem_cons.1 h with rfl | h
      · split_ifs
        · exact .inr List.mem_cons_self
        · exact .inl List.mem_cons_self
      · exact (ih h).imp (List.mem_cons_of_mem _) (List.mem_cons_of_mem _)

/-- On what two overlapping patterns read together, they move the heads to the same places only if
they are equal: each head ends as far behind its place as the symbol for its tape is long. -/
theorem eq_of_skip_joinedPatterns (h : overlap pattern pattern' = true)
    (heq :
      MachineKind.skip pattern ((joinedPatterns pattern pattern').map fun w => .ofWord w true) =
        MachineKind.skip pattern' ((joinedPatterns pattern pattern').map fun w => .ofWord w true)) :
    pattern = pattern' := by
  induction pattern generalizing pattern' with
  | nil =>
    cases pattern' with
    | nil => rfl
    | cons y pattern' => simp [overlap] at h
  | cons x pattern ih =>
    cases pattern' with
    | nil => simp [overlap] at h
    | cons y pattern' =>
      rw [overlap, Bool.and_eq_true] at h
      obtain ⟨hxy, hrest⟩ := h
      obtain ⟨htape, htapes⟩ := List.cons.inj heq
      rw [ih hrest htapes]
      -- The head stands behind what was read, and the content is what one of the symbols reads.
      have hhead : ∀ z w : Word, z.length ≤ w.length →
          ((Tape.ofWord w true).shift z.length).head = z.length := by
        intro z w hle
        have hplace : ((0 : Nat) : Int) + (z.length : Int) = z.length := by omega
        show (Tape.ofWord w true).clamp (((0 : Nat) : Int) + (z.length : Int)) = _
        rw [hplace]
        exact Tape.clamp_of_le _ _ hle
      have hlength : ((Tape.ofWord (if x = epsilon then y else x) true).shift x.length).head =
          ((Tape.ofWord (if x = epsilon then y else x) true).shift y.length).head :=
            congrArg Tape.head htape
      simp only [Bool.or_eq_true, beq_iff_eq] at hxy
      by_cases hx : x = epsilon
      · subst hx
        rw [if_pos rfl, hhead epsilon y (Nat.zero_le _), hhead y y (Nat.le_refl _)] at hlength
        rw [List.eq_nil_of_length_eq_zero hlength.symm]
        rfl
      · rw [if_neg hx, hhead x x (Nat.le_refl _)] at hlength
        rcases hxy with (rfl | hempty) | rfl
        · rfl
        · exact absurd hempty hx
        · rw [hhead epsilon x (Nat.zero_le _)] at hlength
          exact absurd (List.eq_nil_of_length_eq_zero hlength) hx

namespace Machine

variable {k : MachineKind}

/-! ## States that are not reported -/

/-- A state is reported if its transitions are ambiguous. -/
theorem mem_nonDeterministicStates_iff {m : Machine k} {q : State} :
    q ∈ m.nonDeterministicStates ↔ ∃ choices, m.choices.find? q = some choices ∧
      isAmbiguous choices = true := by
  unfold nonDeterministicStates
  simp only [List.mem_map, List.mem_filter, Prod.exists, exists_and_right, exists_eq_right,
    SortedMap.mem_entries_iff]

/-- The finding about non-deterministic states lists them. -/
theorem nonDeterministic_mem_analyze_iff {m : Machine k} {states : List State} :
    .nonDeterministic states ∈ m.analyze ↔ states = m.nonDeterministicStates ∧ states ≠ [] := by
  unfold analyze findingAbout
  simp only [List.mem_append, List.mem_ite_nil_left, List.mem_ite_nil_right, List.mem_singleton,
    reduceCtorEq, and_false, false_or, Finding.nonDeterministic.injEq, List.isEmpty_iff]
  constructor
  · rintro ⟨hne, rfl⟩
    exact ⟨rfl, hne⟩
  · rintro ⟨rfl, hne⟩
    exact ⟨hne, rfl⟩

/-- If no two members of a list give anything, and each gives at most one thing, at most one thing
is given. -/
theorem length_flatMap_le {α β : Type} {l : List α} {f : α → List β}
    (hone : ∀ a ∈ l, (f a).length ≤ 1) (hpairs : l.Pairwise fun a b => f a = [] ∨ f b = []) :
    (l.flatMap f).length ≤ 1 := by
  induction l with
  | nil => exact Nat.zero_le 1
  | cons a rest ih =>
    obtain ⟨ha, hrest⟩ := List.pairwise_cons.1 hpairs
    obtain ⟨hone, hones⟩ := List.forall_mem_cons.1 hone
    rw [List.flatMap_cons, List.length_append]
    -- Either the first member gives nothing, and the rest decides; or it gives one thing, and then
    -- nobody behind it gives anything.
    by_cases hnil : f a = []
    · rw [hnil]
      simpa using ih hones hrest
    · have hothers : rest.flatMap f = [] :=
        List.flatMap_eq_nil_iff.2 fun b hb => (ha b hb).resolve_left hnil
      rw [hothers]
      exact hone

/-- A configuration whose state is not reported has at most one successor for each width. At most
one pattern matches what is read, since two would overlap, and it has no more than one target. -/
theorem length_stepAt_le {m : Machine k} {c : Configuration}
    (h : c.state ∉ m.nonDeterministicStates) (width : Nat) :
    (m.stepAt c width).length ≤ 1 := by
  unfold stepAt choicesAt
  cases hfind : m.choices.find? c.state with
  | none => exact Nat.zero_le 1
  | some choices =>
    have hclear : isAmbiguous choices = false :=
      Bool.eq_false_iff.2 fun htrue => h (mem_nonDeterministicStates_iff.2 ⟨choices, hfind, htrue⟩)
    obtain ⟨hone, hoverlap⟩ := Bool.or_eq_false_iff.1 hclear
    rw [anyOverlap_eq_false_iff] at hoverlap
    refine length_flatMap_le (fun ⟨pattern, targets⟩ hmem => ?_)
      ((List.pairwise_map.1 hoverlap).imp ?_)
    · dsimp only
      split_ifs
      · have hle := List.any_eq_false.1 hone _ hmem
        rw [decide_eq_true_iff, Nat.not_lt] at hle
        rwa [List.length_map]
      · exact Nat.zero_le 1
    · rintro ⟨pattern, targets⟩ ⟨pattern', targets'⟩ hdisjoint
      dsimp only
      split_ifs with hmatch hmatch'
      · -- Both match what is read, so they would overlap.
        rw [overlap_of_matchesRead hmatch hmatch'] at hdisjoint
        exact absurd hdisjoint (by decide)
      · exact .inr rfl
      · exact .inl rfl
      · exact .inl rfl

/-- A configuration whose state is not reported has at most one successor: only one width counts,
and there at most one transition matches. -/
theorem length_step_le {m : Machine k} {c : Configuration}
    (h : c.state ∉ m.nonDeterministicStates) :
    (m.step c).length ≤ 1 := by
  unfold step
  induction m.width with
  | zero => exact Nat.zero_le 1
  | succ width ih =>
    unfold stepFrom
    dsimp only
    split
    · exact ih
    · exact length_stepAt_le h (width + 1)

/-- Behind a layer of at most one configuration there is another one if no state is reported. -/
theorem length_nextLayer_le {m : Machine k} (h : m.isDeterministic = true)
    {layer : List Configuration} (hlayer : layer.length ≤ 1) : (m.nextLayer layer).length ≤ 1 := by
  have hnone : m.nonDeterministicStates = [] := List.isEmpty_iff.1 h
  unfold nextLayer
  refine Nat.le_trans length_newOnes_le (length_flatMap_le (fun c _ => ?_) ?_)
  · exact length_step_le (hnone ▸ List.not_mem_nil)
  · match layer, hlayer with
    | [], _ => exact .nil
    | [c], _ => exact (List.pairwise_singleton _ c).filter _

/-! ## States that are reported -/

/-- A reported state has two different transitions whose patterns overlap: either two targets for
the same pattern, which are listed once each, or two patterns that overlap without being equal. -/
theorem exists_overlap_of_mem_nonDeterministicStates {m : Machine k} (h : Tidy m.choices)
    {q : State} (hq : q ∈ m.nonDeterministicStates) :
    ∃ t ∈ m.transitions, ∃ t' ∈ m.transitions, t ≠ t' ∧ t.source = q ∧
      t'.source = q ∧ overlap t.read t'.read = true := by
  obtain ⟨choices, hfind, hambiguous⟩ := mem_nonDeterministicStates_iff.1 hq
  have htidy := h q choices hfind
  have hmem : ∀ {read targets target}, (read, targets) ∈ choices.entries → target ∈ targets →
      (⟨q, read, target.state, target.action⟩ : Transition k) ∈ m.transitions :=
        fun hentry htarget =>
    mem_transitions_iff_holds.2 ⟨choices, _, hfind, SortedMap.mem_entries_iff.1 hentry, htarget⟩
  rcases Bool.or_eq_true_iff.1 hambiguous with hmany | hoverlap
  · -- Some pattern has two targets, and they are different.
    obtain ⟨⟨read, targets⟩, hentry, hlength⟩ := List.any_eq_true.1 hmany
    obtain ⟨-, hnodup⟩ := htidy read targets (SortedMap.mem_entries_iff.1 hentry)
    match targets, of_decide_eq_true hlength, hnodup, hentry with
    | [], hlength, _, _ => exact absurd hlength (Nat.not_lt_zero 1)
    | [_], hlength, _, _ => exact absurd hlength (Nat.lt_irrefl 1)
    | first :: second :: rest, _, hnodup, hentry =>
      refine ⟨_, hmem hentry List.mem_cons_self, _,
        hmem hentry (List.mem_cons_of_mem _ List.mem_cons_self), ?_, rfl,
        rfl, overlap_self read⟩
      intro heq
      have hsame : first = second := by
        obtain ⟨state, action⟩ := first
        obtain ⟨state', action'⟩ := second
        injection heq with _ _ hstate haction
        exact (Target.mk.injEq ..).mpr ⟨hstate, haction⟩
      exact (List.nodup_cons.1 hnodup).1 (hsame ▸ List.mem_cons_self)
  · -- Two patterns overlap, and they are different since they are keys of a map.
    have hkeys : choices.keys.Pairwise (· ≠ ·) := by
      refine List.pairwise_map.2 (choices.sorted.imp fun {e e'} hlt heq => ?_)
      rw [heq] at hlt
      simp at hlt
    have hsome : ¬ choices.keys.Pairwise fun pattern pattern' =>
        ¬ (overlap pattern pattern' = true) := by
      simp only [Bool.not_eq_true]
      rw [← anyOverlap_eq_false_iff, hoverlap]
      decide
    obtain ⟨pattern, hpattern, pattern', hpattern', hne, hboth⟩ : ∃ pattern ∈ choices.keys,
        ∃ pattern' ∈ choices.keys, pattern ≠ pattern' ∧ overlap pattern pattern' = true := by
      by_contra hno
      refine hsome (hkeys.imp_of_mem fun {pattern pattern'} hp hp' hne hover => hno ?_)
      exact ⟨pattern, hp, pattern', hp', hne, hover⟩
    obtain ⟨⟨_, targets⟩, hentry, rfl⟩ := List.mem_map.1 hpattern
    obtain ⟨⟨_, targets'⟩, hentry', rfl⟩ := List.mem_map.1 hpattern'
    obtain ⟨target, htarget⟩ :=
      List.exists_mem_of_ne_nil _ (htidy _ _ (SortedMap.mem_entries_iff.1 hentry)).1
    obtain ⟨target', htarget'⟩ :=
      List.exists_mem_of_ne_nil _ (htidy _ _ (SortedMap.mem_entries_iff.1 hentry')).1
    exact ⟨_, hmem hentry htarget, _, hmem hentry' htarget',
      fun heq => hne (congrArg Transition.read heq), rfl, rfl,
      hboth⟩

/-- A finite automaton reads the whole contents of bounded tapes if they are not longer than its
longest symbol. -/
theorem read_loadTapes {m : Machine .finite} (hbounded : m.bounded = true) {inputs : List Word}
    (hlength : inputs.length = m.tapeCount) (hwidth : ∀ w ∈ inputs, w.length ≤ m.width) :
    MachineKind.finite.read m.width (m.loadTapes inputs) = inputs ∧
      m.loadTapes inputs = inputs.map fun w => .ofWord w true := by
  -- No tape is left to be filled with the empty word: there are as many inputs as tapes.
  have hcontents : m.contents inputs = inputs := by
    unfold contents
    rw [← hlength]
    refine List.ext_getElem (by simp) fun i hi hi' => ?_
    simp [List.getElem?_eq_getElem hi']
  have htapes : m.loadTapes inputs = inputs.map fun w => .ofWord w true := by
    rw [loadTapes_eq_map, hcontents, hbounded]
    rfl
  refine ⟨?_, htapes⟩
  rw [htapes]
  show List.map _ (List.map _ inputs) = inputs
  rw [List.map_map]
  refine (List.map_congr_left fun w hw => ?_).trans (List.map_id inputs)
  show ((w.drop 0).take m.width : Word) = w
  rw [List.drop_zero]
  exact List.take_of_length_le (hwidth w hw)

/-- Overlapping transitions of a finite automaton with bounded tapes lead to different successors,
for some contents of the tapes. -/
theorem exists_steps_of_overlap {m : Machine .finite} (h : m.WellFormed)
    (hbounded : m.bounded = true) {t t' : Transition .finite} (ht : t ∈ m.transitions)
    (ht' : t' ∈ m.transitions) (hne : t ≠ t') (hsource : t.source = t'.source)
    (hoverlap : overlap t.read t'.read = true) :
    ∃ inputs : List Word, inputs.length = m.tapeCount ∧ ∃ d d', d ≠ d' ∧
      d ∈ m.step (m.configuration t.source (m.loadTapes inputs)) ∧
      d' ∈ m.step (m.configuration t.source (m.loadTapes inputs)) := by
  obtain ⟨hmatch, hmatch'⟩ := matchesRead_joinedPatterns hoverlap
  have hcount : t.read.length = m.tapeCount := by
    have hfits := h.fits t ht
    unfold fits at hfits
    exact beq_iff_eq.1 (Bool.and_eq_true_iff.1 hfits).1
  have hlength := (length_joinedPatterns hoverlap).trans hcount
  have hwidth : ∀ w ∈ joinedPatterns t.read t'.read, w.length ≤ m.width := fun w hw =>
    (mem_of_mem_joinedPatterns hw).elim (h.length_read_le ht) (h.length_read_le ht')
  obtain ⟨hread, htapes⟩ := read_loadTapes hbounded hlength hwidth
  -- With the largest width everything is read, so both match there.
  have hstep : ∀ u ∈ m.transitions, u.source = t.source →
      matchesRead false u.read (joinedPatterns t.read t'.read) = true →
      m.configuration u.target
        (MachineKind.skip u.read (m.loadTapes (joinedPatterns t.read t'.read))) ∈
        m.step (m.configuration t.source (m.loadTapes (joinedPatterns t.read t'.read))) := by
    intro u hu husource hmatch
    refine mem_step.2 ⟨m.width, m.width_pos, Nat.le_refl _, ?_,
      fun wider hlt hle => absurd hlt (Nat.not_lt.2 hle)⟩
    refine mem_stepAt.2 ⟨u, hu, husource, ?_, rfl⟩
    show matchesRead false u.read (MachineKind.finite.read m.width (m.loadTapes _)) = true
    rw [hread]
    exact hmatch
  refine ⟨_, hlength, _, _, ?_, hstep t ht rfl hmatch, hstep t' ht' hsource.symm hmatch'⟩
  intro heq
  have hstate : t.target = t'.target := congrArg Configuration.state heq
  have hread' : t.read = t'.read := by
    refine eq_of_skip_joinedPatterns hoverlap ?_
    rw [← htapes]
    exact congrArg Configuration.tapes heq
  refine hne ?_
  cases t
  cases t'
  dsimp only at hsource hread' hstate
  rw [hsource, hread', hstate]
  rfl

/-- The analysis of determinism. A configuration of a machine of any kind whose state is not
reported has at most one successor, and if no state is reported, each layer of every computation has
at most one configuration. For every state that is reported for a finite automaton with bounded
tapes there are contents of the tapes with which it has two different successors. -/
theorem nonDeterministicStates_sound_and_exact :
    (∀ (k : MachineKind) (m : Machine k) (c : Configuration),
      (¬ ∃ states, .nonDeterministic states ∈ m.analyze ∧ c.state ∈ states) →
        (m.step c).length ≤ 1) ∧
    (∀ (k : MachineKind) (m : Machine k), m.isDeterministic = true → ∀ inputs count layers,
      m.layers inputs count = .ok layers → ∀ layer ∈ layers, layer.length ≤ 1) ∧
    ∀ m : Machine .finite, m.IsBuilt → m.bounded = true → ∀ states,
      .nonDeterministic states ∈ m.analyze →
      ∀ q ∈ states, ∃ inputs : List Word, inputs.length = m.tapeCount ∧ ∃ d d', d ≠ d' ∧
        d ∈ m.step (m.configuration q (m.loadTapes inputs)) ∧
        d' ∈ m.step (m.configuration q (m.loadTapes inputs)) := by
  refine ⟨fun k m c h => length_step_le fun hmem => h ?_,
    fun k m h inputs count layers hlayers layer hlayer => ?_,
    fun m h hbounded states hfinding q hq => ?_⟩
  · exact ⟨_, nonDeterministic_mem_analyze_iff.2 ⟨rfl, List.ne_nil_of_mem hmem⟩, hmem⟩
  · exact forall_mem_layers (P := fun layer => layer.length ≤ 1) hlayers (fun c _ => Nat.le_refl 1)
      (fun _ => length_nextLayer_le h) layer hlayer
  · obtain ⟨rfl, -⟩ := nonDeterministic_mem_analyze_iff.1 hfinding
    obtain ⟨t, ht, t', ht', hne, rfl, hsource, hoverlap⟩ :=
      exists_overlap_of_mem_nonDeterministicStates h.tidy hq
    exact exists_steps_of_overlap h.wellFormed hbounded ht ht' hne hsource.symm hoverlap

/-- An automaton with two tapes that may read either of them in its first state. In its second state
it reads one or two characters from the first tape. -/
def hesitating : Machine .finite :=
  build {
    transitions := [⟨"choose", [['a', 'b'], []], "go", ()⟩, ⟨"choose", [[], ['c']], "go", ()⟩,
      ⟨"go", [['a'], []], "choose", ()⟩, ⟨"go", [['a', 'b'], []], "choose", ()⟩]
    initial := "choose"
    finals := .single "go"
    tapes := ["left", "right"]
    bounded := true }

/-- A Turing machine that writes over a word. -/
def overwriting : Machine .turing :=
  build {
    transitions := [⟨"go", [['a']], "go", TapeAction.mk [['b']] [.right]⟩,
      ⟨"go", [blank], "done", TapeAction.mk [[]] [.stay]⟩]
    initial := "go"
    finals := .single "done"
    bounded := false }

/-- The automaton hesitates in its first state alone, on some contents of its tapes, and the Turing
machine never does. -/
theorem nonDeterministicStates_hesitating :
    hesitating.analyze = [.nonDeterministic ["choose"]] ∧ hesitating.IsBuilt ∧
      (∀ tapes, (hesitating.step (hesitating.configuration "go" tapes)).length ≤ 1) ∧
      (∃ inputs : List Word, inputs.length = 2 ∧ ∃ d d', d ≠ d' ∧
        d ∈ hesitating.step (hesitating.configuration "choose" (hesitating.loadTapes inputs)) ∧
        d' ∈ hesitating.step (hesitating.configuration "choose" (hesitating.loadTapes inputs))) ∧
      overwriting.isDeterministic = true ∧
      ∀ layer ∈ overwriting.layersFrom 5 [overwriting.start [['a', 'a']]], layer.length ≤ 1 := by
  obtain ⟨hsound, hlayers, hexact⟩ := nonDeterministicStates_sound_and_exact
  have hanalyze : hesitating.analyze = [.nonDeterministic ["choose"]] := by decide +kernel
  have hbuilt : hesitating.IsBuilt := isBuilt_build (by decide)
  have hdeterministic : overwriting.isDeterministic = true := by decide +kernel
  refine ⟨hanalyze, hbuilt, fun tapes => hsound .finite hesitating _ ?_, ?_, hdeterministic, ?_⟩
  · rintro ⟨states, hstates, hgo⟩
    rw [hanalyze, List.mem_singleton, Finding.nonDeterministic.injEq] at hstates
    subst hstates
    -- The only state named is "choose", so "go" is not among the ones that hesitate.
    have hother : ("go" : State) ≠ "choose" := by decide
    exact hother (List.mem_singleton.1 hgo)
  · exact hexact hesitating hbuilt rfl ["choose"] (hanalyze ▸ List.mem_singleton_self _) "choose"
      (List.mem_singleton_self _)
  · exact hlayers .turing overwriting hdeterministic [['a', 'a']] 5 _ rfl

end Machine

end MachineLang
