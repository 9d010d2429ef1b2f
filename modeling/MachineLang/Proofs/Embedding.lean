import MachineLang.Proofs.TapeView
import MachineLang.Proofs.Transitions
import MachineLang.Proofs.Verdict

/-!
# A machine inside another one

The constructions on machines put a machine into a larger one under new names for its states. An
`Embedding` says that this was done with care: the larger machine has the transitions of the smaller
one, and no others leave the renamed states. Then every computation of the smaller machine is one of
the larger machine, move by move, and the other way around (`Embedding.moves`,
`Embedding.moves_back`). The tapes of the two computations need not be equal, only alike: they look
the same from their heads.
-/

namespace MachineLang

namespace MachineKind

variable {k : MachineKind} {tapes tapes' : List Tape}

/-- The tapes of a computation and those of another one that reads the same. -/
def Alike : MachineKind → List Tape → List Tape → Prop
  | turing, tapes, tapes' => List.Forall₂ Tape.Alike tapes tapes'
  | _, tapes, tapes' => tapes = tapes'

/-- Alike tapes read the same, under symbols of any width: a stack or a bounded tape is the same on
both sides, and unbounded ones look the same. -/
theorem Alike.read_eq (h : k.Alike tapes tapes') (width : Nat) :
    k.read width tapes = k.read width tapes' := by
  cases k with
  | finite => exact congrArg _ h
  | pushdown => exact congrArg _ h
  | turing =>
    change List.Forall₂ Tape.Alike tapes tapes' at h
    show tapes.map (fun tape => tape.read width) = tapes'.map fun tape => tape.read width
    induction h with
    | nil => rfl
    | cons hhead _ ih => rw [List.map_cons, List.map_cons, hhead.read_eq, ih]

/-- Writing and moving in the same way keeps tapes alike, one by one. A tape for which there is no
word or no direction stays as it is. -/
theorem alike_writeAndMove (words : List Symbol) (directions : List Direction)
    (h : List.Forall₂ Tape.Alike tapes tapes') :
    List.Forall₂ Tape.Alike (writeAndMove words directions tapes)
      (writeAndMove words directions tapes') := by
  induction h generalizing words directions with
  | nil => cases words <;> cases directions <;> exact .nil
  | cons hhead htail ih =>
    cases words with
    | nil => exact .cons hhead htail
    | cons word words =>
      cases directions with
      | nil => exact .cons hhead htail
      | cons direction directions =>
        exact .cons ((hhead.write word).shift direction.offset) (ih words directions)

/-- The same transition keeps tapes alike. -/
theorem Alike.act (h : k.Alike tapes tapes') (pattern : List Symbol) (action : Action k) :
    k.Alike (k.act pattern action tapes) (k.act pattern action tapes') := by
  cases k with
  | finite => exact congrArg _ h
  | pushdown => exact congrArg _ h
  | turing => exact alike_writeAndMove _ _ h

/-- Alike tapes are accepted together, or neither of them is. -/
theorem Alike.acceptsTapes_eq (h : k.Alike tapes tapes') :
    k.acceptsTapes tapes = k.acceptsTapes tapes' := by
  cases k with
  | finite => exact congrArg _ h
  | pushdown => exact congrArg _ h
  | turing => rfl

end MachineKind

namespace Machine

variable {k : MachineKind}

/-- A transition between the images of its states. -/
def mapTransition (f : State → State) (t : Transition k) : Transition k :=
  { t with source := f t.source, target := f t.target }

/-- A machine is part of another one under new names for its states. -/
structure Embedding (m whole : Machine k) (f : State → State) : Prop where
  /-- Both read with the same width. -/
  width_eq : whole.width = m.width
  /-- The transitions of the machine stay among its states. -/
  target_mem : ∀ t ∈ m.transitions, t.target ∈ m.states
  /-- The whole machine has the transitions of the part. -/
  map_mem : ∀ t ∈ m.transitions, mapTransition f t ∈ whole.transitions
  /-- No other transitions leave the states of the part. -/
  of_mem : ∀ q ∈ m.states, ∀ u ∈ whole.transitions, u.source = f q →
    ∃ t ∈ m.transitions, t.source = q ∧ u = mapTransition f t
  /-- The states of the part are final in the whole machine if they are in the part. -/
  final_iff : ∀ q ∈ m.states, f q ∈ whole.finals ↔ q ∈ m.finals

/-- A configuration of the whole machine shows one of the part. -/
structure Shows (m : Machine k) (f : State → State) (c c' : Configuration) : Prop where
  /-- The state is one of the part. -/
  state_mem : c.state ∈ m.states
  /-- The state of the whole machine is its new name. -/
  state_eq : c'.state = f c.state
  /-- Both accept or neither does. -/
  accepted_eq : c'.accepted = c.accepted
  /-- The tapes look the same. -/
  alike : k.Alike c.tapes c'.tapes

namespace Embedding

variable {m whole : Machine k} {f : State → State} {c c' d d' : Configuration}

/-- A machine is part of itself. -/
theorem refl (hm : m.WellFormed) : Embedding m m id where
  width_eq := rfl
  target_mem := hm.target_mem
  map_mem _ ht := ht
  of_mem _ _ u hu hsource := ⟨u, hu, hsource, rfl⟩
  final_iff _ _ := Iff.rfl

/-- Configurations of the same state, under its name in the larger machine, and alike tapes show
each other: both accept or neither does. -/
theorem shows_configuration (e : Embedding m whole f) {q : State} (hq : q ∈ m.states)
    {tapes tapes' : List Tape} (h : k.Alike tapes tapes') :
    Shows m f (m.configuration q tapes) (whole.configuration (f q) tapes') where
  state_mem := hq
  state_eq := rfl
  accepted_eq := by
    have hfinal : whole.finals.contains (f q) = m.finals.contains q := by
      rw [Bool.eq_iff_iff, SortedSet.contains_iff, SortedSet.contains_iff, e.final_iff q hq]
    unfold configuration
    rw [hfinal, h.acceptsTapes_eq]
  alike := h

/-- A successor for a width is shown by one of the whole machine. -/
theorem stepAt (e : Embedding m whole f) (h : Shows m f c c') {width : Nat}
    (hd : d ∈ m.stepAt c width) : ∃ d' ∈ whole.stepAt c' width, Shows m f d d' := by
  obtain ⟨t, ht, hsource, hmatch, rfl⟩ := mem_stepAt.1 hd
  refine ⟨whole.configuration (f t.target) (k.act t.read t.action c'.tapes), ?_,
    e.shows_configuration (e.target_mem t ht) (h.alike.act t.read t.action)⟩
  refine mem_stepAt.2 ⟨mapTransition f t, e.map_mem t ht, ?_, ?_, rfl⟩
  · rw [h.state_eq, ← hsource]
    rfl
  · rw [← h.alike.read_eq]
    exact hmatch

/-- A successor of the whole machine for a width shows one of the part. -/
theorem stepAt_back (e : Embedding m whole f) (h : Shows m f c c') {width : Nat}
    (hd : d' ∈ whole.stepAt c' width) : ∃ d ∈ m.stepAt c width, Shows m f d d' := by
  obtain ⟨u, hu, hsource, hmatch, rfl⟩ := mem_stepAt.1 hd
  rw [h.state_eq] at hsource
  obtain ⟨t, ht, htsource, rfl⟩ := e.of_mem c.state h.state_mem u hu hsource
  refine ⟨m.configuration t.target (k.act t.read t.action c.tapes), ?_,
    e.shows_configuration (e.target_mem t ht) (h.alike.act t.read t.action)⟩
  refine mem_stepAt.2 ⟨t, ht, htsource, ?_, rfl⟩
  rw [h.alike.read_eq]
  exact hmatch

/-- Both have successors for a width or neither has. -/
theorem stepAt_eq_nil_iff (e : Embedding m whole f) (h : Shows m f c c') {width : Nat} :
    m.stepAt c width = [] ↔ whole.stepAt c' width = [] := by
  rw [List.eq_nil_iff_forall_not_mem, List.eq_nil_iff_forall_not_mem]
  constructor
  · intro hnone d' hd'
    obtain ⟨d, hd, -⟩ := e.stepAt_back h hd'
    exact hnone d hd
  · intro hnone d hd
    obtain ⟨d', hd', -⟩ := e.stepAt h hd
    exact hnone d' hd'

/-- A move of the part is shown by one of the whole machine. -/
theorem move (e : Embedding m whole f) (h : Shows m f c c') (hd : m.Move c d) :
    ∃ d', whole.Move c' d' ∧ Shows m f d d' := by
  -- The same width decides in both machines: the wider ones have successors in neither.
  obtain ⟨width, hpos, hle, hd, hwider⟩ := mem_step.1 hd
  obtain ⟨d', hd', hshows⟩ := e.stepAt h hd
  refine ⟨d', mem_step.2 ⟨width, hpos, ?_, hd', fun wider hlt hle => ?_⟩, hshows⟩
  · rwa [e.width_eq]
  · rw [e.width_eq] at hle
    exact (e.stepAt_eq_nil_iff h).1 (hwider wider hlt hle)

/-- A move of the whole machine from a configuration of the part shows a move of the part. -/
theorem move_back (e : Embedding m whole f) (h : Shows m f c c') (hd : whole.Move c' d') :
    ∃ d, m.Move c d ∧ Shows m f d d' := by
  obtain ⟨width, hpos, hle, hd, hwider⟩ := mem_step.1 hd
  rw [e.width_eq] at hle hwider
  obtain ⟨d, hd, hshows⟩ := e.stepAt_back h hd
  refine ⟨d, mem_step.2 ⟨width, hpos, hle, hd, fun wider hlt hle => ?_⟩, hshows⟩
  exact (e.stepAt_eq_nil_iff h).2 (hwider wider hlt hle)

/-- The moves of the part are shown by moves of the whole machine. -/
theorem moves (e : Embedding m whole f) (h : Shows m f c c') {n : Nat}
    (hd : Moves m.Move n c d) : ∃ d', Moves whole.Move n c' d' ∧ Shows m f d d' :=
  hd.simulate (fun _ _ _ hshows hmove => e.move hshows hmove) h

/-- The moves of the whole machine from a configuration of the part show moves of the part. -/
theorem moves_back (e : Embedding m whole f) (h : Shows m f c c') {n : Nat}
    (hd : Moves whole.Move n c' d') : ∃ d, Moves m.Move n c d ∧ Shows m f d d' := by
  obtain ⟨d, hmoves, hshows⟩ := hd.simulate (R := fun c' c => Shows m f c c')
    (fun _ _ _ hshows hmove => e.move_back hshows hmove) h
  exact ⟨d, hmoves, hshows⟩

/-- Both accept within a limit or neither does. -/
theorem acceptsWithin_iff (e : Embedding m whole f) (h : Shows m f c c') {limit : Nat} :
    m.AcceptsWithin limit c ↔ whole.AcceptsWithin limit c' := by
  constructor
  · rintro ⟨n, hn, d, hmoves, hd⟩
    obtain ⟨d', hmoves', hshows⟩ := e.moves h hmoves
    exact ⟨n, hn, d', hmoves', by rw [hshows.accepted_eq, hd]⟩
  · rintro ⟨n, hn, d', hmoves', hd'⟩
    obtain ⟨d, hmoves, hshows⟩ := e.moves_back h hmoves'
    exact ⟨n, hn, d, hmoves, by rw [← hshows.accepted_eq, hd']⟩

/-- Both go on for some moves or neither does. -/
theorem goesOn_iff (e : Embedding m whole f) (h : Shows m f c c') {n : Nat} :
    m.GoesOn n c ↔ whole.GoesOn n c' := by
  constructor
  · rintro ⟨d, hmoves⟩
    obtain ⟨d', hmoves', -⟩ := e.moves h hmoves
    exact ⟨d', hmoves'⟩
  · rintro ⟨d', hmoves'⟩
    obtain ⟨d, hmoves, -⟩ := e.moves_back h hmoves'
    exact ⟨d, hmoves⟩

/-- Both have the same verdict at every limit. -/
theorem verdict_eq (e : Embedding m whole f) (h : Shows m f c c') (limit : Nat) :
    m.verdictFrom limit [c] = whole.verdictFrom limit [c'] :=
  verdict_congr (e.acceptsWithin_iff h) (e.goesOn_iff h)

end Embedding

end Machine

end MachineLang
