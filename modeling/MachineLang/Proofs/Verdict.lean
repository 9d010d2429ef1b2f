import MachineLang.Machine.Run
import MachineLang.Proofs.Moves

/-!
# The verdict of a bounded search

A search goes through layers of configurations, drops repetitions and does not expand configurations
that accept. Nothing is lost by that: the layer with number `n` holds what `n` moves reach that
leave no accepting configuration (`mem_layerAfter`), and the first accepting configuration on any
path is reached by such moves. So the verdict within a limit is a statement about paths alone: it is
positive if fewer moves than the limit reach an accepting configuration, negative if they do not and
there is no path of as many moves as the limit, and missing otherwise
(`testWithin_and_layers_of_reachability`).
-/

namespace MachineLang.Machine

variable {k : MachineKind}

/-- A step from one configuration to another, as the search makes it. -/
def Move (m : Machine k) (c d : Configuration) : Prop := d ∈ m.step c

/-- A step that leaves a configuration that does not accept. -/
def OpenMove (m : Machine k) (c d : Configuration) : Prop := c.accepted = false ∧ m.Move c d

/-- Some accepting configuration is reached by fewer than `limit` moves. -/
def AcceptsWithin (m : Machine k) (limit : Nat) (c : Configuration) : Prop :=
  ∃ n < limit, ∃ d, Moves m.Move n c d ∧ d.accepted = true

/-- There is a path of exactly `n` moves. -/
def GoesOn (m : Machine k) (n : Nat) (c : Configuration) : Prop := ∃ d, Moves m.Move n c d

/-- The configuration in which a computation begins, if there are no more inputs than tapes. -/
def start (m : Machine k) (inputs : List Word) : Configuration :=
  m.configuration m.initial (m.loadTapes inputs)

/-- The words on the tapes at the start of a computation; tapes without an input are empty. -/
def contents (m : Machine k) (inputs : List Word) : List Word :=
  (List.range m.tapeCount).map fun i => inputs.getD i []

/-- A computation begins with its words loaded on the tapes. -/
theorem loadTapes_eq_map (m : Machine k) (inputs : List Word) :
    m.loadTapes inputs = (m.contents inputs).map fun w => k.load w m.bounded := by
  unfold loadTapes contents
  rw [List.map_map]
  rfl

/-- There is a tape for each name. -/
theorem length_loadTapes (m : Machine k) (inputs : List Word) :
    (m.loadTapes inputs).length = m.tapeCount := by
  unfold loadTapes
  rw [List.length_map, List.length_range]

/-- The tapes at the start depend on their number and boundedness alone. -/
theorem loadTapes_congr {m other : Machine k} (ht : m.tapeCount = other.tapeCount)
    (hb : m.bounded = other.bounded) (inputs : List Word) :
    m.loadTapes inputs = other.loadTapes inputs := by
  unfold loadTapes
  rw [ht, hb]

/-- The layer that lies `n` layers behind a layer. -/
def layerAfter (m : Machine k) : Nat → List Configuration → List Configuration
  | 0, layer => layer
  | n + 1, layer => m.layerAfter n (m.nextLayer layer)

/-! ## Layers and moves -/

/-- The configurations of the next layer are those that an open move reaches. -/
theorem mem_nextLayer {m : Machine k} {layer : List Configuration} {d : Configuration} :
    d ∈ m.nextLayer layer ↔ ∃ c ∈ layer, m.OpenMove c d := by
  unfold nextLayer OpenMove Move
  rw [mem_newOnes_id, List.mem_flatMap]
  constructor
  · rintro ⟨c, hc, hd⟩
    obtain ⟨hc, hopen⟩ := List.mem_filter.1 hc
    exact ⟨c, hc, by simpa using hopen, hd⟩
  · rintro ⟨c, hc, hopen, hd⟩
    exact ⟨c, List.mem_filter.2 ⟨hc, by simp [hopen]⟩, hd⟩

/-- A layer that was computed repeats nothing. -/
theorem nodup_nextLayer (m : Machine k) (layer : List Configuration) :
    (m.nextLayer layer).Nodup := by
  have h : ((m.nextLayer layer).map id).Nodup := nodup_newOnes
  rwa [List.map_id] at h

/-- Behind a layer that repeats nothing, no layer repeats anything. -/
theorem nodup_layerAfter (m : Machine k) (n : Nat) {layer : List Configuration}
    (h : layer.Nodup) : (m.layerAfter n layer).Nodup := by
  induction n generalizing layer with
  | zero => exact h
  | succ n ih => exact ih (m.nodup_nextLayer layer)

/-- The layer with number `n` holds what `n` open moves reach, by induction over the layers: each
holds what one more move reaches from those before it that do not accept. -/
theorem mem_layerAfter {m : Machine k} {n : Nat} {layer : List Configuration}
    {d : Configuration} : d ∈ m.layerAfter n layer ↔ ∃ c ∈ layer, Moves m.OpenMove n c d := by
  induction n generalizing layer with
  | zero => simp [layerAfter]
  | succ n ih =>
    simp only [layerAfter, ih, mem_nextLayer, Moves.succ_iff]
    constructor
    · rintro ⟨b, ⟨c, hc, hcb⟩, hbd⟩
      exact ⟨c, hc, b, hcb, hbd⟩
    · rintro ⟨c, hc, b, hcb, hbd⟩
      exact ⟨b, ⟨c, hc, hcb⟩, hbd⟩

/-- Behind an empty layer there are only empty ones. -/
theorem layerAfter_nil (m : Machine k) (n : Nat) : m.layerAfter n [] = [] := by
  rw [List.eq_nil_iff_forall_not_mem]
  intro d hd
  obtain ⟨c, hc, -⟩ := mem_layerAfter.1 hd
  simp at hc

/-- The listed layers are the layers behind the first one, as far as they are not empty. -/
theorem getD_layersFrom (m : Machine k) {n count : Nat} (h : n < count)
    (layer : List Configuration) :
    (m.layersFrom count layer).getD n [] = m.layerAfter n layer := by
  induction count generalizing n layer with
  | zero => omega
  | succ count ih =>
    unfold layersFrom
    split
    · next hempty =>
      -- Nothing is listed from an empty layer on, and the layers behind it are empty.
      rw [List.isEmpty_iff.1 hempty, layerAfter_nil]
      simp
    · cases n with
      | zero => simp [layerAfter]
      | succ n => simpa [layerAfter] using ih (by omega) (m.nextLayer layer)

/-- What holds of the first layer and is kept from each layer to the next one holds of every
layer. -/
theorem forall_mem_layers {m : Machine k} {P : List Configuration → Prop} {inputs : List Word}
    {count : Nat} {layers : List (List Configuration)} (h : m.layers inputs count = .ok layers)
    (hfirst : ∀ c, m.initialConfiguration inputs = .ok c → P [c])
    (hnext : ∀ layer, P layer → P (m.nextLayer layer)) : ∀ layer ∈ layers, P layer := by
  -- By induction on the layers, from any first one.
  have hfrom : ∀ (count : Nat) (first : List Configuration), P first →
      ∀ layer ∈ m.layersFrom count first, P layer := by
    intro count
    induction count with
    | zero => exact fun _ _ _ hmem => absurd hmem List.not_mem_nil
    | succ count ih =>
      intro first hP layer hmem
      unfold layersFrom at hmem
      split at hmem
      · exact absurd hmem List.not_mem_nil
      · rcases List.mem_cons.1 hmem with rfl | hmem
        · exact hP
        · exact ih _ (hnext first hP) layer hmem
  unfold Machine.layers at h
  cases hstart : m.initialConfiguration inputs with
  | error e =>
    rw [hstart] at h
    cases h
  | ok c =>
    rw [hstart] at h
    cases h
    exact hfrom count [c] (hfirst c hstart)

/-! ## Open moves are enough -/

/-- An accepting configuration that is reached at all is preceded by one that open moves reach. -/
theorem exists_open_moves {m : Machine k} {n : Nat} {c d : Configuration}
    (h : Moves m.Move n c d) (hd : d.accepted = true) :
    ∃ i ≤ n, ∃ e, Moves m.OpenMove i c e ∧ e.accepted = true := by
  -- A path accepts where it begins, or its first move is open.
  induction h with
  | refl c => exact ⟨0, Nat.le_refl _, c, .refl c, hd⟩
  | @step n c b d hcb _ ih =>
    cases hc : c.accepted with
    | true => exact ⟨0, Nat.zero_le _, c, .refl c, hc⟩
    | false =>
      obtain ⟨i, hi, e, hbe, he⟩ := ih hd
      exact ⟨i + 1, by omega, e, .step ⟨hc, hcb⟩ hbe, he⟩

/-- Acceptance within a limit is found by open moves. -/
theorem acceptsWithin_iff_open {m : Machine k} {limit : Nat} {c : Configuration} :
    m.AcceptsWithin limit c ↔
      ∃ n < limit, ∃ d, Moves m.OpenMove n c d ∧ d.accepted = true := by
  constructor
  · rintro ⟨n, hn, d, hcd, hd⟩
    obtain ⟨i, hi, e, hce, he⟩ := exists_open_moves hcd hd
    exact ⟨i, by omega, e, hce, he⟩
  · rintro ⟨n, hn, d, hcd, hd⟩
    exact ⟨n, hn, d, hcd.mono fun a b h => h.2, hd⟩

/-- As long as nothing is accepted, all moves are open, so the layers miss nothing by going on only
from what does not accept. -/
theorem open_moves_of_not_acceptsWithin {m : Machine k} {n : Nat} {c d : Configuration}
    (h : Moves m.Move n c d) (hno : ¬ m.AcceptsWithin n c) : Moves m.OpenMove n c d := by
  induction h with
  | refl c => exact .refl c
  | @step n c b d hcb _ ih =>
    have hc : c.accepted = false := by
      rw [← Bool.not_eq_true]
      exact fun hc => hno ⟨0, by omega, c, .refl c, hc⟩
    refine .step ⟨hc, hcb⟩ (ih ?_)
    rintro ⟨i, hi, e, hbe, he⟩
    exact hno ⟨i + 1, by omega, e, .step hcb hbe, he⟩

/-! ## The verdict -/

/-- One of the first `limit` layers from a given one on holds an accepting configuration. -/
def SomeLayerAccepts (m : Machine k) (limit : Nat) (layer : List Configuration) : Prop :=
  ∃ n < limit, ∃ d ∈ m.layerAfter n layer, d.accepted = true

/-- The first layer accepts, or one of those behind it. So acceptance by layers can be proved layer
by layer. -/
theorem someLayerAccepts_succ {m : Machine k} {limit : Nat} {layer : List Configuration} :
    m.SomeLayerAccepts (limit + 1) layer ↔
      layer.any Configuration.accepted = true ∨ m.SomeLayerAccepts limit (m.nextLayer layer) := by
  rw [List.any_eq_true]
  constructor
  · rintro ⟨n, hn, d, hd, hacc⟩
    cases n with
    | zero => exact .inl ⟨d, hd, hacc⟩
    | succ n => exact .inr ⟨n, by omega, d, hd, hacc⟩
  · rintro (⟨d, hd, hacc⟩ | ⟨n, hn, d, hd, hacc⟩)
    · exact ⟨0, by omega, d, hd, hacc⟩
    · exact ⟨n + 1, by omega, d, hd, hacc⟩

/-- No layer behind an empty one accepts. -/
theorem not_someLayerAccepts_nil {m : Machine k} {limit : Nat} :
    ¬ m.SomeLayerAccepts limit [] := by
  rintro ⟨n, -, d, hd, -⟩
  rw [layerAfter_nil] at hd
  simp at hd

/-- A computation without configurations has died out. -/
theorem verdictFrom_nil (m : Machine k) (limit : Nat) : m.verdictFrom limit [] = some false := by
  unfold verdictFrom
  rfl

/-- At the limit a computation that has not died out is undecided. -/
theorem verdictFrom_zero {m : Machine k} {layer : List Configuration} (h : layer ≠ []) :
    m.verdictFrom 0 layer = none := by
  unfold verdictFrom
  rw [if_neg (by simpa using h)]

/-- Before the limit a computation that has not died out accepts or goes to its next layer. -/
theorem verdictFrom_succ {m : Machine k} {layer : List Configuration} (h : layer ≠ [])
    (limit : Nat) : m.verdictFrom (limit + 1) layer =
      if layer.any Configuration.accepted then some true
      else m.verdictFrom limit (m.nextLayer layer) := by
  rw [verdictFrom, if_neg (by simpa using h)]

/-- The verdict is positive if and only if one of the first layers accepts. The limit says how many
of them are looked at. -/
theorem verdictFrom_eq_true_iff {m : Machine k} {limit : Nat} {layer : List Configuration} :
    m.verdictFrom limit layer = some true ↔ m.SomeLayerAccepts limit layer := by
  induction limit generalizing layer with
  | zero =>
    -- No layer is looked at.
    have hno : ¬ m.SomeLayerAccepts 0 layer := fun ⟨n, hn, _⟩ => by omega
    by_cases h : layer = []
    · simp [h, verdictFrom_nil, not_someLayerAccepts_nil]
    · simp [verdictFrom_zero h, hno]
  | succ limit ih =>
    by_cases h : layer = []
    · simp [h, verdictFrom_nil, not_someLayerAccepts_nil]
    · rw [verdictFrom_succ h, someLayerAccepts_succ]
      split
      · next hany => simp [hany]
      · next hany => simp [hany, ih]

/-- The verdict is missing if none of the first layers accepts and the layer at the limit is not
empty. -/
theorem verdictFrom_eq_none_iff {m : Machine k} {limit : Nat} {layer : List Configuration} :
    m.verdictFrom limit layer = none ↔
      ¬ m.SomeLayerAccepts limit layer ∧ m.layerAfter limit layer ≠ [] := by
  -- By the layers that are left; an empty layer decides at once, whatever the limit.
  induction limit generalizing layer with
  | zero =>
    have hno : ¬ m.SomeLayerAccepts 0 layer := fun ⟨n, hn, _⟩ => by omega
    by_cases h : layer = []
    · simp [h, verdictFrom_nil, layerAfter_nil]
    · simp [verdictFrom_zero h, hno, layerAfter, h]
  | succ limit ih =>
    by_cases h : layer = []
    · simp [h, verdictFrom_nil, layerAfter_nil]
    · rw [verdictFrom_succ h, someLayerAccepts_succ]
      split
      · next hany => simp [hany]
      · next hany => simp [hany, ih, layerAfter]

/-- With at most one input per tape a computation begins in the start configuration. -/
theorem initialConfiguration_eq {m : Machine k} {inputs : List Word}
    (h : inputs.length ≤ m.tapeCount) : m.initialConfiguration inputs = .ok (m.start inputs) := by
  unfold initialConfiguration start
  rw [if_neg (by omega)]

/-- With at most one input per tape a test gives the verdict on the start configuration. -/
theorem testWithin_eq {m : Machine k} {inputs : List Word} (h : inputs.length ≤ m.tapeCount)
    (limit : Nat) :
    m.testWithin inputs limit = .ok (m.verdictFrom limit [m.start inputs]) := by
  unfold testWithin
  rw [initialConfiguration_eq h]
  rfl

/-- More inputs than tapes are refused, and the refusal only counts them. -/
theorem testWithin_of_lt {m : Machine k} {inputs : List Word} (h : m.tapeCount < inputs.length)
    (limit : Nat) :
    m.testWithin inputs limit = .error (.tapeIndex (inputs.length - 1) m.tapeCount) := by
  unfold testWithin initialConfiguration
  rw [if_pos h]
  rfl

/-- The verdict on a configuration is positive if it accepts within the limit. -/
theorem verdict_eq_true_iff {m : Machine k} {limit : Nat} {c : Configuration} :
    m.verdictFrom limit [c] = some true ↔ m.AcceptsWithin limit c := by
  rw [verdictFrom_eq_true_iff, acceptsWithin_iff_open]
  simp only [SomeLayerAccepts, mem_layerAfter, List.mem_singleton, exists_eq_left]

/-- The verdict on a configuration is missing if it does not accept within the limit but goes on. -/
theorem verdict_eq_none_iff {m : Machine k} {limit : Nat} {c : Configuration} :
    m.verdictFrom limit [c] = none ↔ ¬ m.AcceptsWithin limit c ∧ m.GoesOn limit c := by
  have haccept : m.SomeLayerAccepts limit [c] ↔ m.AcceptsWithin limit c := by
    rw [← verdictFrom_eq_true_iff, verdict_eq_true_iff]
  rw [verdictFrom_eq_none_iff, haccept]
  refine and_congr_right fun hno => ?_
  constructor
  · intro hne
    obtain ⟨d, hd⟩ := List.exists_mem_of_ne_nil _ hne
    obtain ⟨b, hb, hbd⟩ := mem_layerAfter.1 hd
    rw [List.mem_singleton] at hb
    subst hb
    exact ⟨d, hbd.mono fun a b h => h.2⟩
  · rintro ⟨d, hd⟩
    -- Nothing on the path accepts, so the layer at the limit has its end.
    have hopen := open_moves_of_not_acceptsWithin hd hno
    exact List.ne_nil_of_mem (mem_layerAfter.2 ⟨c, List.mem_singleton_self c, hopen⟩)

/-- The verdict on a configuration is negative if it neither accepts within the limit nor goes
on. -/
theorem verdict_eq_false_iff {m : Machine k} {limit : Nat} {c : Configuration} :
    m.verdictFrom limit [c] = some false ↔ ¬ m.AcceptsWithin limit c ∧ ¬ m.GoesOn limit c := by
  -- What is left once the other two verdicts are known.
  have htrue : m.verdictFrom limit [c] = some true ↔ m.AcceptsWithin limit c :=
    verdict_eq_true_iff
  have hnone : m.verdictFrom limit [c] = none ↔ ¬ m.AcceptsWithin limit c ∧ m.GoesOn limit c :=
    verdict_eq_none_iff
  cases hv : m.verdictFrom limit [c] with
  | none => simp [hnone.1 hv]
  | some verdict =>
    have hgoes : ¬ (¬ m.AcceptsWithin limit c ∧ m.GoesOn limit c) := by simp [← hnone, hv]
    cases verdict with
    | true => simp [htrue.1 hv]
    | false =>
      have hno : ¬ m.AcceptsWithin limit c := by simp [← htrue, hv]
      exact iff_of_true rfl ⟨hno, fun h => hgoes ⟨hno, h⟩⟩

/-- Computations that accept and go on alike have the same verdict at a limit, even if they belong
to different machines. -/
theorem verdict_congr {m m' : Machine k} {limit : Nat} {c c' : Configuration}
    (haccept : m.AcceptsWithin limit c ↔ m'.AcceptsWithin limit c')
    (hgoes : m.GoesOn limit c ↔ m'.GoesOn limit c') :
    m.verdictFrom limit [c] = m'.verdictFrom limit [c'] := by
  -- Each verdict is told by acceptance and by going on.
  cases hverdict : m'.verdictFrom limit [c'] with
  | none =>
    rw [verdict_eq_none_iff] at hverdict ⊢
    rwa [haccept, hgoes]
  | some verdict =>
    cases verdict with
    | true =>
      rw [verdict_eq_true_iff] at hverdict ⊢
      rwa [haccept]
    | false =>
      rw [verdict_eq_false_iff] at hverdict ⊢
      rwa [haccept, hgoes]

/-- Acceptance within a limit is acceptance within every larger one. -/
theorem AcceptsWithin.mono {m : Machine k} {limit limit' : Nat} {c : Configuration}
    (h : m.AcceptsWithin limit c) (hle : limit ≤ limit') : m.AcceptsWithin limit' c := by
  obtain ⟨n, hn, d, hcd, hd⟩ := h
  exact ⟨n, by omega, d, hcd, hd⟩

/-- A computation that goes on for some moves goes on for fewer. -/
theorem GoesOn.anti {m : Machine k} {n n' : Nat} {c : Configuration} (h : m.GoesOn n' c)
    (hle : n ≤ n') : m.GoesOn n c := by
  obtain ⟨d, hd⟩ := h
  exact hd.prefix_of_le hle

/-- A verdict that was reached stays at every larger limit. So limits only decide whether there is a
verdict, and not which one. -/
theorem verdict_mono {m : Machine k} {limit limit' : Nat} {c : Configuration} {verdict : Bool}
    (h : m.verdictFrom limit [c] = some verdict) (hle : limit ≤ limit') :
    m.verdictFrom limit' [c] = some verdict := by
  cases verdict with
  | true =>
    rw [verdict_eq_true_iff] at h ⊢
    exact h.mono hle
  | false =>
    rw [verdict_eq_false_iff] at h ⊢
    obtain ⟨hno, hdies⟩ := h
    refine ⟨?_, fun hgoes => hdies (hgoes.anti hle)⟩
    rintro ⟨n, -, d, hcd, hd⟩
    -- A path to `d` that is not shorter than `limit` would make the computation go on.
    by_cases hn : n < limit
    · exact hno ⟨n, hn, d, hcd, hd⟩
    · exact hdies (hcd.prefix_of_le (by omega))

/-! ## Machines with fewer moves -/

section

variable {m m' : Machine k} {limit : Nat} {c : Configuration}

/-- A machine accepts what a machine accepts that has no other moves. -/
theorem AcceptsWithin.of_moves (h : m'.AcceptsWithin limit c)
    (hmoves : ∀ a b, m'.Move a b → m.Move a b) : m.AcceptsWithin limit c := by
  obtain ⟨n, hn, d, hcd, hd⟩ := h
  exact ⟨n, hn, d, hcd.mono hmoves, hd⟩

/-- A computation that dies out without accepting does so if there are fewer moves. -/
theorem verdict_eq_false_of_moves (hmoves : ∀ a b, m'.Move a b → m.Move a b)
    (h : m.verdictFrom limit [c] = some false) : m'.verdictFrom limit [c] = some false := by
  rw [verdict_eq_false_iff] at h ⊢
  obtain ⟨hno, hdies⟩ := h
  refine ⟨fun haccept => hno (haccept.of_moves hmoves), ?_⟩
  rintro ⟨d, hd⟩
  exact hdies ⟨d, hd.mono hmoves⟩

/-- A computation has the same verdict if there are fewer moves, but none of those that the search
makes is missing. -/
theorem verdict_eq_of_open_moves (hmoves : ∀ a b, m'.Move a b → m.Move a b)
    (hopen : ∀ n ≤ limit, ∀ d, Moves m.OpenMove n c d → Moves m'.OpenMove n c d) :
    m'.verdictFrom limit [c] = m.verdictFrom limit [c] := by
  cases hverdict : m.verdictFrom limit [c] with
  | none =>
    rw [verdict_eq_none_iff] at hverdict ⊢
    -- Without acceptance all moves are open, and those are there on the other side.
    obtain ⟨hno, d, hd⟩ := hverdict
    have hfound := hopen limit (Nat.le_refl limit) d (open_moves_of_not_acceptsWithin hd hno)
    exact ⟨fun haccept => hno (haccept.of_moves hmoves), d, hfound.mono fun a b h => h.2⟩
  | some verdict =>
    cases verdict with
    | true =>
      rw [verdict_eq_true_iff, acceptsWithin_iff_open] at hverdict ⊢
      obtain ⟨n, hn, d, hd, haccepted⟩ := hverdict
      exact ⟨n, hn, d, hopen n (Nat.le_of_lt hn) d hd, haccepted⟩
    | false => exact verdict_eq_false_of_moves hmoves hverdict

end

/-! ## Tests -/

/-- The verdict of a test is a statement about paths: within a limit it is positive if fewer moves
reach an accepting configuration, negative if they do not and no path has as many moves as the
limit, and missing otherwise. A verdict stays at every larger limit. The layer with number `n`
holds, once each, the configurations that `n` moves reach that leave no accepting configuration. -/
theorem testWithin_and_layers_of_reachability (m : Machine k) (inputs : List Word)
    (h : inputs.length ≤ m.tapeCount) :
    ∃ c, m.initialConfiguration inputs = .ok c ∧
      (∀ limit, ∃ verdict, m.testWithin inputs limit = .ok verdict ∧
        (verdict = some true ↔
          ∃ n < limit, ∃ d, Moves m.Move n c d ∧ d.accepted = true) ∧
        (verdict = some false ↔
          (¬ ∃ n < limit, ∃ d, Moves m.Move n c d ∧ d.accepted = true) ∧
            ¬ ∃ d, Moves m.Move limit c d) ∧
        (verdict = none ↔
          (¬ ∃ n < limit, ∃ d, Moves m.Move n c d ∧ d.accepted = true) ∧
            ∃ d, Moves m.Move limit c d)) ∧
      (∀ limit limit' verdict, limit ≤ limit' →
        m.testWithin inputs limit = .ok (some verdict) →
        m.testWithin inputs limit' = .ok (some verdict)) ∧
      (∀ n count, n < count → ∃ layers, m.layers inputs count = .ok layers ∧
        (layers.getD n []).Nodup ∧
        ∀ d, d ∈ layers.getD n [] ↔ Moves m.OpenMove n c d) := by
  refine ⟨m.start inputs, initialConfiguration_eq h, fun limit => ?_, ?_, ?_⟩
  · exact ⟨_, testWithin_eq h limit, verdict_eq_true_iff, verdict_eq_false_iff,
      verdict_eq_none_iff⟩
  · intro limit limit' verdict hle hverdict
    rw [testWithin_eq h] at hverdict ⊢
    have hv : m.verdictFrom limit [m.start inputs] = some verdict := by
      injection hverdict
    rw [verdict_mono hv hle]
  · intro n count hn
    -- A layer does not depend on how many are asked for.
    refine ⟨m.layersFrom count [m.start inputs], ?_, ?_, fun d => ?_⟩
    · unfold layers
      rw [initialConfiguration_eq h]
      rfl
    · rw [getD_layersFrom m hn]
      exact m.nodup_layerAfter n (List.nodup_cons.2 ⟨List.not_mem_nil, List.nodup_nil⟩)
    · rw [getD_layersFrom m hn, mem_layerAfter]
      simp only [List.mem_singleton, exists_eq_left]

/-- An automaton for the word "a" that may wait without reading. -/
def waiting : Machine .finite :=
  build {
    transitions := [⟨"wait", [epsilon], "wait", ()⟩, ⟨"wait", [['a']], "done", ()⟩]
    initial := "wait"
    finals := .single "done"
    bounded := true }

/-- On another word than "a" the automaton is undecided within three layers: fewer than three moves
lead to no accepting configuration, and three moves can be made. -/
theorem undecided_waiting :
    [['b']].length ≤ waiting.tapeCount ∧ ∃ c, waiting.initialConfiguration [['b']] = .ok c ∧
      (¬ ∃ n < 3, ∃ d, Moves waiting.Move n c d ∧ d.accepted = true) ∧
      ∃ d, Moves waiting.Move 3 c d := by
  have hinputs : [['b']].length ≤ waiting.tapeCount := by decide
  have htest : waiting.testWithin [['b']] 3 = .ok none := by rfl
  obtain ⟨c, hc, hlimits, -, -⟩ := testWithin_and_layers_of_reachability waiting [['b']] hinputs
  obtain ⟨verdict, hverdict, -, -, hnone⟩ := hlimits 3
  rw [htest] at hverdict
  have hmissing : verdict = none := by injection hverdict with h; exact h.symm
  obtain ⟨hno, hgoes⟩ := hnone.1 hmissing
  exact ⟨hinputs, c, hc, hno, hgoes⟩

end MachineLang.Machine
