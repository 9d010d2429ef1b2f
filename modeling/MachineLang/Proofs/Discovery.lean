import MachineLang.Machine.Discovery
import Mathlib.Data.List.Nodup
import Mathlib.Data.List.Perm.Subperm
import Mathlib.Logic.Relation

/-!
# What a breadth-first search finds

A search stops after a number of steps that is fixed beforehand. If no more keys can come up than
there are steps, nothing is missed: each beginning is found, and whatever a found thing leads to is
found as well, both up to their keys (`exists_mem_discover_of_mem_start`,
`exists_mem_discover_of_next`). No two found things have the same key (`nodup_discover`), and every
found thing was reached through found things (`discover_induction`).
-/

namespace MachineLang

variable {α κ : Type} [DecidableEq κ] {key : α → κ} {next : α → List α}

/-- What waits to be expanded is found, however many steps are left: in the end all that still waits
is given as well. -/
theorem mem_discoverFrom_of_mem_queue {steps : Nat} {queue : List α} {seen : List κ} {a : α}
    (h : a ∈ queue) : a ∈ discoverFrom key next steps queue seen := by
  -- What waits is either taken in this step or still waits after it.
  induction steps generalizing queue seen with
  | zero =>
    cases queue with
    | nil => simp at h
    | cons b queue => exact h
  | succ steps ih =>
    cases queue with
    | nil => simp at h
    | cons b queue =>
      unfold discoverFrom
      rcases List.mem_cons.1 h with rfl | h
      · exact List.mem_cons_self
      · exact List.mem_cons_of_mem _ (ih (List.mem_append_left _ h))

/-- A property of what waits is a property of everything found, if found things hand it on. -/
theorem discoverFrom_induction {P : α → Prop} {steps : Nat} {queue : List α} {seen : List κ}
    (hqueue : ∀ a ∈ queue, P a)
    (hnext : ∀ a ∈ discoverFrom key next steps queue seen, P a →
      ∀ b ∈ next a, b ∈ discoverFrom key next steps queue seen → P b) :
    ∀ a ∈ discoverFrom key next steps queue seen, P a := by
  induction steps generalizing queue seen with
  | zero =>
    cases queue with
    | nil => simp [discoverFrom]
    | cons b queue => exact hqueue
  | succ steps ih =>
    cases queue with
    | nil => simp [discoverFrom]
    | cons b queue =>
      unfold discoverFrom at hnext ⊢
      dsimp only at hnext ⊢
      have hb : P b := hqueue b List.mem_cons_self
      intro a ha
      rcases List.mem_cons.1 ha with rfl | ha
      · exact hb
      · -- What is found from here on is found from the rest of the queue with what the first one
        -- adds.
        refine ih ?_ ?_ a ha
        · intro c hc
          rcases List.mem_append.1 hc with hold | hnew
          · exact hqueue c (List.mem_cons_of_mem _ hold)
          · exact hnext b List.mem_cons_self hb c (mem_of_mem_newOnes hnew)
              (List.mem_cons_of_mem _ (mem_discoverFrom_of_mem_queue hc))
        · intro c hc hPc d hd hdfound
          exact hnext c (List.mem_cons_of_mem _ hc) hPc d hd (List.mem_cons_of_mem _ hdfound)

/-! ## What waits and what has been seen -/

/-- What waits to be expanded has been seen, and no two things that wait have the same key. -/
structure Waits (key : α → κ) (queue : List α) (seen : List κ) : Prop where
  /-- No key waits twice. -/
  nodup : (queue.map key).Nodup
  /-- Every key that waits has been seen. -/
  subset : queue.map key ⊆ seen

/-- The search may go on for as long as there are keys that have not been seen. -/
structure Affords (keys : List κ) (steps : Nat) (queue : List α) (seen : List κ) : Prop where
  /-- No key has been seen twice. -/
  nodup : seen.Nodup
  /-- Only certain keys can be seen. -/
  subset : seen ⊆ keys
  /-- Every key that has been seen waits or has taken a step. -/
  enough : keys.length + queue.length ≤ steps + seen.length

variable {a : α} {l queue : List α} {seen : List κ}

/-- Expanding the first thing that waits lets the new ones wait as well, and what waits still has
different keys that were all seen. -/
theorem Waits.expand (h : Waits key (a :: queue) seen) (l : List α) :
    Waits key (queue ++ newOnes key seen l) ((newOnes key seen l).map key ++ seen) := by
  obtain ⟨hnodup, hsubset⟩ := h
  rw [List.map_cons, List.nodup_cons] at hnodup
  rw [List.map_cons, List.cons_subset] at hsubset
  constructor
  · rw [List.map_append, List.nodup_append]
    -- The new things have keys that were not seen, and whatever waits has been seen.
    refine ⟨hnodup.2, nodup_newOnes, fun x hx y hy hxy => ?_⟩
    obtain ⟨c, hc, rfl⟩ := List.mem_map.1 hy
    exact key_notMem_of_mem_newOnes hc (hxy ▸ hsubset.2 hx)
  · rw [List.map_append]
    intro x hx
    rcases List.mem_append.1 hx with hx | hx
    · exact List.mem_append_right _ (hsubset.2 hx)
    · exact List.mem_append_left _ hx

/-- The key of the thing that is expanded does not wait any more. -/
theorem Waits.key_notMem (h : Waits key (a :: queue) seen) (l : List α) :
    key a ∉ (queue ++ newOnes key seen l).map key := by
  obtain ⟨hnodup, hsubset⟩ := h
  rw [List.map_cons, List.nodup_cons] at hnodup
  rw [List.map_cons, List.cons_subset] at hsubset
  intro hmem
  rw [List.map_append] at hmem
  rcases List.mem_append.1 hmem with hmem | hmem
  · exact hnodup.1 hmem
  · obtain ⟨c, hc, hca⟩ := List.mem_map.1 hmem
    exact key_notMem_of_mem_newOnes hc (hca ▸ hsubset.1)

/-- Expanding a thing takes a step, and every new thing adds a key to those that were seen. So the
steps that are left are enough for the keys that are left. -/
theorem Affords.expand {keys : List κ} {steps : Nat}
    (h : Affords keys (steps + 1) (a :: queue) seen) (hl : ∀ b ∈ l, key b ∈ keys) :
    Affords keys steps (queue ++ newOnes key seen l) ((newOnes key seen l).map key ++ seen) := by
  obtain ⟨hnodup, hsubset, henough⟩ := h
  refine ⟨?_, ?_, ?_⟩
  · rw [List.nodup_append]
    refine ⟨nodup_newOnes, hnodup, fun x hx y hy hxy => ?_⟩
    obtain ⟨c, hc, rfl⟩ := List.mem_map.1 hx
    exact key_notMem_of_mem_newOnes hc (hxy ▸ hy)
  · intro x hx
    rcases List.mem_append.1 hx with hx | hx
    · obtain ⟨c, hc, rfl⟩ := List.mem_map.1 hx
      exact hl c (mem_of_mem_newOnes hc)
    · exact hsubset hx
  · -- One step less is left and one thing less waits, while each new thing has used up one key.
    rw [List.length_cons] at henough
    rw [List.length_append, List.length_append, List.length_map]
    omega

/-- What is found has different keys, and each of these waited in the queue or was not seen before.
So discovery gives every thing once, in the order in which it is met. -/
theorem nodup_discoverFrom {steps : Nat} (h : Waits key queue seen) :
    ((discoverFrom key next steps queue seen).map key).Nodup ∧
      ∀ a ∈ discoverFrom key next steps queue seen, key a ∈ queue.map key ∨ key a ∉ seen := by
  induction steps generalizing queue seen with
  | zero =>
    cases queue with
    | nil => simp [discoverFrom]
    | cons b queue => exact ⟨h.nodup, fun a ha => .inl (List.mem_map_of_mem ha)⟩
  | succ steps ih =>
    cases queue with
    | nil => simp [discoverFrom]
    | cons b queue =>
      unfold discoverFrom
      dsimp only
      have hb := h.key_notMem (next b)
      have hbseen : key b ∈ seen := h.subset List.mem_cons_self
      obtain ⟨hnodup, hcases⟩ := ih (h.expand (next b))
      constructor
      · rw [List.map_cons, List.nodup_cons]
        refine ⟨fun hmem => ?_, hnodup⟩
        -- What is found later waits now or is new, and the key of `b` is neither.
        obtain ⟨c, hc, hcb⟩ := List.mem_map.1 hmem
        rcases hcases c hc with hold | hunseen
        · exact hb (hcb ▸ hold)
        · exact hunseen (List.mem_append_right _ (hcb ▸ hbseen))
      · intro a ha
        rcases List.mem_cons.1 ha with rfl | ha
        · exact .inl List.mem_cons_self
        · rcases hcases a ha with hold | hunseen
          · rw [List.map_append] at hold
            rcases List.mem_append.1 hold with hold | hold
            · exact .inl (List.mem_cons_of_mem _ hold)
            · obtain ⟨d, hd, hda⟩ := List.mem_map.1 hold
              exact .inr (hda ▸ key_notMem_of_mem_newOnes hd)
          · exact .inr fun hmem => hunseen (List.mem_append_right _ hmem)

/-- Whatever a found thing leads to is seen before or found, if the steps are enough for all
keys. -/
theorem exists_mem_discoverFrom_of_next {Good : α → Prop} {keys : List κ}
    (hnext : ∀ a, Good a → ∀ b ∈ next a, Good b) (hkey : ∀ a, Good a → key a ∈ keys)
    {steps : Nat} (hqueue : ∀ a ∈ queue, Good a) (h : Affords keys steps queue seen) :
    ∀ a ∈ discoverFrom key next steps queue seen, ∀ b ∈ next a,
      key b ∈ seen ∨ ∃ c ∈ discoverFrom key next steps queue seen, key c = key b := by
  induction steps generalizing queue seen with
  | zero =>
    cases queue with
    | nil => simp [discoverFrom]
    | cons a queue =>
      -- All keys have been seen, so nothing can wait.
      have hle := (h.nodup.subperm h.subset).length_le
      have henough := h.enough
      rw [List.length_cons] at henough
      omega
  | succ steps ih =>
    cases queue with
    | nil => simp [discoverFrom]
    | cons a queue =>
      unfold discoverFrom
      dsimp only
      set more := newOnes key seen (next a) with hmore
      have ha : Good a := hqueue a List.mem_cons_self
      have hgood : ∀ c ∈ queue ++ more, Good c := by
        intro c hc
        rcases List.mem_append.1 hc with hc | hc
        · exact hqueue c (List.mem_cons_of_mem _ hc)
        · exact hnext a ha c (mem_of_mem_newOnes hc)
      have hafford : Affords keys steps (queue ++ more) (more.map key ++ seen) :=
        h.expand fun b hb => hkey b (hnext a ha b hb)
      have hfound : ∀ c ∈ more,
          c ∈ discoverFrom key next steps (queue ++ more) (more.map key ++ seen) := fun c hc =>
        mem_discoverFrom_of_mem_queue (List.mem_append_right _ hc)
      intro c hc b hb
      rcases List.mem_cons.1 hc with rfl | hc
      · -- What the first thing leads to was seen, or it is new and waits.
        have hnew : key b ∈ seen ∨ ∃ d ∈ more, key d = key b := exists_mem_newOnes hb
        rcases hnew with hold | ⟨d, hd, hdb⟩
        · exact .inl hold
        · exact .inr ⟨d, List.mem_cons_of_mem _ (hfound d hd), hdb⟩
      · rcases ih hgood hafford c hc b hb with hold | ⟨d, hd, hdb⟩
        · rcases List.mem_append.1 hold with hold | hold
          · obtain ⟨d, hd, hdb⟩ := List.mem_map.1 hold
            exact .inr ⟨d, List.mem_cons_of_mem _ (hfound d hd), hdb⟩
          · exact .inl hold
        · exact .inr ⟨d, List.mem_cons_of_mem _ hd, hdb⟩

/-! ## The whole search -/

variable {steps : Nat} {start : List α}

/-- A property of the beginnings is a property of everything found, if found things hand it on. -/
theorem discover_induction {P : α → Prop} (hstart : ∀ a ∈ start, P a)
    (hnext : ∀ a ∈ discover key next steps start, P a →
      ∀ b ∈ next a, b ∈ discover key next steps start → P b) :
    ∀ a ∈ discover key next steps start, P a :=
  discoverFrom_induction (fun a ha => hstart a (mem_of_mem_newOnes ha)) hnext

/-- No two found things have the same key. -/
theorem nodup_discover : ((discover key next steps start).map key).Nodup :=
  (nodup_discoverFrom ⟨nodup_newOnes, fun _ hx => hx⟩).1

/-- Two found things with the same key are the same. -/
theorem eq_of_mem_discover {a b : α} (ha : a ∈ discover key next steps start)
    (hb : b ∈ discover key next steps start) (h : key a = key b) : a = b :=
  List.inj_on_of_nodup_map nodup_discover ha hb h

/-- Every beginning is found, up to its key. -/
theorem exists_mem_discover_of_mem_start {a : α} (ha : a ∈ start) :
    ∃ b ∈ discover key next steps start, key b = key a := by
  have hnew : key a ∈ [] ∨ ∃ b ∈ newOnes key [] start, key b = key a := exists_mem_newOnes ha
  rcases hnew with hseen | ⟨b, hb, hba⟩
  · simp at hseen
  · exact ⟨b, mem_discoverFrom_of_mem_queue hb, hba⟩

/-- Whatever a found thing leads to is found, up to its key, if the steps are enough for all
keys. -/
theorem exists_mem_discover_of_next (Good : α → Prop) (keys : List κ)
    (hstart : ∀ a ∈ start, Good a) (hnext : ∀ a, Good a → ∀ b ∈ next a, Good b)
    (hkey : ∀ a, Good a → key a ∈ keys) (hsteps : keys.length ≤ steps) {a b : α}
    (ha : a ∈ discover key next steps start) (hb : b ∈ next a) :
    ∃ c ∈ discover key next steps start, key c = key b := by
  have hgood : ∀ c ∈ newOnes key [] start, Good c := fun c hc => hstart c (mem_of_mem_newOnes hc)
  have hsub : (newOnes key [] start).map key ⊆ keys := by
    intro x hx
    obtain ⟨c, hc, rfl⟩ := List.mem_map.1 hx
    exact hkey c (hgood c hc)
  -- At the start every key that was seen belongs to something that waits, so the steps suffice for
  -- the keys that are left.
  have hlength : keys.length + (newOnes key [] start).length ≤
      steps + ((newOnes key [] start).map key).length := by
    rw [List.length_map]
    omega
  have hafford : Affords keys steps (newOnes key [] start) ((newOnes key [] start).map key) :=
    ⟨nodup_newOnes, hsub, hlength⟩
  rcases exists_mem_discoverFrom_of_next hnext hkey hgood hafford a ha b hb with hseen | hfound
  · obtain ⟨c, hc, hcb⟩ := List.mem_map.1 hseen
    exact ⟨c, mem_discoverFrom_of_mem_queue hc, hcb⟩
  · exact hfound

/-- With itself as its key, exactly what is reached from a beginning is found, provided that there
are enough steps for all that can be reached. -/
theorem mem_discover_id_iff {α : Type} [DecidableEq α] {next : α → List α} {steps : Nat}
    {origin : α} {keys : List α} (horigin : origin ∈ keys) (hnext : ∀ a, ∀ b ∈ next a, b ∈ keys)
    (hsteps : keys.length ≤ steps) {b : α} :
    b ∈ discover id next steps [origin] ↔
      Relation.ReflTransGen (fun a b => b ∈ next a) origin b := by
  constructor
  · intro hb
    refine discover_induction (P := Relation.ReflTransGen (fun a b => b ∈ next a) origin)
      ?_ ?_ b hb
    · intro a ha
      obtain rfl := List.mem_singleton.1 ha
      exact .refl
    · intro a _ hpath c hc _
      exact hpath.tail hc
  · -- Backwards by induction on the path: there are enough steps to take every key, so what follows
    -- something found is found.
    intro hpath
    induction hpath with
    | refl =>
      have hfound : ∃ c ∈ discover id next steps [origin], id c = id origin :=
        exists_mem_discover_of_mem_start (List.mem_singleton_self origin)
      obtain ⟨c, hc, rfl⟩ := hfound
      exact hc
    | @tail a b _ hstep ih =>
      have hfound : ∃ c ∈ discover id next steps [origin], id c = id b :=
        exists_mem_discover_of_next (· ∈ keys) keys (by simpa using horigin)
          (fun a _ b hb => hnext a b hb) (fun a ha => ha) hsteps ih hstep
      obtain ⟨c, hc, rfl⟩ := hfound
      exact hc

end MachineLang
