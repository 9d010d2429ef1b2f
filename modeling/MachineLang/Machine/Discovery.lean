/-!
# Breadth-first discovery

`discover` lists what can be reached from some beginnings by a successor function, in the order of a
breadth-first search. Things count as the same if they have the same key.
-/

namespace MachineLang

/-- The things of a list whose key is new, each key once. -/
def newOnes {α κ : Type} [DecidableEq κ] (key : α → κ) : List κ → List α → List α
  | _, [] => []
  | seen, a :: rest =>
    if key a ∈ seen then newOnes key seen rest else a :: newOnes key (key a :: seen) rest

/-- Goes on with a search. The things in `queue` were found and still have to be expanded, and
`seen` holds the keys of everything found. No more than `steps` things are expanded. -/
def discoverFrom {α κ : Type} [DecidableEq κ] (key : α → κ) (next : α → List α) :
    Nat → List α → List κ → List α
  | _, [], _ => []
  | 0, queue, _ => queue
  | steps + 1, a :: queue, seen =>
    let more := newOnes key seen (next a)
    a :: discoverFrom key next steps (queue ++ more) (more.map key ++ seen)

/-- Everything that can be reached from some beginnings, in the order in which it is found. No more
than `steps` things are expanded. -/
def discover {α κ : Type} [DecidableEq κ] (key : α → κ) (next : α → List α) (steps : Nat)
    (start : List α) : List α :=
  let start := newOnes key [] start
  discoverFrom key next steps start (start.map key)

section

variable {α κ : Type} [DecidableEq κ] {key : α → κ} {seen : List κ} {l : List α} {a : α}

/-- The new things of a list are in the list. -/
theorem mem_of_mem_newOnes (h : a ∈ newOnes key seen l) : a ∈ l := by
  induction l generalizing seen with
  | nil => simp [newOnes] at h
  | cons b rest ih =>
    unfold newOnes at h
    split at h
    · exact List.mem_cons_of_mem _ (ih h)
    · rcases List.mem_cons.1 h with rfl | h
      · exact List.mem_cons_self
      · exact List.mem_cons_of_mem _ (ih h)

/-- There are not more new things than things. -/
theorem length_newOnes_le : (newOnes key seen l).length ≤ l.length := by
  induction l generalizing seen with
  | nil => exact Nat.le_refl _
  | cons b rest ih =>
    unfold newOnes
    split
    · exact Nat.le_succ_of_le ih
    · exact Nat.succ_le_succ ih

/-- The key of a new thing was not seen before. -/
theorem key_notMem_of_mem_newOnes (h : a ∈ newOnes key seen l) : key a ∉ seen := by
  induction l generalizing seen with
  | nil => simp [newOnes] at h
  | cons b rest ih =>
    unfold newOnes at h
    split at h
    · exact ih h
    · next hb =>
      rcases List.mem_cons.1 h with rfl | h
      · exact hb
      · exact fun ha => ih h (List.mem_cons_of_mem _ ha)

/-- No two new things have the same key. -/
theorem nodup_newOnes : ((newOnes key seen l).map key).Nodup := by
  induction l generalizing seen with
  | nil => simp [newOnes]
  | cons b rest ih =>
    unfold newOnes
    split
    · exact ih
    · rw [List.map_cons, List.nodup_cons]
      refine ⟨fun hb => ?_, ih⟩
      obtain ⟨c, hc, hcb⟩ := List.mem_map.1 hb
      exact key_notMem_of_mem_newOnes hc (hcb ▸ List.mem_cons_self)

/-- The key of every thing of a list was seen before or is that of a new one. -/
theorem exists_mem_newOnes (h : a ∈ l) :
    key a ∈ seen ∨ ∃ b ∈ newOnes key seen l, key b = key a := by
  induction l generalizing seen with
  | nil => simp at h
  | cons b rest ih =>
    unfold newOnes
    split
    · next hb =>
      rcases List.mem_cons.1 h with rfl | h
      · exact .inl hb
      · exact ih h
    · -- The first thing is new, so its key counts as seen for those behind it.
      rcases List.mem_cons.1 h with rfl | h
      · exact .inr ⟨a, List.mem_cons_self, rfl⟩
      · have hrest : key a ∈ key b :: seen ∨ ∃ c ∈ newOnes key (key b :: seen) rest,
            key c = key a :=
          ih h
        rcases hrest with ha | ⟨c, hc, hca⟩
        · rcases List.mem_cons.1 ha with ha | ha
          · exact .inr ⟨b, List.mem_cons_self, ha.symm⟩
          · exact .inl ha
        · exact .inr ⟨c, List.mem_cons_of_mem _ hc, hca⟩

/-- With itself as its key, everything in a list is found once. -/
theorem mem_newOnes_id {α : Type} [DecidableEq α] {l : List α} {a : α} :
    a ∈ newOnes id [] l ↔ a ∈ l := by
  refine ⟨mem_of_mem_newOnes, fun h => ?_⟩
  have hnew : id a ∈ [] ∨ ∃ b ∈ newOnes id [] l, id b = id a := exists_mem_newOnes h
  rcases hnew with hs | ⟨b, hb, rfl⟩
  · simp at hs
  · exact hb

end

end MachineLang
