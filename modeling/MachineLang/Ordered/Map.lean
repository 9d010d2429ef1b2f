/-!
# Sorted maps

A finite map kept as the list of its entries in increasing order of their keys. Every key has one
entry, and every traversal meets the keys in increasing order.
-/

namespace MachineLang

/-- A finite map with its keys in increasing order. -/
structure SortedMap (α β : Type) [Ord α] where
  /-- The keys and their values. -/
  entries : List (α × β)
  /-- Each key is smaller than those behind it. -/
  sorted : entries.Pairwise fun a b => compare a.1 b.1 = .lt

namespace SortedMap

variable {α β : Type} [Ord α]

instance [DecidableEq α] [DecidableEq β] : DecidableEq (SortedMap α β) := fun s t =>
  if h : s.entries = t.entries then isTrue (by cases s; cases t; cases h; rfl)
  else isFalse fun e => h (congrArg entries e)

instance [Repr α] [Repr β] : Repr (SortedMap α β) := ⟨fun s _ => repr s.entries⟩

/-- The map without entries, which is in order trivially. -/
def empty : SortedMap α β := ⟨[], .nil⟩

instance : Inhabited (SortedMap α β) := ⟨empty⟩

/-- The keys, in increasing order. -/
def keys (m : SortedMap α β) : List α := m.entries.map Prod.fst

/-- The value of a key, if the key has an entry. -/
def find? [DecidableEq α] (m : SortedMap α β) (k : α) : Option β :=
  (m.entries.find? fun e => e.1 = k).map Prod.snd

/-- Whether a key has a value. -/
def contains [DecidableEq α] (m : SortedMap α β) (k : α) : Bool := (m.find? k).isSome

/-- Gives a key the value that `f` makes of its old one. -/
def updateIn (k : α) (f : Option β → β) : List (α × β) → List (α × β)
  | [] => [(k, f none)]
  | (l, v) :: rest =>
    match compare k l with
    | .lt => (k, f none) :: (l, v) :: rest
    | .eq => (l, f (some v)) :: rest
    | .gt => (l, v) :: updateIn k f rest

/-- The keys after an update are the old ones and the one that was updated. -/
theorem key_mem_updateIn [Std.LawfulEqOrd α] {k : α} {f : Option β → β} {l : List (α × β)} {c : α} :
    c ∈ (updateIn k f l).map Prod.fst ↔ c = k ∨ c ∈ l.map Prod.fst := by
  induction l with
  | nil => simp [updateIn]
  | cons e rest ih =>
    obtain ⟨l, v⟩ := e
    simp only [updateIn]
    split
    · simp
    · next h =>
      have : k = l := Std.LawfulEqOrd.eq_of_compare h
      subst this
      simp
    · simp only [List.map_cons, List.mem_cons, ih]
      grind

/-- An update keeps the order: the new entry is put in front of the first greater key. -/
theorem sorted_updateIn [Std.TransOrd α] [Std.LawfulEqOrd α] {k : α} {f : Option β → β}
    {l : List (α × β)} (h : l.Pairwise fun a b => compare a.1 b.1 = .lt) :
    (updateIn k f l).Pairwise fun a b => compare a.1 b.1 = .lt := by
  induction l with
  | nil => simp [updateIn]
  | cons e rest ih =>
    obtain ⟨l, v⟩ := e
    obtain ⟨hl, hrest⟩ := List.pairwise_cons.1 h
    simp only [updateIn]
    split
    · next hkl =>
      refine List.pairwise_cons.2 ⟨fun c hc => ?_, h⟩
      rcases List.mem_cons.1 hc with rfl | hc
      · exact hkl
      · exact Std.TransCmp.lt_trans hkl (hl c hc)
    · exact List.pairwise_cons.2 ⟨hl, hrest⟩
    · next hkl =>
      refine List.pairwise_cons.2 ⟨fun c hc => ?_, ih hrest⟩
      rcases key_mem_updateIn.1 (List.mem_map_of_mem hc) with hc | hc
      · -- The key that was put in is behind the first one, as the others are.
        have : compare l k = .lt := Std.OrientedCmp.lt_of_gt hkl
        simpa [hc] using this
      · obtain ⟨d, hd, hdc⟩ := List.mem_map.1 hc
        simpa [hdc] using hl d hd

variable [Std.TransOrd α] [Std.LawfulEqOrd α]

/-- Gives a key the value that `f` makes of its old one, if it has one. -/
def update (m : SortedMap α β) (k : α) (f : Option β → β) : SortedMap α β :=
  ⟨updateIn k f m.entries, sorted_updateIn m.sorted⟩

/-- Gives a key a value, whether it had one before or not. -/
def insert (m : SortedMap α β) (k : α) (v : β) : SortedMap α β := m.update k fun _ => v

/-- The map of a list of entries; a later one replaces an earlier one of its key. -/
def ofList (l : List (α × β)) : SortedMap α β := l.foldl (fun m e => m.insert e.1 e.2) empty

omit [Std.TransOrd α] in
/-- A key that is smaller than those of all entries is not found among them. -/
theorem find?_eq_none_of_lt [DecidableEq α] {l : List (α × β)} {k : α}
    (h : ∀ e ∈ l, compare k e.1 = .lt) : l.find? (fun e => e.1 = k) = none := by
  rw [List.find?_eq_none]
  intro e he heq
  have hlt := h e he
  have hek : e.1 = k := by simpa using heq
  simp [hek] at hlt

/-- The value of a key among updated entries. -/
theorem find?_updateIn [DecidableEq α] {k c : α} {f : Option β → β} {l : List (α × β)}
    (h : l.Pairwise fun a b => compare a.1 b.1 = .lt) :
    ((updateIn k f l).find? fun e => e.1 = c).map Prod.snd =
      if c = k then some (f ((l.find? fun e => e.1 = k).map Prod.snd))
      else (l.find? fun e => e.1 = c).map Prod.snd := by
  induction l with
  | nil => by_cases hc : c = k <;> simp [updateIn, hc, eq_comm]
  | cons e rest ih =>
    obtain ⟨l, v⟩ := e
    obtain ⟨hl, hrest⟩ := List.pairwise_cons.1 h
    simp only [updateIn]
    -- The key stands in front of all entries, is the first one, or comes behind it.
    split
    · next hkl =>
      have hnone : ((l, v) :: rest).find? (fun e => e.1 = k) = none := by
        refine find?_eq_none_of_lt fun e he => ?_
        rcases List.mem_cons.1 he with rfl | he
        · exact hkl
        · exact Std.TransCmp.lt_trans hkl (hl e he)
      rw [hnone]
      by_cases hc : c = k
      · simp [hc]
      · have hkc : ¬ k = c := fun h => hc h.symm
        simp [List.find?_cons, hc, hkc]
    · next hkl =>
      have : k = l := Std.LawfulEqOrd.eq_of_compare hkl
      subst this
      by_cases hc : c = k
      · simp [hc]
      · have hkc : ¬ k = c := fun h => hc h.symm
        simp [hc, hkc]
    · next hkl =>
      have hne : ¬ l = k := by
        rintro rfl
        simp at hkl
      rw [List.find?_cons, List.find?_cons, List.find?_cons]
      by_cases hlc : l = c
      · subst hlc
        simp [hne]
      · simpa [hlc, hne] using ih hrest

/-- The value of a key after an update. -/
@[simp] theorem find?_update [DecidableEq α] (m : SortedMap α β) (k c : α) (f : Option β → β) :
    (m.update k f).find? c = if c = k then some (f (m.find? k)) else m.find? c :=
  find?_updateIn m.sorted

/-- What holds of all values still does after an update, if it holds of the new value. -/
theorem of_find?_update [DecidableEq α] {m : SortedMap α β} {P : β → Prop} {k c : α} {v : β}
    {f : Option β → β} (h : ∀ c v, m.find? c = some v → P v) (hnew : P (f (m.find? k)))
    (hv : (m.update k f).find? c = some v) : P v := by
  rw [find?_update] at hv
  split at hv
  · injection hv with hv
    exact hv ▸ hnew
  · exact h c v hv

/-- The value of a key after an insertion. -/
@[simp] theorem find?_insert [DecidableEq α] (m : SortedMap α β) (k c : α) (v : β) :
    (m.insert k v).find? c = if c = k then some v else m.find? c := by
  simp [insert]

omit [Std.LawfulEqOrd α] in
/-- The entries are the keys with their values. -/
theorem mem_entries_iff [DecidableEq α] {m : SortedMap α β} {k : α} {v : β} :
    (k, v) ∈ m.entries ↔ m.find? k = some v := by
  obtain ⟨l, hl⟩ := m
  simp only [find?]
  induction l with
  | nil => simp
  | cons e rest ih =>
    obtain ⟨c, u⟩ := e
    obtain ⟨hc, hrest⟩ := List.pairwise_cons.1 hl
    by_cases hck : c = k
    · subst hck
      have hnot : (c, v) ∉ rest := fun hm => by
        have := hc _ hm
        simp at this
      simp [hnot, eq_comm]
    · have hkc : ¬ k = c := fun h => hck h.symm
      simpa [List.find?_cons, hck, hkc] using ih hrest

omit [Std.TransOrd α] [Std.LawfulEqOrd α] in
/-- Nothing is found in the empty map. -/
@[simp] theorem find?_empty [DecidableEq α] (k : α) : (empty : SortedMap α β).find? k = none := rfl

/-- A key that no entry of a list has is as good as not inserted. -/
theorem find?_foldl_insert_of_notMem [DecidableEq α] {l : List (α × β)} {m : SortedMap α β} {k : α}
    (h : k ∉ l.map Prod.fst) :
    (l.foldl (fun m e => m.insert e.1 e.2) m).find? k = m.find? k := by
  induction l generalizing m with
  | nil => rfl
  | cons e rest ih =>
    simp only [List.map_cons, List.mem_cons, not_or] at h
    rw [List.foldl_cons, ih h.2, find?_insert, if_neg h.1]

/-- The map of a list that gives each key once has the values of the list. -/
theorem find?_ofList [DecidableEq α] {l : List (α × β)} (h : (l.map Prod.fst).Nodup) {k : α}
    {v : β} (hkv : (k, v) ∈ l) : (ofList l).find? k = some v := by
  unfold ofList
  generalize (empty : SortedMap α β) = m
  induction l generalizing m with
  | nil => simp at hkv
  | cons e rest ih =>
    obtain ⟨hnot, hrest⟩ := List.nodup_cons.1 h
    rw [List.foldl_cons]
    rcases List.mem_cons.1 hkv with rfl | hkv
    · rw [find?_foldl_insert_of_notMem hnot, find?_insert, if_pos rfl]
    · exact ih hrest hkv _

omit [Std.TransOrd α] [Std.LawfulEqOrd α] in
/-- A map is given by the list of its entries. -/
theorem eq_of_entries {m n : SortedMap α β} (h : m.entries = n.entries) : m = n := by
  cases m
  cases n
  cases h
  rfl

end SortedMap

end MachineLang
