/-!
# Sorted sets

A finite set kept as the list of its elements in increasing order. Since the list has no other order
and no repetition, two sets with the same elements are equal (`SortedSet.ext`), and every traversal
meets the elements in increasing order.
-/

namespace MachineLang

/-- A finite set with its elements in increasing order. -/
structure SortedSet (α : Type) [Ord α] where
  /-- The elements. -/
  toList : List α
  /-- Each element is smaller than those behind it. -/
  sorted : toList.Pairwise fun a b => compare a b = .lt

namespace SortedSet

variable {α : Type} [Ord α]

instance [DecidableEq α] : DecidableEq (SortedSet α) := fun s t =>
  if h : s.toList = t.toList then isTrue (by cases s; cases t; cases h; rfl)
  else isFalse fun e => h (congrArg toList e)

instance [Repr α] : Repr (SortedSet α) := ⟨fun s _ => repr s.toList⟩

/-- The set without elements, which is in order trivially. -/
def empty : SortedSet α := ⟨[], .nil⟩

instance : Inhabited (SortedSet α) := ⟨empty⟩

instance : Membership α (SortedSet α) := ⟨fun s a => a ∈ s.toList⟩

/-- Whether a set has no element. -/
def isEmpty (s : SortedSet α) : Bool := s.toList.isEmpty

/-- Whether an element is in a set. -/
def contains [DecidableEq α] (s : SortedSet α) (a : α) : Bool := decide (a ∈ s.toList)

/-- Puts an element in its place among increasing ones. -/
def insertInto (a : α) : List α → List α
  | [] => [a]
  | b :: bs =>
    match compare a b with
    | .lt => a :: b :: bs
    | .eq => b :: bs
    | .gt => b :: insertInto a bs

/-- The elements of a list with one element put in its place. -/
theorem mem_insertInto [Std.LawfulEqOrd α] {a c : α} {l : List α} :
    c ∈ insertInto a l ↔ c = a ∨ c ∈ l := by
  induction l with
  | nil => simp [insertInto]
  | cons b bs ih =>
    simp only [insertInto]
    split
    · simp
    · next h =>
      have : a = b := Std.LawfulEqOrd.eq_of_compare h
      subst this
      simp
    · simp only [List.mem_cons, ih]
      grind

/-- Putting an element in its place keeps the order. -/
theorem sorted_insertInto [Std.TransOrd α] [Std.LawfulEqOrd α] {a : α} {l : List α}
    (h : l.Pairwise fun a b => compare a b = .lt) :
    (insertInto a l).Pairwise fun a b => compare a b = .lt := by
  induction l with
  | nil => simp [insertInto]
  | cons b bs ih =>
    obtain ⟨hb, hbs⟩ := List.pairwise_cons.1 h
    simp only [insertInto]
    split
    · next hab =>
      refine List.pairwise_cons.2 ⟨fun c hc => ?_, h⟩
      rcases List.mem_cons.1 hc with rfl | hc
      · exact hab
      · exact Std.TransCmp.lt_trans hab (hb c hc)
    · exact h
    · next hab =>
      refine List.pairwise_cons.2 ⟨fun c hc => ?_, ih hbs⟩
      rcases mem_insertInto.1 hc with rfl | hc
      · exact Std.OrientedCmp.lt_of_gt hab
      · exact hb c hc

variable [Std.TransOrd α] [Std.LawfulEqOrd α]

/-- Adds an element at its place in the order; nothing changes if it is there already. -/
def insert (a : α) (s : SortedSet α) : SortedSet α :=
  ⟨insertInto a s.toList, sorted_insertInto s.sorted⟩

/-- Adds the elements of a list. -/
def insertAll (s : SortedSet α) (l : List α) : SortedSet α := l.foldl (fun s a => s.insert a) s

/-- The set of the elements of a list. -/
def ofList (l : List α) : SortedSet α := empty.insertAll l

/-- The set with just one element, which is in order trivially. -/
def single (a : α) : SortedSet α := ⟨[a], List.pairwise_singleton _ _⟩

/-- The elements of either set, by adding those of the second to the first. -/
def union (s t : SortedSet α) : SortedSet α := s.insertAll t.toList

omit [Std.TransOrd α] [Std.LawfulEqOrd α] in
/-- A part of a sorted list is sorted. -/
theorem sorted_filter (s : SortedSet α) (p : α → Bool) :
    (s.toList.filter p).Pairwise fun a b => compare a b = .lt := s.sorted.filter p

/-- The elements that pass a test, in their order. -/
def filter (p : α → Bool) (s : SortedSet α) : SortedSet α := ⟨s.toList.filter p, s.sorted_filter p⟩

/-- The set without one element. -/
def erase [DecidableEq α] (s : SortedSet α) (a : α) : SortedSet α := s.filter (· ≠ a)

/-- The elements of the first set that are not in the second. -/
def difference [DecidableEq α] (s t : SortedSet α) : SortedSet α := s.filter fun a => !t.contains a

/-- Whether two sets have no element in common. -/
def isDisjoint [DecidableEq α] (s t : SortedSet α) : Bool := !s.toList.any fun a => t.contains a

omit [Std.TransOrd α] [Std.LawfulEqOrd α] in
/-- Membership is membership in the list. -/
theorem mem_toList {a : α} {s : SortedSet α} : a ∈ s.toList ↔ a ∈ s := Iff.rfl

omit [Std.TransOrd α] [Std.LawfulEqOrd α] in
/-- The test decides membership, so it may stand for it in a condition. -/
@[simp] theorem contains_iff [DecidableEq α] {s : SortedSet α} {a : α} :
    s.contains a = true ↔ a ∈ s := decide_eq_true_iff

/-- The elements after an insertion are the new one and the old ones. -/
@[simp] theorem mem_insert {a c : α} {s : SortedSet α} : c ∈ s.insert a ↔ c = a ∨ c ∈ s :=
  mem_insertInto

/-- The elements after several insertions are the old ones and those of the list. -/
@[simp] theorem mem_insertAll {c : α} {s : SortedSet α} {l : List α} :
    c ∈ s.insertAll l ↔ c ∈ s ∨ c ∈ l := by
  induction l generalizing s with
  | nil => simp [insertAll]
  | cons a l ih =>
    have : s.insertAll (a :: l) = (s.insert a).insertAll l := rfl
    rw [this, ih, mem_insert, List.mem_cons]
    grind

/-- The elements of the set of a list. -/
@[simp] theorem mem_ofList {c : α} {l : List α} : c ∈ (ofList l : SortedSet α) ↔ c ∈ l := by
  have : c ∉ (empty : SortedSet α) := List.not_mem_nil
  simp [ofList, this]

/-- The elements of a union are those of either set. -/
@[simp] theorem mem_union {c : α} {s t : SortedSet α} : c ∈ s.union t ↔ c ∈ s ∨ c ∈ t := by
  simp [union, mem_toList]

omit [Std.TransOrd α] [Std.LawfulEqOrd α] in
/-- The elements that pass a test. -/
@[simp] theorem mem_filter {c : α} {p : α → Bool} {s : SortedSet α} :
    c ∈ s.filter p ↔ c ∈ s ∧ p c = true := List.mem_filter

omit [Std.LawfulEqOrd α] in
/-- Two sets with the same elements are equal. -/
theorem ext {s t : SortedSet α} (h : ∀ a, a ∈ s ↔ a ∈ t) : s = t := by
  obtain ⟨l, hl⟩ := s
  obtain ⟨m, hm⟩ := t
  have hlm : ∀ a, a ∈ l ↔ a ∈ m := h
  suffices l = m by subst this; rfl
  clear h
  induction l generalizing m with
  | nil =>
    cases m with
    | nil => rfl
    | cons b bs => exact absurd ((hlm b).2 List.mem_cons_self) List.not_mem_nil
  | cons a as ih =>
    cases m with
    | nil => exact absurd ((hlm a).1 List.mem_cons_self) List.not_mem_nil
    | cons b bs =>
      obtain ⟨ha, has⟩ := List.pairwise_cons.1 hl
      obtain ⟨hb, hbs⟩ := List.pairwise_cons.1 hm
      -- The two smallest elements agree, since each is in both lists.
      have hab : a = b := by
        rcases List.mem_cons.1 ((hlm a).1 List.mem_cons_self) with h | h
        · exact h
        · rcases List.mem_cons.1 ((hlm b).2 List.mem_cons_self) with h' | h'
          · exact h'.symm
          · have hlt := Std.TransCmp.lt_trans (ha b h') (hb a h)
            simp at hlt
      subst hab
      have hne {l : List α} (hl : ∀ c ∈ l, compare a c = .lt) : a ∉ l := fun hm => by
        have := hl a hm
        simp at this
      rw [ih has bs hbs fun c => ?_]
      constructor
      · intro hc
        rcases List.mem_cons.1 ((hlm c).1 (List.mem_cons_of_mem _ hc)) with rfl | h
        · exact absurd hc (hne ha)
        · exact h
      · intro hc
        rcases List.mem_cons.1 ((hlm c).2 (List.mem_cons_of_mem _ hc)) with rfl | h
        · exact absurd hc (hne hb)
        · exact h

omit [Std.LawfulEqOrd α] in
/-- A set lists no element twice. -/
theorem nodup_toList (s : SortedSet α) : s.toList.Nodup :=
  s.sorted.imp fun {a b} hab hne => by
    subst hne
    simp at hab

omit [Std.TransOrd α] [Std.LawfulEqOrd α] in
/-- A set is empty if it has no element. -/
theorem isEmpty_iff {s : SortedSet α} : s.isEmpty = true ↔ ∀ a, a ∉ s := by
  unfold isEmpty
  rw [List.isEmpty_iff, List.eq_nil_iff_forall_not_mem]
  rfl

omit [Std.TransOrd α] [Std.LawfulEqOrd α] in
/-- Two sets are not disjoint if they have an element in common. -/
theorem isDisjoint_eq_false_iff [DecidableEq α] {s t : SortedSet α} :
    s.isDisjoint t = false ↔ ∃ a, a ∈ s ∧ a ∈ t := by
  simp [isDisjoint, mem_toList]

omit [Std.LawfulEqOrd α] in
/-- The elements of a part of a set are listed in the same order. -/
theorem toList_sublist [DecidableEq α] {s t : SortedSet α} (h : ∀ a, a ∈ s → a ∈ t) :
    s.toList.Sublist t.toList := by
  have hs : s = t.filter s.contains := by
    refine ext fun a => ?_
    rw [mem_filter, contains_iff]
    exact ⟨fun ha => ⟨h a ha, ha⟩, And.right⟩
  rw [hs]
  exact List.filter_sublist

omit [Std.TransOrd α] [Std.LawfulEqOrd α] in
/-- A set is given by the list of its elements. -/
theorem eq_of_toList {s t : SortedSet α} (h : s.toList = t.toList) : s = t := by
  cases s
  cases t
  cases h
  rfl

end SortedSet

end MachineLang
