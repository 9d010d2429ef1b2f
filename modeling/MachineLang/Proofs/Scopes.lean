import MachineLang.Evaluation.Standard
import MachineLang.Tree.Shapes
import Mathlib

/-!
# Scopes and their names

How the operations on scopes change what a scope binds. A name that a scope declares itself is found
there (`ScopeTree.owner_of_binding?`), so a scope that declares all reserved names keeps the
statements evaluated in it from reaching the scopes around it: it `Collects` them. A scope `Extends`
an earlier state of itself if names were only added, and the names that are not reserved kept their
values.
-/

namespace MachineLang

/-- Where one operation after another succeeds, the first one does, and the other one with what it
gives. -/
theorem exists_of_bind_eq_ok {ε α β : Type} {x : Except ε α} {f : α → Except ε β} {b : β}
    (h : x >>= f = .ok b) :
    ∃ a, x = .ok a ∧ f a = .ok b := by
  cases x with
  | error e => cases h
  | ok a => exact ⟨a, rfl, h⟩

namespace Scope

variable {s : Scope} {name other : String} {value : Value} {b : Binding}

/-! ## Names and bindings -/

/-- A binding that is found has the name that it is found by. -/
theorem name_of_binding? (h : s.binding? name = some b) : b.name = name := by
  unfold binding? at h
  have hname := List.find?_some h
  exact beq_iff_eq.1 hname

/-- A name is declared if it is one of the names. -/
theorem declares_iff : s.declares name = true ↔ name ∈ s.names := by
  unfold declares binding? names
  rw [List.find?_isSome, List.mem_map]
  simp

/-- A name is declared if it has a binding. -/
theorem declares_iff_exists :
    s.declares name = true ↔ ∃ value?, s.binding? name = some ⟨name, value?⟩ := by
  unfold declares
  rw [Option.isSome_iff_exists]
  constructor
  · rintro ⟨b, hb⟩
    obtain rfl := name_of_binding? hb
    exact ⟨b.value?, hb⟩
  · rintro ⟨value?, h⟩
    exact ⟨_, h⟩

/-- A name that is not declared has no binding. -/
theorem binding?_eq_none (h : s.declares name = false) : s.binding? name = none :=
  Option.not_isSome_iff_eq_none.1 (Bool.eq_false_iff.1 h)

/-- The names after a declaration: the new one is the last. -/
@[simp] theorem names_declare : (s.declare name).names = s.names ++ [name] := List.map_append

/-- A declaration gives no result to the scope in which it stands. -/
@[simp] theorem result?_declare : (s.declare name).result? = s.result? := rfl

/-- A name that was declared before keeps its binding. -/
theorem binding?_declare_of_declares (h : s.declares other = true) :
    (s.declare name).binding? other = s.binding? other := by
  obtain ⟨b, hb⟩ := Option.isSome_iff_exists.1 h
  unfold binding? declare at *
  rw [List.find?_append, hb]
  rfl

/-- A name that was not declared before has no value. -/
theorem binding?_declare_self (h : s.declares name = false) :
    (s.declare name).binding? name = some ⟨name, none⟩ := by
  have hnone := binding?_eq_none h
  unfold binding? declare at *
  rw [List.find?_append, hnone]
  simp

/-- A declaration gives no other name a binding. -/
theorem binding?_declare_ne (h : other ≠ name) :
    (s.declare name).binding? other = s.binding? other := by
  unfold binding? declare
  rw [List.find?_append, List.find?_cons_of_neg (by simpa using h.symm)]
  simp

/-- A declaration gives no name a value. -/
theorem binding?_of_declare (h : s.declares name = false)
    (hb : (s.declare name).binding? other = some ⟨other, some value⟩) :
    s.binding? other = some ⟨other, some value⟩ := by
  by_cases heq : other = name
  · rw [heq, binding?_declare_self h] at hb
    cases hb
  · rw [binding?_declare_ne heq] at hb
    exact hb

/-- A value changes no name, whether the name was declared or not. -/
@[simp] theorem names_set : (s.set name value).names = s.names := by
  unfold names set
  rw [List.map_map]
  refine List.map_congr_left fun b _ => ?_
  by_cases h : b.name = name
  · simp [h]
  · simp [h]

/-- A value is no result: setting one leaves the result of the scope alone. -/
@[simp] theorem result?_set : (s.set name value).result? = s.result? := rfl

/-- The bindings of a scope in which a name has a value are what they were, but for the name itself,
which has the new value if it was declared. -/
theorem binding?_set : (s.set name value).binding? other =
    if other = name then (s.binding? name).map fun _ => ⟨name, some value⟩
      else s.binding? other := by
  unfold binding? set
  rw [List.find?_map]
  -- Setting a value changes no name, so the same binding is found as before.
  have hcomp : (fun b : Binding => b.name == other) ∘
      (fun b => if b.name == name then ⟨name, some value⟩ else b) = fun b => b.name == other := by
    funext b
    by_cases h : b.name = name
    · simp [h]
    · simp [h]
  rw [hcomp]
  cases hfound : s.bindings.find? fun b => b.name == other with
  | none =>
    split_ifs with h
    · rw [← h, hfound]
      rfl
    · rfl
  | some b =>
    have hname : b.name = other := name_of_binding? hfound
    split_ifs with h
    · rw [← h, hfound]
      simp [hname]
    · simp [hname, h]

/-- A name has the value that it was given. -/
theorem binding?_set_self (h : s.declares name = true) :
    (s.set name value).binding? name = some ⟨name, some value⟩ := by
  obtain ⟨value?, hb⟩ := declares_iff_exists.1 h
  rw [binding?_set, if_pos rfl, hb]
  rfl

/-- A name that was not declared before is declared with a value. -/
theorem set_declare (h : s.declares name = false) :
    (s.declare name).set name value =
      { s with bindings := s.bindings ++ [⟨name, some value⟩] } := by
  have hkept : s.bindings.map (fun b => if b.name == name then ⟨name, some value⟩ else b) =
      s.bindings := by
    refine (List.map_congr_left fun b hb => if_neg fun heq => ?_).trans (List.map_id' _)
    exact absurd (declares_iff.2 (beq_iff_eq.1 heq ▸ List.mem_map_of_mem hb))
      (Bool.eq_false_iff.1 h)
  unfold set declare
  dsimp only
  rw [List.map_append, hkept, List.map_singleton, if_pos (beq_self_eq_true name)]

/-- The other names keep their values. -/
theorem binding?_set_ne (h : other ≠ name) :
    (s.set name value).binding? other = s.binding? other := by
  rw [binding?_set, if_neg h]

end Scope

/-! ## Trees of scopes -/

namespace ScopeTree

variable {t t' : ScopeTree} {id other owner : ScopeId} {name : String} {value : Value} {b : Binding}
  {s : Scope} {f : Scope → Scope}

/-- The number of scopes, which is also the number of the next one. -/
def size (t : ScopeTree) : Nat := t.scopes.size

/-- A scope that is changed, if there is a scope of the number. -/
theorem get_modify (h : id < t.size) : (t.modify id f).get id = f (t.get id) := by
  unfold get modify
  rw [Array.getD_eq_getD_getElem?, Array.getD_eq_getD_getElem?, Array.getElem?_modify, if_pos rfl,
    Array.getElem?_eq_getElem h]
  rfl

/-- The scopes that are not changed. -/
theorem get_modify_ne (h : other ≠ id) : (t.modify id f).get other = t.get other := by
  unfold get modify
  rw [Array.getD_eq_getD_getElem?, Array.getD_eq_getD_getElem?, Array.getElem?_modify,
    if_neg h.symm]

/-- Changing a scope adds none and removes none. -/
@[simp] theorem size_modify : (t.modify id f).size = t.size := Array.size_modify

/-- The tree with one more scope. -/
def push (t : ScopeTree) (s : Scope) : ScopeTree := ⟨t.scopes.push s⟩

/-- One more scope makes the tree larger by one. -/
@[simp] theorem size_push : (t.push s).size = t.size + 1 := Array.size_push _

/-- The scope that was added last. -/
theorem get_push_self : (t.push s).get t.size = s := by
  unfold get push size
  rw [Array.getD_eq_getD_getElem?, Array.getElem?_push_size]
  rfl

/-- The scopes that were there before. -/
theorem get_push_ne (h : id ≠ t.size) : (t.push s).get id = t.get id := by
  unfold get push
  rw [Array.getD_eq_getD_getElem?, Array.getD_eq_getD_getElem?, Array.getElem?_push,
    if_neg (show id ≠ t.scopes.size from h)]

/-- Changing the scope that was added last. -/
theorem modify_push : (t.push s).modify t.size f = t.push (f s) := by
  unfold modify push size
  refine congrArg ScopeTree.mk (Array.ext_getElem? fun i => ?_)
  rw [Array.getElem?_modify, Array.getElem?_push, Array.getElem?_push]
  by_cases h : i = t.scopes.size
  · rw [if_pos h.symm, if_pos h, if_pos h]
    rfl
  · rw [if_neg (Ne.symm h), if_neg h]
    exact (if_neg h).symm

/-- Declaring a name in the scope that was added last. -/
theorem declare_push (h : s.declares name = false) :
    (t.push s).declare t.size name = .ok (t.push (s.declare name)) := by
  unfold declare
  rw [get_push_self, if_neg (Bool.eq_false_iff.1 h), modify_push]

/-- Where there is no scope, it is as in an outermost one that binds nothing. -/
theorem get_of_size_le (h : t.size ≤ id) : t.get id = .outermost := by
  unfold get
  rw [Array.getD_eq_getD_getElem?, Array.getElem?_eq_none h]
  rfl

/-- A scope that a name is bound in. -/
theorem lt_size_of_binding? (h : (t.get id).binding? name = some b) : id < t.size := by
  by_contra hge
  rw [get_of_size_le (Nat.not_lt.1 hge)] at h
  exact absurd h (by simp [Scope.binding?, Scope.outermost])

/-- A scope that has a result. -/
theorem lt_size_of_result? {a : Automaton} (h : t.result? id = some a) : id < t.size := by
  by_contra hge
  unfold result? at h
  rw [get_of_size_le (Nat.not_lt.1 hge)] at h
  exact absurd h (by simp [Scope.outermost])

/-- A name that a scope binds itself is found there. -/
theorem owner_of_binding? (h : (t.get id).binding? name = some b) :
    t.owner id name = .ok (id, b) := by
  unfold ScopeTree.owner
  rw [List.findSome?_cons, h]
  rfl

/-- The scope in which a name is found binds it, so what is found is a binding of that scope and of
no other one. -/
theorem binding?_of_owner (h : t.owner id name = .ok (owner, b)) :
    (t.get owner).binding? name = some b := by
  unfold ScopeTree.owner at h
  split at h
  · next found hfound =>
    obtain rfl := Except.ok.inj h
    obtain ⟨scope, -, hscope⟩ := List.exists_of_findSome?_eq_some hfound
    obtain ⟨b', hb', heq⟩ := Option.map_eq_some_iff.1 hscope
    obtain ⟨rfl, rfl⟩ := Prod.mk.inj heq
    exact hb'
  · exact absurd h (by simp)

/-- A name that the outermost scope does not bind is not found there. -/
theorem owner_of_enclosing_nil (henclosing : (t.get id).enclosing = [])
    (h : (t.get id).binding? name = none) :
    t.owner id name = .error (.notDeclared name) := by
  unfold ScopeTree.owner
  rw [henclosing, List.findSome?_cons, h]
  rfl

/-- The scope either stands in no other, or declares some names itself. -/
def Collects (t : ScopeTree) (id : ScopeId) (names : List String) : Prop :=
  (t.get id).enclosing = [] ∨ ∀ name ∈ names, (t.get id).declares name = true

/-- What is found from a scope that collects it is found in the scope itself. -/
theorem Collects.owner_eq {names : List String} (h : t.Collects id names) (hname : name ∈ names)
    (howner : t.owner id name = .ok (owner, b)) : owner = id := by
  cases hb : (t.get id).binding? name with
  | some b' =>
    rw [owner_of_binding? hb] at howner
    exact (Prod.mk.inj (Except.ok.inj howner)).1.symm
  | none =>
    rcases h with henclosing | hdeclares
    · rw [owner_of_enclosing_nil henclosing hb] at howner
      exact absurd howner (by simp)
    · obtain ⟨value?, hsome⟩ := Scope.declares_iff_exists.1 (hdeclares name hname)
      exact absurd (hb.symm.trans hsome) (by simp)

/-- A value is given to a name in the scope that declares it. -/
theorem define_eq (h : (t.get id).binding? name = some ⟨name, none⟩) (value : Value) :
    t.define id name value = .ok (t.modify id (Scope.set · name value)) := by
  unfold define
  rw [owner_of_binding? h]
  rfl

/-- Binding a name in the scope that was added last. -/
theorem bind_push (h : s.declares name = false) (value : Value) :
    (t.push s).bind t.size name value = .ok
      (t.push { s with bindings := s.bindings ++ [⟨name, some value⟩] }) := by
  unfold ScopeTree.bind
  have hbound : ((t.push (s.declare name)).get t.size).binding? name = some ⟨name, none⟩ := by
    rw [get_push_self]
    exact Scope.binding?_declare_self h
  rw [declare_push h, ← Scope.set_declare h, ← modify_push (f := (Scope.set · name value))]
  exact define_eq hbound value

/-- What has to be the case for a name to get a value, and what happens then. -/
theorem of_define (h : t.define id name value = .ok t') :
    ∃ owner, t.owner id name = .ok (owner, ⟨name, none⟩) ∧
      t' = t.modify owner (Scope.set · name value) := by
  unfold define at h
  obtain ⟨⟨scope, bname, value?⟩, howner, h⟩ := exists_of_bind_eq_ok h
  obtain rfl : bname = name := Scope.name_of_binding? (binding?_of_owner howner)
  cases value? with
  | none => exact ⟨scope, howner, (Except.ok.inj h).symm⟩
  | some old => cases h

/-- Where the value of a name comes from. -/
theorem of_defined (h : t.defined id name = .ok (owner, value)) :
    t.owner id name = .ok (owner, ⟨name, some value⟩) := by
  unfold defined at h
  obtain ⟨⟨scope, bname, value?⟩, howner, h⟩ := exists_of_bind_eq_ok h
  obtain rfl : bname = name := Scope.name_of_binding? (binding?_of_owner howner)
  cases value? with
  | none => cases h
  | some old =>
    obtain ⟨rfl, rfl⟩ := Prod.mk.inj (Except.ok.inj h)
    exact howner

/-- What has to be the case for a value to be changed, and what happens then. -/
theorem of_update {f : Value → Value} (h : t.update id name f = .ok t') :
    ∃ owner old, t.owner id name = .ok (owner, ⟨name, some old⟩) ∧
      t' = t.modify owner (Scope.set · name (f old)) := by
  unfold update at h
  obtain ⟨⟨scope, old⟩, hdefined, h⟩ := exists_of_bind_eq_ok h
  exact ⟨scope, old, of_defined hdefined, (Except.ok.inj h).symm⟩

/-- A value that is looked up is found in some scope. -/
theorem of_lookup (h : t.lookup id name = .ok value) :
    ∃ owner, t.owner id name = .ok (owner, ⟨name, some value⟩) := by
  unfold lookup at h
  rw [map_eq_pure_bind] at h
  obtain ⟨⟨scope, old⟩, hdefined, h⟩ := exists_of_bind_eq_ok h
  obtain rfl : old = value := Except.ok.inj h
  exact ⟨scope, of_defined hdefined⟩

/-- The value of a name that a scope binds itself. -/
theorem lookup_of_binding? (h : (t.get id).binding? name = some ⟨name, some value⟩) :
    t.lookup id name = .ok value := by
  unfold lookup defined
  rw [owner_of_binding? h]
  rfl

/-- A name without a value cannot be looked up. -/
theorem lookup_of_undefined (h : (t.get id).binding? name = some ⟨name, none⟩) :
    t.lookup id name = .error (.usedBeforeDefinition name) := by
  unfold lookup defined
  rw [owner_of_binding? h]
  rfl

end ScopeTree

/-! ## Later states of a scope -/

/-- The names under which the statements of declarations are collected. -/
def reservedNames : List String :=
  [initialStateName, finalStatesName, transitionsName, productionsName]

/-- A name without spaces is not reserved. -/
theorem PlainName.notMem_reservedNames {name : String} (h : PlainName name) :
    name ∉ reservedNames := by
  have hspace : ∀ reserved ∈ reservedNames, ' ' ∈ reserved.toList := by decide
  exact fun hmem => h (hspace name hmem)

/-- A name without spaces is no reserved one. -/
theorem PlainName.ne {name reserved : String} (h : PlainName name)
    (hreserved : reserved ∈ reservedNames) :
    name ≠ reserved := fun heq => h.notMem_reservedNames (heq ▸ hreserved)

namespace Scope

/-- A later state of a scope: names were added, and only reserved names got other values. -/
structure Extends (a b : Scope) : Prop where
  /-- It stands where it did. -/
  enclosing_eq : b.enclosing = a.enclosing
  /-- Its result is what it was. -/
  result?_eq : b.result? = a.result?
  /-- The names are those from before, and others behind them. -/
  prefix_names : a.names <+: b.names
  /-- No name is added that was there already. -/
  nodup : a.names.Nodup → b.names.Nodup
  /-- The names from before keep their values, unless they are reserved. -/
  binding?_eq : ∀ name ∉ reservedNames, a.declares name = true → b.binding? name = a.binding? name
  /-- A name that stands for a declaration still does. -/
  declaration : ∀ name scope, a.binding? name = some ⟨name, some (.declaration scope)⟩ →
    b.binding? name = some ⟨name, some (.declaration scope)⟩

namespace Extends

variable {a b c : Scope} {name : String} {value : Value}

/-- A scope that is not changed. -/
theorem refl (a : Scope) : Extends a a :=
  ⟨rfl, rfl, List.prefix_rfl, id, fun _ _ _ => rfl, fun _ _ h => h⟩

/-- The names that are declared stay declared. -/
theorem declares (h : Extends a b) (hname : a.declares name = true) : b.declares name = true :=
  declares_iff.2 (h.prefix_names.subset (declares_iff.1 hname))

/-- Later and later states of a scope: the relation is transitive. -/
theorem trans (h : Extends a b) (h' : Extends b c) : Extends a c where
  enclosing_eq := h'.enclosing_eq.trans h.enclosing_eq
  result?_eq := h'.result?_eq.trans h.result?_eq
  prefix_names := h.prefix_names.trans h'.prefix_names
  nodup hnodup := h'.nodup (h.nodup hnodup)
  binding?_eq name hname hdeclares :=
    (h'.binding?_eq name hname (h.declares hdeclares)).trans (h.binding?_eq name hname hdeclares)
  declaration name scope hb := h'.declaration name scope (h.declaration name scope hb)

/-- A name was declared, so the scope has one more and is otherwise the same. -/
theorem declare (h : a.declares name = false) : Extends a (a.declare name) where
  enclosing_eq := rfl
  result?_eq := rfl
  prefix_names := by
    rw [names_declare]
    exact List.prefix_append _ _
  -- The new name is at the end, and was not declared before.
  nodup hnodup := by
    rw [names_declare, List.nodup_append]
    refine ⟨hnodup, List.nodup_singleton _, fun other hother found hfound heq => ?_⟩
    obtain rfl := List.mem_singleton.1 hfound
    exact Bool.eq_false_iff.1 h (declares_iff.2 (heq ▸ hother))
  binding?_eq _ _ hdeclares := binding?_declare_of_declares hdeclares
  declaration _ _ hb := (binding?_declare_of_declares (declares_iff_exists.2 ⟨_, hb⟩)).trans hb

/-- A reserved name got another value, which extends the scope unless a declaration is lost by it.
Such names collect the parts of machines and grammars. -/
theorem set_reserved (hname : name ∈ reservedNames)
    (hvalue : ∀ scope, a.binding? name = some ⟨name, some (.declaration scope)⟩ →
      value = .declaration scope) :
    Extends a (a.set name value) where
  enclosing_eq := rfl
  result?_eq := rfl
  prefix_names := by
    rw [names_set]
  nodup hnodup := by
    rw [names_set]
    exact hnodup
  binding?_eq _ hother _ := binding?_set_ne fun heq => hother (heq ▸ hname)
  -- The one binding that is replaced stands for a declaration only if the new value is that very
  -- declaration.
  declaration other scope hb := by
    by_cases heq : other = name
    · subst heq
      rw [binding?_set_self (declares_iff_exists.2 ⟨_, hb⟩), hvalue scope hb]
    · rw [binding?_set_ne heq]
      exact hb

/-- A name that was not declared before was declared and got a value, which extends the scope, since
every name that had a value before is another one. -/
theorem declare_set (hname : a.declares name = false) :
    Extends a ((a.declare name).set name value) where
  enclosing_eq := rfl
  result?_eq := rfl
  prefix_names := by
    rw [names_set]
    exact (declare hname).prefix_names
  nodup hnodup := by
    rw [names_set]
    exact (declare hname).nodup hnodup
  -- A name declared before is another one, so neither step touches it.
  binding?_eq other hother hdeclares := by
    have hne : other ≠ name := fun heq => absurd (heq ▸ hdeclares) (Bool.eq_false_iff.1 hname)
    rw [binding?_set_ne hne]
    exact (declare hname).binding?_eq other hother hdeclares
  declaration other scope hb := by
    have hne : other ≠ name := fun heq =>
      absurd (heq ▸ declares_iff_exists.2 ⟨_, hb⟩) (Bool.eq_false_iff.1 hname)
    rw [binding?_set_ne hne]
    exact (declare hname).declaration other scope hb

end Extends

end Scope

end MachineLang
