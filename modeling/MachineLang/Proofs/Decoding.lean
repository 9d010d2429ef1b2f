import MachineLang.Encoding.Decode
import MachineLang.Proofs.Definitions
import MachineLang.Proofs.JsonText

/-!
# Machines survive encoding

A machine is encoded as its definition. The parts of a definition come back from their JSON forms
(`Definition.ofJson?_fields`), and the JSON form comes back from its text, so decoding ends with
building a machine from the definition of the encoded one.
-/

namespace MachineLang

/-! ## Parts of definitions -/

namespace Json

/-- The members of a list come back if each of them does. -/
theorem list?_array_map {α : Type} {item : Json → Option α} (toJson : α → Json)
    (h : ∀ a, item (toJson a) = some a) (l : List α) :
    list? item (.array (l.map toJson)) = some l := by
  unfold list?
  dsimp only
  induction l with
  | nil => rfl
  | cons a l ih =>
    rw [List.map_cons, List.mapM_cons, h, ih]
    rfl

/-- Texts come back. -/
theorem strings?_strings (texts : List String) : strings? (strings texts) = some texts :=
  list?_array_map string (fun _ => rfl) texts

/-- Words come back. -/
theorem words?_words (ws : List Word) : words? (words ws) = some ws :=
  list?_array_map word (fun _ => congrArg some String.toList_ofList) ws

end Json

/-- Directions come back from the words that stand for them. -/
theorem Direction.list?_strings (l : List Direction) :
    Json.list? (Json.choice? Direction.ofTag?) (.strings (l.map Direction.tag)) = some l := by
  unfold Json.strings
  rw [List.map_map]
  refine Json.list?_array_map (Json.string ∘ Direction.tag) (fun d => ?_) l
  cases d with
  | left => rfl
  | right => rfl
  | stay => rfl

/-- What a transition does comes back. -/
theorem actionOfJson?_actionToJson {k : MachineKind} (a : Action k) :
    actionOfJson? k (actionToJson k a) = some a := by
  cases k with
  | finite => rfl
  | pushdown =>
    obtain ⟨push⟩ := a
    show (do return StackAction.mk (← (Json.words push).words?)) = _
    rw [Json.words?_words]
    rfl
  | turing =>
    obtain ⟨write, shift⟩ := a
    show (do
      let write ← (Json.words write).words?
      let shift ← Json.list? (Json.choice? Direction.ofTag?) (.strings (shift.map Direction.tag))
      return TapeAction.mk write shift) = _
    rw [Json.words?_words, Direction.list?_strings]
    rfl

/-- A transition comes back with its states, its pattern and its action. -/
theorem Transition.ofJson?_toJson {k : MachineKind} (t : Transition k) :
    Transition.ofJson? k t.toJson = some t := by
  show (do
    let read ← (Json.words t.read).words?
    let action ← actionOfJson? k (actionToJson k t.action)
    return Transition.mk t.source read t.target action) = _
  rw [Json.words?_words, actionOfJson?_actionToJson]
  rfl

/-- A set comes back from the list of its elements. -/
theorem SortedSet.ofList_toList {α : Type} [Ord α] [Std.TransOrd α] [Std.LawfulEqOrd α]
    (s : SortedSet α) : SortedSet.ofList s.toList = s :=
  SortedSet.ext fun _ => SortedSet.mem_ofList

/-- A definition comes back from its fields with everything a machine is built from: transitions in
their order, initial and final states, tapes and alphabet. -/
theorem Definition.ofJson?_fields {k : MachineKind} (d : Definition k) :
    Definition.ofJson? k (.object d.fields) = some d := by
  show (do
    let transitions ← (Json.array (d.transitions.map Transition.toJson)).list?
      (Transition.ofJson? k)
    let finals ← Json.strings? (.strings d.finals.toList)
    let tapes ← Json.strings? (.strings d.tapes)
    let states ← Json.strings? (.strings d.states.toList)
    let alphabet ← Json.words? (.words d.alphabet.toList)
    return Definition.mk transitions d.initial (.ofList finals) tapes (.ofList states)
      (.ofList alphabet) d.bounded) = _
  -- Each field is printed by one function and read by its inverse; the sets come back since their
  -- elements are listed in order.
  rw [Json.list?_array_map Transition.toJson Transition.ofJson?_toJson, Json.strings?_strings,
    Json.strings?_strings, Json.strings?_strings, Json.words?_words]
  show some (Definition.mk d.transitions d.initial (.ofList d.finals.toList) d.tapes
    (.ofList d.states.toList) (.ofList d.alphabet.toList) d.bounded) = some d
  rw [SortedSet.ofList_toList, SortedSet.ofList_toList, SortedSet.ofList_toList]

/-! ## Values without numbers -/

section

variable {depth : Nat} {k : MachineKind}

/-- Texts are printed without numbers, so nothing is lost when they are read back. -/
theorem Json.plain_strings (texts : List String) : Json.Plain (depth + 1) (.strings texts) := by
  refine .array fun j hj => ?_
  obtain ⟨text, -, rfl⟩ := List.mem_map.1 hj
  exact .string text

/-- Words are printed without numbers, as an array of strings. -/
theorem Json.plain_words (ws : List Word) : Json.Plain (depth + 1) (.words ws) := by
  refine .array fun j hj => ?_
  obtain ⟨w, -, rfl⟩ := List.mem_map.1 hj
  exact .string (.ofList w)

/-- What a transition does is printed without numbers. -/
theorem plain_actionToJson (a : Action k) : Json.Plain (depth + 2) (actionToJson k a) := by
  cases k with
  | finite => exact .null
  | pushdown => exact .object (List.forall_mem_singleton.2 (Json.plain_words a.push))
  | turing =>
    refine .object (List.forall_mem_cons.2 ⟨Json.plain_words a.write, ?_⟩)
    exact List.forall_mem_singleton.2 (Json.plain_strings (a.shift.map Direction.tag))

/-- A transition is printed without numbers. -/
theorem Transition.plain_toJson (t : Transition k) : Json.Plain (depth + 3) t.toJson := by
  refine .object ?_
  simp only [List.forall_mem_cons, List.not_mem_nil, false_imp_iff, forall_const, and_true]
  exact ⟨.string t.source, Json.plain_words t.read, .string t.target, plain_actionToJson t.action⟩

/-- A definition is printed without numbers. -/
theorem Definition.plain_fields (d : Definition k) :
    ∀ f ∈ d.fields, Json.Plain (depth + 4) f.2 := by
  unfold Definition.fields
  simp only [List.forall_mem_cons, List.not_mem_nil, false_imp_iff, forall_const, and_true]
  refine ⟨.array fun j hj => ?_, .string d.initial, Json.plain_strings d.finals.toList,
    Json.plain_strings d.tapes, Json.plain_strings d.states.toList,
    Json.plain_words d.alphabet.toList, .bool d.bounded⟩
  obtain ⟨t, -, rfl⟩ := List.mem_map.1 hj
  exact t.plain_toJson

/-- No field of a definition is named like the one that holds its sort. -/
theorem Definition.name_ne_type (d : Definition k) : ∀ f ∈ d.fields, f.1 ≠ "type" := by
  unfold Definition.fields
  simp only [List.forall_mem_cons, List.not_mem_nil, false_imp_iff, forall_const, and_true]
  decide

end

namespace Tagged

/-! ## Reading a value that stands on its own -/

variable {steps : Nat} {sort : TaggedSort} {text rest : List Char}

/-- The sort of a value is the one that its tag names. -/
theorem ofTag?_tag (sort : TaggedSort) : TaggedSort.ofTag? sort.tag = some sort := by
  cases sort with
  | machine k => cases k <;> rfl
  | _ => rfl

/-- A value inside the outermost one comes back. -/
theorem readInner_chars {j : Json} (h : Json.Plain (Json.maxDepth - 1) j) (rest : List Char) :
    readInner (j.chars ++ rest) = .ok (j, rest) := by
  have hlimit : j.chars.length ≤ (j.chars ++ rest).length + 1 := by
    rw [List.length_append]
    omega
  unfold readInner
  rw [h.readsBack hlimit rest]
  rfl

/-- The sort of a value comes back. -/
theorem readSort_tag (sort : TaggedSort) (rest : List Char) :
    readSort (Json.stringChars sort.tag ++ rest) = .ok (sort, rest) := by
  have hspace := (Json.opens_stringChars sort.tag).skipSpace_append rest
  have hread := readInner_chars (.string sort.tag) rest
  rw [Json.chars_string] at hread
  rw [Json.stringChars_eq, List.cons_append] at hspace hread ⊢
  unfold readSort
  rw [hspace]
  show (readInner _ >>= _) = _
  rw [hread]
  show (fit (TaggedSort.ofTag? sort.tag) >>= _) = _
  rw [ofTag?_tag]
  rfl

/-- The field that names the sort is read once its name has been. -/
theorem readFields_type {more : List Char} {first : Bool}
    (hname : Json.readNextName first text = .ok (some "type", ':' :: more))
    (hread : readSort more = .ok (sort, rest)) (before : List (String × Json)) :
    readFields (steps + 1) first none before text = readFields steps false (some sort)
      before rest := by
  rw [readFields, hname]
  show (readSort more >>= _) = _
  rw [hread]
  rfl

/-- Any other field is read once its name has been. -/
theorem readFields_step {more : List Char} {first : Bool} {name : String} {j : Json}
    {found : Option TaggedSort}
    (hname : Json.readNextName first text = .ok (some name, ':' :: more)) (htype : name ≠ "type")
    (hread : readInner more = .ok (j, rest)) (before : List (String × Json)) :
    readFields (steps + 1) first found before text =
      readFields steps false found ((name, j) :: before) rest := by
  rw [readFields, hname]
  show (if name = "type" then _ else readInner more >>= _) = _
  rw [if_neg htype, hread]
  rfl

/-- Further fields come back up to the closing brace, in their order and behind those that were read
before. None of them is a tag, which has been read already. -/
theorem readFields_moreFields {fields : List (String × Json)}
    (hplain : ∀ f ∈ fields, Json.Plain (Json.maxDepth - 1) f.2) (htype : ∀ f ∈ fields, f.1 ≠ "type")
    (hsteps : fields.length < steps) (before : List (String × Json)) :
    readFields steps false (some sort) before (Json.moreFields fields ++ '\x7d' :: rest) =
      .ok (sort, .object (before.reverse ++ fields), rest) := by
  -- The fields are read from left to right; what was read before is kept in reverse.
  induction fields generalizing steps before with
  | nil =>
    obtain ⟨steps, rfl⟩ := Nat.exists_eq_add_one_of_ne_zero (Nat.ne_zero_of_lt hsteps)
    rw [List.append_nil]
    rfl
  | cons f fields ih =>
    obtain ⟨steps, rfl⟩ := Nat.exists_eq_add_one_of_ne_zero (Nat.ne_zero_of_lt hsteps)
    have hread := readInner_chars (hplain f List.mem_cons_self)
      (Json.moreFields fields ++ '\x7d' :: rest)
    have hmore := ih (fun g hg => hplain g (List.mem_cons_of_mem _ hg))
      (fun g hg => htype g (List.mem_cons_of_mem _ hg)) (Nat.lt_of_succ_lt_succ hsteps)
        (f :: before)
    rw [Json.moreFields_cons,
      readFields_step (Json.readNextName_next f.1) (htype f List.mem_cons_self) hread, hmore,
      List.reverse_cons, List.append_assoc, List.singleton_append]

/-- A value without numbers comes back from its text, if it does from its fields. The text holds the
tag as its first field, which decoding takes out before it reads the others. -/
theorem decode_encode {value : Tagged}
    (hplain : ∀ f ∈ value.fields, Json.Plain (Json.maxDepth - 1) f.2)
    (htype : ∀ f ∈ value.fields, f.1 ≠ "type")
    (hcontent : ofContent value.sort (.object value.fields) = .ok value) :
    decode value.encode = .ok value := by
  obtain ⟨hlength, -⟩ := Json.length_chars_object (("type", .string value.sort.tag) :: value.fields)
  -- The text of the value is that of its fields, with the tag as the first one.
  have hchars : value.encode.toList = '\x7b' :: (Json.stringChars "type" ++
      ':' :: (Json.stringChars value.sort.tag ++ (Json.moreFields value.fields ++ ['\x7d']))) := by
    show Json.chars (.object (("type", .string value.sort.tag) :: value.fields)) = _
    rw [Json.chars_object_cons, Json.fieldChars, Json.chars_string]
    simp only [List.append_assoc, List.cons_append]
  rw [List.length_cons] at hlength
  -- Reading the fields takes the tag first and collects the others as they are.
  have hfields : readFields (value.encode.toList.length + 1) true none []
      (Json.stringChars "type" ++ ':' :: (Json.stringChars value.sort.tag ++
        (Json.moreFields value.fields ++ ['\x7d']))) =
      .ok (value.sort, .object value.fields, []) := by
    rw [readFields_type (Json.readNextName_first "type") (readSort_tag _ _),
      readFields_moreFields hplain htype]
    · rfl
    · exact Nat.lt_of_succ_lt hlength
  unfold decode
  rw [hchars]
  rw [hchars] at hfields
  show (readFields _ true none [] _ >>= _) = _
  rw [hfields]
  show (ofContent value.sort (.object value.fields) >>= _) = _
  rw [hcontent]
  rfl

/-- A machine that some definition describes comes back from its text. -/
theorem decode_encode_machine {k : MachineKind} {m : Machine k} (h : m.IsBuilt) :
    decode (encode (.automaton (.machine m))) = .ok (.automaton (.machine m)) := by
  refine decode_encode m.definition.plain_fields m.definition.name_ne_type ?_
  show (fit (Definition.ofJson? k (.object m.definition.fields)) >>= _) = _
  rw [Definition.ofJson?_fields]
  simp only [fit, bind, Except.bind, h.new_definition]
  rfl

end Tagged

namespace Machine

/-- Whatever a sequence of operations makes of machines that definitions describe is described by
its own definition, to the order of its targets; it mentions no states and symbols but its own,
lists no target twice, and comes back from its text. -/
theorem derived_survives_encoding {k : MachineKind} (m : Machine k) (h : m.Derived) :
    new m.definition = .ok m ∧
      (∀ t ∈ m.transitions, t.source ∈ m.states ∧ t.target ∈ m.states) ∧
      m.initial ∈ m.states ∧ (∀ q ∈ m.finals, q ∈ m.states) ∧
      (∀ x ∈ m.alphabet, x ≠ epsilon ∧ x ≠ blank) ∧
      (∀ q read targets, (read, targets) ∈ m.choicesAt q → targets.Nodup) ∧
      Tagged.decode (Tagged.encode (.automaton (.machine m))) = .ok (.automaton (.machine m)) := by
  have hbuilt := h.isBuilt
  have hm := hbuilt.wellFormed
  have hends : ∀ t ∈ m.transitions, t.source ∈ m.states ∧ t.target ∈ m.states :=
    fun t ht => ⟨hm.source_mem t ht, hm.target_mem t ht⟩
  exact ⟨hbuilt.new_definition, hends, hm.initial_mem, hm.final_mem, hm.alphabet_ne,
    fun _ _ _ => hbuilt.nodup_targets, Tagged.decode_encode_machine hbuilt⟩

/-- The union of two Turing machines with a state of the same name, under proposed names that clash,
comes back from its definition and from its text. -/
theorem derived_marking_escaping :
    ∃ both, marking.union escaping = .ok both ∧ (both.reenumerate clashingNames).Derived ∧
      new (both.reenumerate clashingNames).definition = .ok (both.reenumerate clashingNames) ∧
      Tagged.decode (Tagged.encode (.automaton (.machine (both.reenumerate clashingNames)))) =
        .ok (.automaton (.machine (both.reenumerate clashingNames))) := by
  have hmarking : marking.IsBuilt := isBuilt_build (by decide)
  have hescaping : escaping.IsBuilt := isBuilt_build (by decide)
  have hunion : marking.union escaping = .ok (marking.joined escaping) := union_eq_ok rfl
  obtain ⟨d, hd⟩ := hmarking
  obtain ⟨d', hd'⟩ := hescaping
  have hderived : ((marking.joined escaping).reenumerate clashingNames).Derived :=
    .reenumerate clashingNames (.union (.new d hd) (.new d' hd') hunion)
  obtain ⟨hnew, -, -, -, -, -, hdecode⟩ := derived_survives_encoding _ hderived
  exact ⟨_, hunion, hderived, hnew, hdecode⟩

end Machine

end MachineLang
