import MachineLang.Json.Printer
import MachineLang.Json.Reader

/-!
# Reading a printed JSON value

Reading the compact text of a JSON value gives the value, and leaves what stands behind the text.
The characters of a string come back one by one, whether they are escaped or not
(`readString_stringChar`); arrays and objects come back item by item, by induction on how they are
nested (`Plain.readsBack`). Values are `Plain` if they are nested no deeper than the reader allows.
They have no numbers, since machines are written without any: a number would be read on into digits
behind it.
-/

namespace MachineLang.Json

variable {depth : Nat} {j : Json}

/-! ## Strings -/

/-- The characters of a printed value. -/
def chars (j : Json) : List Char := j.compact.toList

/-- The characters of a string as printed. -/
def stringChars (s : String) : List Char := (stringText s).toList

/-- The number of a control character stands for it. -/
theorem readString_control {c : Char} (hc : c.toNat < 0x20) (before text : List Char) :
    readString before
        ('\\' :: 'u' :: '0' :: '0' :: hexDigit (c.toNat / 16) :: hexDigit c.toNat :: text) =
      readString (c :: before) text := by
  have hunit : ∀ n < 0x20, hexUnit? '0' '0' (hexDigit (n / 16)) (hexDigit n) = some n := by decide
  have htrailing : isTrailing c.toNat = false := by
    unfold isTrailing
    simp only [Bool.and_eq_false_iff, decide_eq_false_iff_not]
    omega
  have hleading : isLeading c.toNat = false := by
    unfold isLeading
    simp only [Bool.and_eq_false_iff, decide_eq_false_iff_not]
    omega
  rw [readString]
  simp only [hunit _ hc, htrailing, hleading, Bool.false_eq_true, if_false, Char.ofNat_toNat]

/-- A letter behind a backslash stands for a character. -/
theorem readString_letter {letter c : Char} (h : shortEscape? letter = some c)
    (hu : letter ≠ 'u') (before text : List Char) :
    readString before ('\\' :: letter :: text) = readString (c :: before) text := by
  rw [readString, h]
  · exact fun _ _ _ _ _ hletter _ => hu hletter
  · exact hu

/-- A character that is neither escaped nor a control stands for itself. -/
theorem readString_itself {c : Char} (hquote : c ≠ '"') (hslash : c ≠ '\\') (hc : 0x20 ≤ c.toNat)
    (before text : List Char) : readString before (c :: text) = readString (c :: before) text := by
  rw [readString, if_neg (by omega)]
  · exact hquote
  · exact hslash

/-- A character of a string comes back as it was, whether it was written as itself, with a backslash
in front, or by its number. -/
theorem readString_stringChar (c : Char) (before text : List Char) :
    readString before ((stringChar c).toList ++ text) = readString (c :: before) text := by
  unfold stringChar
  split
  case h_8 hquote hslash _ _ _ _ _ =>
    split
    · next hcontrol =>
      rw [String.toList_append, String.toList_ofList, String.toList_ofList]
      exact readString_control hcontrol before text
    · next hcontrol =>
      rw [Char.toString, String.toList_singleton]
      exact readString_itself hquote hslash (by omega) before text
  all_goals exact readString_letter rfl (by decide) before text

/-- The characters of a string come back one by one. -/
theorem readString_flatMap (cs before text : List Char) :
    readString before ((cs.flatMap fun c => (stringChar c).toList) ++ '"' :: text) =
      .ok (.ofList (before.reverse ++ cs), text) := by
  induction cs generalizing before with
  | nil =>
    rw [List.flatMap_nil, List.nil_append, List.append_nil, readString]
  | cons c cs ih =>
    rw [List.flatMap_cons, List.append_assoc, readString_stringChar, ih, List.reverse_cons,
      List.append_assoc, List.singleton_append]

/-- The characters of a printed string, between its quotes. -/
theorem stringChars_eq (s : String) :
    stringChars s = '"' :: ((s.toList.flatMap fun c => (stringChar c).toList) ++ ['"']) := by
  unfold stringChars stringText
  rw [String.toList_append, String.toList_append, String.toList_join, List.flatMap_map]
  rfl

/-- A printed string is read back behind its first quote. -/
theorem readString_stringText (s : String) (text : List Char) :
    readString [] ((s.toList.flatMap fun c => (stringChar c).toList) ++ '"' :: text) =
      .ok (s, text) := by
  rw [readString_flatMap, List.reverse_nil, List.nil_append, String.ofList_toList]

/-! ## Values -/

/-- A value without numbers that is nested at most `depth` deep. -/
inductive Plain : Nat → Json → Prop
  /-- The null value. -/
  | null {depth : Nat} : Plain depth .null
  /-- A truth value. -/
  | bool {depth : Nat} (b : Bool) : Plain depth (.bool b)
  /-- A text. -/
  | string {depth : Nat} (s : String) : Plain depth (.string s)
  /-- A sequence of values. -/
  | array {depth : Nat} {items : List Json} (h : ∀ j ∈ items, Plain depth j) :
      Plain (depth + 1) (.array items)
  /-- Named values. -/
  | object {depth : Nat} {fields : List (String × Json)} (h : ∀ f ∈ fields, Plain depth f.2) :
      Plain (depth + 1) (.object fields)

/-- What follows the first item of a printed array. -/
def moreItems (items : List Json) : List Char := items.flatMap fun j => ',' :: chars j

/-- A field as printed: its name as a string, a colon and its value. -/
def fieldChars (f : String × Json) : List Char := stringChars f.1 ++ ':' :: chars f.2

/-- What follows the first field of a printed object. -/
def moreFields (fields : List (String × Json)) : List Char :=
  fields.flatMap fun f => ',' :: fieldChars f

/-- A list of texts behind a first one, with commas between them. -/
theorem intercalate_comma (text : List Char) (texts : List (List Char)) :
    [','].intercalate (text :: texts) = text ++ texts.flatMap fun t => ',' :: t := by
  induction texts generalizing text with
  | nil => simp
  | cons t texts ih =>
    rw [List.intercalate_cons_cons, ih, List.flatMap_cons]
    simp

/-- The items of a printed array are printed one by one. -/
theorem compactItems_eq (items : List Json) : compactItems items = items.map compact := by
  induction items with
  | nil => rfl
  | cons j items ih => rw [compactItems, ih, List.map_cons]

/-- The fields of a printed object are printed one by one. -/
theorem compactFields_eq (fields : List (String × Json)) :
    compactFields fields = fields.map fun f => stringText f.1 ++ ":" ++ compact f.2 := by
  induction fields with
  | nil => rfl
  | cons f fields ih => rw [compactFields, ih, List.map_cons]

/-- A string as printed is its text between quotes, with escapes. -/
theorem chars_string (s : String) : chars (.string s) = stringChars s := by
  rw [chars, compact, stringChars]

/-- An empty array as printed is a pair of brackets. -/
theorem chars_array_nil : chars (.array []) = ['[', ']'] := rfl

/-- An array as printed: its first item without a comma in front, then the further ones. -/
theorem chars_array_cons (j : Json) (items : List Json) :
    chars (.array (j :: items)) = '[' :: (chars j ++ moreItems items ++ [']']) := by
  unfold chars moreItems
  rw [compact, compactItems_eq, String.toList_append, String.toList_append,
    String.toList_intercalate, List.map_map, List.map_cons]
  show '[' :: ([','].intercalate _ ++ [']']) = _
  rw [intercalate_comma, List.flatMap_map]
  rfl

/-- An empty object as printed is a pair of braces. -/
theorem chars_object_nil : chars (.object []) = ['\x7b', '\x7d'] := rfl

/-- An object as printed: its first field without a comma in front, then the further ones. -/
theorem chars_object_cons (f : String × Json) (fields : List (String × Json)) :
    chars (.object (f :: fields)) = '\x7b' :: (fieldChars f ++ moreFields fields ++ ['\x7d']) := by
  -- The field as a string and as a list of characters are the same text.
  have hfield : ∀ f : String × Json,
      (stringText f.1 ++ ":" ++ compact f.2).toList = fieldChars f := by
    intro f
    unfold fieldChars stringChars chars
    rw [String.toList_append, String.toList_append, List.append_assoc]
    rfl
  unfold moreFields
  rw [chars, compact, compactFields_eq, String.toList_append, String.toList_append,
    String.toList_intercalate, List.map_map]
  show '\x7b' :: ([','].intercalate
    ((f :: fields).map fun f => (stringText f.1 ++ ":" ++ compact f.2).toList) ++ ['\x7d']) = _
  simp only [hfield]
  rw [List.map_cons, intercalate_comma, List.flatMap_map]

/-- Further fields of an object, with what stands behind them. -/
theorem moreFields_cons (f : String × Json) (fields : List (String × Json)) (rest : List Char) :
    moreFields (f :: fields) ++ rest =
      ',' :: (stringChars f.1 ++ ':' :: (chars f.2 ++ (moreFields fields ++ rest))) := by
  unfold moreFields fieldChars
  simp only [List.flatMap_cons, List.cons_append, List.append_assoc]

/-! ## Reading what is printed -/

/-- A text begins with a character that is neither spacing nor a closing bracket. -/
def Opens (text : List Char) : Prop :=
  ∃ c rest, text = c :: rest ∧ c ∉ [' ', '\n', '\t', '\r', ']', '\x7d']

/-- A printed string begins with a quote. -/
theorem opens_stringChars (s : String) : Opens (stringChars s) :=
  ⟨'"', _, stringChars_eq s, by decide⟩

/-- A printed value begins with neither spacing nor a closing bracket. So a reader that skips
spacing stops in front of it, and does not take it for the end of a list. -/
theorem Plain.opens (h : Plain depth j) : Opens (chars j) := by
  -- Each sort of value begins with a character of its own.
  cases h with
  | null => exact ⟨'n', _, rfl, by decide⟩
  | bool b =>
    cases b with
    | true => exact ⟨'t', _, rfl, by decide⟩
    | false => exact ⟨'f', _, rfl, by decide⟩
  | string s =>
    rw [chars_string]
    exact opens_stringChars s
  | @array _ items _ =>
    cases items with
    | nil => exact ⟨'[', _, chars_array_nil, by decide⟩
    | cons j items => exact ⟨'[', _, chars_array_cons j items, by decide⟩
  | @object _ fields _ =>
    cases fields with
    | nil => exact ⟨'\x7b', _, chars_object_nil, by decide⟩
    | cons f fields => exact ⟨'\x7b', _, chars_object_cons f fields, by decide⟩

/-- There is no spacing to skip in front of a text that does not begin with any. -/
theorem Opens.skipSpace_append {text : List Char} (h : Opens text) (rest : List Char) :
    skipSpace (text ++ rest) = text ++ rest := by
  obtain ⟨c, text, rfl, hc⟩ := h
  simp only [List.mem_cons, not_or] at hc
  unfold skipSpace
  rw [List.cons_append, List.dropWhile_cons_of_neg]
  simp [hc]

/-- A value is read back in front of any text. -/
def ReadsBack (item : List Char → Except ReadError (Json × List Char)) (j : Json) : Prop :=
  ∀ rest, item (chars j ++ rest) = .ok (j, rest)

section

variable {item : List Char → Except ReadError (Json × List Char)} {steps : Nat}
  {text rest : List Char}

/-- The first item of an array is read where it stands. Its text begins with a character that ends
no array, so the reader does not take it for the closing bracket. -/
theorem readItems_first (hopens : Opens text) (hread : item (text ++ rest) = .ok (j, rest))
    (before : List Json) :
    readItems item (steps + 1) true before (text ++ rest) =
      readItems item steps false (j :: before) rest := by
  have hspace := hopens.skipSpace_append rest
  obtain ⟨c, text, rfl, hc⟩ := hopens
  rw [List.cons_append] at hspace hread ⊢
  rw [readItems, hspace]
  -- The text begins with a character that ends no array, so the reader goes on to the item.
  split
  · next heq => exact absurd heq (List.cons_ne_nil _ _)
  · next heq =>
    injection heq with heq
    simp [heq] at hc
  · next heq =>
    injection heq with hhead htail
    subst hhead htail
    simp only [if_true, pure_bind, hread]
    rfl

/-- A further item of an array is read behind a comma, where again a character stands that ends no
array. Only the number of steps that are left goes down. -/
theorem readItems_next (hopens : Opens text) (hread : item (text ++ rest) = .ok (j, rest))
    (before : List Json) :
    readItems item (steps + 1) false before (',' :: (text ++ rest)) =
      readItems item steps false (j :: before) rest := by
  have hspace := hopens.skipSpace_append rest
  have hcomma : skipSpace (',' :: (text ++ rest)) = ',' :: (text ++ rest) := rfl
  obtain ⟨c, text, rfl, hc⟩ := hopens
  rw [List.cons_append] at hspace hread hcomma ⊢
  rw [readItems, hcomma]
  simp only [Char.reduceEq, imp_self, Bool.false_eq_true, if_false, ne_eq, not_true_eq_false,
    hspace, pure_bind]
  -- Behind the comma again stands a character that ends no array.
  split
  · next heq => exact absurd heq (List.cons_ne_nil _ _)
  · next heq =>
    injection heq with heq
    simp [heq] at hc
  · rw [hread]
    rfl

/-- Further items of an array are read back up to its closing bracket, in their order, if each of
them is read back from its own text in front of whatever follows it. -/
theorem readItems_moreItems {items : List Json} (hopens : ∀ j ∈ items, Opens (chars j))
    (hitem : ∀ j ∈ items, ReadsBack item j) (hsteps : items.length < steps) (before : List Json) :
    readItems item steps false before (moreItems items ++ ']' :: rest) =
      .ok (before.reverse ++ items, rest) := by
  -- The items are read from left to right; what was read before is kept in reverse.
  induction items generalizing steps before with
  | nil =>
    obtain ⟨steps, rfl⟩ := Nat.exists_eq_add_one_of_ne_zero (Nat.ne_zero_of_lt hsteps)
    rw [List.append_nil]
    rfl
  | cons j items ih =>
    obtain ⟨steps, rfl⟩ := Nat.exists_eq_add_one_of_ne_zero (Nat.ne_zero_of_lt hsteps)
    have hread := hitem j List.mem_cons_self (moreItems items ++ ']' :: rest)
    have hmore := ih (fun i hi => hopens i (List.mem_cons_of_mem _ hi))
      (fun i hi => hitem i (List.mem_cons_of_mem _ hi)) (Nat.lt_of_succ_lt_succ hsteps)
        (j :: before)
    have htext : moreItems (j :: items) ++ ']' :: rest =
        ',' :: (chars j ++ (moreItems items ++ ']' :: rest)) := by simp [moreItems]
    rw [htext, readItems_next (hopens j List.mem_cons_self) hread, hmore, List.reverse_cons,
      List.append_assoc, List.singleton_append]

/-- The items of an array are read back up to its closing bracket. -/
theorem readItems_chars {items : List Json} (rest : List Char)
    (hopens : ∀ j ∈ items, Opens (chars j)) (hitem : ∀ j ∈ items, ReadsBack item j)
    (hsteps : items.length < steps) :
    ∃ text, chars (.array items) = '[' :: text ∧
      readItems item steps true [] (text ++ rest) = .ok (items, rest) := by
  obtain ⟨steps, rfl⟩ := Nat.exists_eq_add_one_of_ne_zero (Nat.ne_zero_of_lt hsteps)
  cases items with
  | nil => exact ⟨[']'], chars_array_nil, rfl⟩
  | cons j items =>
    refine ⟨_, chars_array_cons j items, ?_⟩
    have hread := hitem j List.mem_cons_self (moreItems items ++ ']' :: rest)
    -- The first item has no comma in front of it, so it is read by itself and the others behind it.
    have htext : chars j ++ moreItems items ++ [']'] ++ rest =
        chars j ++ (moreItems items ++ ']' :: rest) := by simp
    rw [htext, readItems_first (hopens j List.mem_cons_self) hread,
      readItems_moreItems (fun i hi => hopens i (List.mem_cons_of_mem _ hi))
        (fun i hi => hitem i (List.mem_cons_of_mem _ hi)) (Nat.lt_of_succ_lt_succ hsteps)]
    rfl

/-! ### Fields -/

/-- The name of the first field of an object is read where it stands. -/
theorem readNextName_first (name : String) :
    readNextName true (stringChars name ++ rest) = .ok (some name, rest) := by
  have hspace := (opens_stringChars name).skipSpace_append rest
  have hread := readString_stringText name rest
  rw [stringChars_eq, List.cons_append, List.append_assoc, List.singleton_append] at hspace ⊢
  unfold readNextName
  simp only [hspace, Char.reduceEq, imp_self, if_true, pure_bind, hread]
  rfl

/-- The name of a further field is read behind a comma. -/
theorem readNextName_next (name : String) :
    readNextName false (',' :: (stringChars name ++ rest)) = .ok (some name, rest) := by
  have hspace := (opens_stringChars name).skipSpace_append rest
  have hread := readString_stringText name rest
  have hcomma : skipSpace (',' :: (stringChars name ++ rest)) = ',' :: (stringChars name ++ rest) :=
    rfl
  rw [stringChars_eq, List.cons_append, List.append_assoc, List.singleton_append] at hspace hcomma ⊢
  unfold readNextName
  simp only [hcomma, Char.reduceEq, imp_self, Bool.false_eq_true, if_false, if_true, hspace,
    pure_bind, hread]
  rfl

/-- A field of an object is read once its name has been. -/
theorem readFields_step {first : Bool} {name : String} {more : List Char}
    (hname : readNextName first text = .ok (some name, ':' :: more))
    (hread : item more = .ok (j, rest)) (before : List (String × Json)) :
    readFields item (steps + 1) first before text =
      readFields item steps false ((name, j) :: before) rest := by
  have hcolon : readColon (':' :: more) = .ok more := rfl
  rw [readFields, hname]
  simp only [bind, Except.bind, hcolon, hread]

/-- Further fields of an object are read back up to its closing brace. -/
theorem readFields_moreFields {fields : List (String × Json)}
    (hitem : ∀ f ∈ fields, ReadsBack item f.2) (hsteps : fields.length < steps)
    (before : List (String × Json)) :
    readFields item steps false before (moreFields fields ++ '\x7d' :: rest) =
      .ok (before.reverse ++ fields, rest) := by
  -- As for the items of an array, with a name in front of each value.
  induction fields generalizing steps before with
  | nil =>
    obtain ⟨steps, rfl⟩ := Nat.exists_eq_add_one_of_ne_zero (Nat.ne_zero_of_lt hsteps)
    rw [List.append_nil]
    rfl
  | cons f fields ih =>
    obtain ⟨steps, rfl⟩ := Nat.exists_eq_add_one_of_ne_zero (Nat.ne_zero_of_lt hsteps)
    have hread := hitem f List.mem_cons_self (moreFields fields ++ '\x7d' :: rest)
    have hmore := ih (fun g hg => hitem g (List.mem_cons_of_mem _ hg))
      (Nat.lt_of_succ_lt_succ hsteps) (f :: before)
    rw [moreFields_cons, readFields_step (readNextName_next f.1) hread, hmore, List.reverse_cons,
      List.append_assoc, List.singleton_append]

/-- The fields of an object are read back up to its closing brace. -/
theorem readFields_chars {fields : List (String × Json)} (rest : List Char)
    (hitem : ∀ f ∈ fields, ReadsBack item f.2) (hsteps : fields.length < steps) :
    ∃ text, chars (.object fields) = '\x7b' :: text ∧
      readFields item steps true [] (text ++ rest) = .ok (fields, rest) := by
  obtain ⟨steps, rfl⟩ := Nat.exists_eq_add_one_of_ne_zero (Nat.ne_zero_of_lt hsteps)
  cases fields with
  | nil => exact ⟨['\x7d'], chars_object_nil, rfl⟩
  | cons f fields =>
    refine ⟨_, chars_object_cons f fields, ?_⟩
    have hread := hitem f List.mem_cons_self (moreFields fields ++ '\x7d' :: rest)
    have htext : fieldChars f ++ moreFields fields ++ ['\x7d'] ++ rest =
        stringChars f.1 ++ ':' :: (chars f.2 ++ (moreFields fields ++ '\x7d' :: rest)) := by
      simp [fieldChars]
    rw [htext, readFields_step (readNextName_first f.1) hread,
      readFields_moreFields (fun g hg => hitem g (List.mem_cons_of_mem _ hg))
        (Nat.lt_of_succ_lt_succ hsteps)]
    rfl

end

/-! ### Values inside others -/

/-- A list that is printed with a comma in front of each member is no shorter than its number of
members, and than each of them. -/
theorem length_le_flatMap_comma {α : Type} (g : α → List Char) (l : List α) :
    l.length ≤ (l.flatMap fun a => ',' :: g a).length ∧
      ∀ a ∈ l, (g a).length ≤ (l.flatMap fun a => ',' :: g a).length := by
  induction l with
  | nil => exact ⟨Nat.le_refl 0, List.forall_mem_nil _⟩
  | cons a l ih =>
    obtain ⟨hlength, hmem⟩ := ih
    simp only [List.flatMap_cons, List.length_append, List.length_cons]
    refine ⟨by omega, fun b hb => ?_⟩
    rcases List.mem_cons.1 hb with rfl | hb
    · omega
    · have hle := hmem b hb
      omega

/-- A printed array is longer than its number of items, and no shorter than each of them. -/
theorem length_chars_array (items : List Json) :
    items.length < (chars (.array items)).length ∧
      ∀ j ∈ items, (chars j).length ≤ (chars (.array items)).length := by
  cases items with
  | nil => exact ⟨by decide, List.forall_mem_nil _⟩
  | cons j items =>
    obtain ⟨hlength, hmem⟩ := length_le_flatMap_comma chars items
    -- The brackets make up for the comma that the first item lacks.
    rw [chars_array_cons]
    unfold moreItems
    simp only [List.length_cons, List.length_append]
    refine ⟨by omega, fun i hi => ?_⟩
    rcases List.mem_cons.1 hi with rfl | hi
    · omega
    · have hle := hmem i hi
      omega

/-- A printed object is longer than its number of fields, and no shorter than each of their
values. -/
theorem length_chars_object (fields : List (String × Json)) :
    fields.length < (chars (.object fields)).length ∧
      ∀ f ∈ fields, (chars f.2).length ≤ (chars (.object fields)).length := by
  have hvalue : ∀ f : String × Json, (chars f.2).length ≤ (fieldChars f).length := by
    intro f
    unfold fieldChars
    rw [List.length_append, List.length_cons]
    omega
  cases fields with
  | nil => exact ⟨by decide, List.forall_mem_nil _⟩
  | cons f fields =>
    -- Fields are joined by commas, each of which takes one character.
    obtain ⟨hlength, hmem⟩ := length_le_flatMap_comma fieldChars fields
    rw [chars_object_cons]
    unfold moreFields
    simp only [List.length_cons, List.length_append]
    refine ⟨by omega, fun g hg => ?_⟩
    have hg' := hvalue g
    rcases List.mem_cons.1 hg with rfl | hg
    · omega
    · have hle := hmem g hg
      omega

/-- Reading the text of a value gives the value, by induction on how values are nested. -/
theorem Plain.readsBack (h : Plain depth j) {limit : Nat} (hlimit : (chars j).length ≤ limit) :
    ReadsBack (readValue limit depth) j := by
  -- By induction on the value: the text of an item is no longer than the whole, so the limit is
  -- enough for it.
  induction h with
  | null =>
    intro rest
    show readValue limit _ ('n' :: 'u' :: 'l' :: 'l' :: rest) = _
    rw [readValue]
    rfl
  | bool b =>
    intro rest
    cases b with
    | true =>
      show readValue limit _ ('t' :: 'r' :: 'u' :: 'e' :: rest) = _
      rw [readValue]
      rfl
    | false =>
      show readValue limit _ ('f' :: 'a' :: 'l' :: 's' :: 'e' :: rest) = _
      rw [readValue]
      rfl
  | string s =>
    intro rest
    rw [chars_string, stringChars_eq, List.cons_append, List.append_assoc, List.singleton_append,
      readValue]
    show (readString [] _ >>= _) = _
    rw [readString_stringText]
    rfl
  | array hitems ih =>
    intro rest
    obtain ⟨hlength, hmem⟩ := length_chars_array _
    obtain ⟨text, hchars, hread⟩ := readItems_chars rest (fun j hj => (hitems j hj).opens)
      (fun j hj => ih j hj (Nat.le_trans (hmem j hj) hlimit)) (Nat.lt_of_lt_of_le hlength hlimit)
    rw [hchars, List.cons_append, readValue]
    show (readItems _ _ _ _ _ >>= _) = _
    rw [hread]
    rfl
  | object hfields ih =>
    intro rest
    obtain ⟨hlength, hmem⟩ := length_chars_object _
    obtain ⟨text, hchars, hread⟩ := readFields_chars rest
      (fun f hf => ih f hf (Nat.le_trans (hmem f hf) hlimit)) (Nat.lt_of_lt_of_le hlength hlimit)
    rw [hchars, List.cons_append, readValue]
    show (readFields _ _ _ _ _ >>= _) = _
    rw [hread]
    rfl

end MachineLang.Json
