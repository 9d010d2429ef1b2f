/-!
# Byte offsets into a text

Offsets count UTF-8 bytes, text is a list of characters. `splitAtByte?` cuts a text at an offset and
refuses an offset that lies past the end or inside a character.
-/

namespace MachineLang

/-- The number of UTF-8 bytes of a text. -/
def byteLength : List Char → Nat
  | [] => 0
  | c :: cs => c.utf8Size + byteLength cs

/-- Cuts a text after `n` bytes, if a character ends there. -/
def splitAtByte? : Nat → List Char → Option (List Char × List Char)
  | 0, text => some ([], text)
  | _ + 1, [] => none
  | n + 1, c :: cs =>
    if n + 1 < c.utf8Size then none
    else (splitAtByte? (n + 1 - c.utf8Size) cs).map fun (before, after) => (c :: before, after)

/-- The text from an offset on; nothing, if no character begins there. -/
def textFrom (offset : Nat) (text : List Char) : List Char :=
  match splitAtByte? offset text with
  | some (_, after) => after
  | none => []

@[simp] theorem byteLength_nil : byteLength [] = 0 := rfl

@[simp] theorem byteLength_cons (c : Char) (cs : List Char) :
    byteLength (c :: cs) = c.utf8Size + byteLength cs := rfl

@[simp] theorem byteLength_append (s t : List Char) :
    byteLength (s ++ t) = byteLength s + byteLength t := by
  induction s with
  | nil => simp
  | cons c cs ih => simp [ih, Nat.add_assoc]

/-- The two parts of a cut text make up the text, and the first has the wanted length. -/
theorem splitAtByte?_eq_some {n : Nat} {text before after : List Char}
    (h : splitAtByte? n text = some (before, after)) :
    text = before ++ after ∧ byteLength before = n := by
  fun_induction splitAtByte? n text generalizing before after with
  | case1 text => simp_all
  | case2 => simp at h
  | case3 n c cs hlt => simp at h
  | case4 n c cs hlt ih =>
    obtain ⟨⟨b, a⟩, hba, heq⟩ := Option.map_eq_some_iff.1 h
    obtain ⟨rfl, rfl⟩ := Prod.mk.inj heq
    obtain ⟨ht, hb⟩ := ih hba
    exact ⟨by simp [ht], by simp only [byteLength_cons, hb]; omega⟩

end MachineLang
