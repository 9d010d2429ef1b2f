import MachineLang.Proofs.Blanks

/-!
# Where lexemes end

A lexeme is decided by the text up to where the rules in force stop matching. So what stands behind
that place may be exchanged for anything that lets no rule match further (`Lexes.change_tail`). No
rule but the one for the end of a line matches a text with a line end in it, so a text is cut into
the same lexemes whether it ends or is followed by a line end (`Lexes.newline_iff`).
-/

namespace MachineLang

variable {modes : List LexMode} {kind : TokenKind} {value text rest : List Char}

namespace Pattern

variable {p q : Pattern} {read best : Nat} {c : Char}

/-! ## The text that is matched -/

/-- Reading on either finds nothing more or gets further. -/
theorem munchFrom_eq_or_lt (p : Pattern) (read best : Nat) (text : List Char) :
    p.munchFrom read best text = (if p.nullable then read else best) ∨
      read < p.munchFrom read best text := by
  induction text generalizing p read best with
  | nil => exact .inl rfl
  | cons c cs ih =>
    rw [munchFrom]
    generalize (if p.nullable then read else best) = best'
    split_ifs
    · exact .inl rfl
    · -- One character further the match may end where it began, which is already behind this place.
      rcases ih (p.after c) (read + 1) best' with heq | hlt
      · rw [heq]
        split_ifs
        · exact .inr (Nat.lt_succ_self read)
        · exact .inl rfl
      · exact .inr (Nat.lt_of_succ_lt hlt)

/-- What stands behind the match does not matter. -/
theorem munchFrom_append_of_le (h : p.munchFrom read best (text ++ rest) ≤ read + text.length) :
    p.munchFrom read best (text ++ rest) = p.munchFrom read best text := by
  induction text generalizing p read best with
  | nil =>
    -- A match that found something in the rest would be longer than what is allowed.
    refine (munchFrom_eq_or_lt p read best rest).resolve_right fun hlt => ?_
    exact absurd (Nat.lt_of_lt_of_le hlt h) (Nat.lt_irrefl _)
  | cons c cs ih =>
    rw [List.cons_append, munchFrom] at h ⊢
    rw [munchFrom]
    generalize (if p.nullable then read else best) = best' at h ⊢
    split_ifs at h ⊢
    · rfl
    · refine ih (Nat.le_trans h ?_)
      rw [List.length_cons]
      omega

/-- A match reaches no further than the text: it ends where reading has got to, or where an earlier
match ended, and reading takes one character at a time. -/
theorem munchFrom_le (h : best ≤ read) : p.munchFrom read best text ≤ read + text.length := by
  induction text generalizing p read best with
  | nil =>
    show (if p.nullable then read else best) ≤ read
    split_ifs
    · exact Nat.le_refl read
    · exact h
  | cons c cs ih =>
    -- The invariant of the loop: the best match so far ends where reading has got to, or before.
    have hbest : (if p.nullable then read else best) ≤ read := by
      split_ifs
      · exact Nat.le_refl read
      · exact h
    rw [munchFrom, List.length_cons]
    generalize (if p.nullable then read else best) = best' at hbest ⊢
    split_ifs
    · exact Nat.le_trans hbest (Nat.le_add_right _ _)
    · refine Nat.le_trans (ih (Nat.le_succ_of_le hbest)) ?_
      omega

/-- A pattern matches no more than the text. -/
theorem munch_le_length (p : Pattern) (text : List Char) : p.munch text ≤ text.length :=
  Nat.le_trans (munchFrom_le (Nat.le_refl 0)) (Nat.le_of_eq (Nat.zero_add _))

/-! ## Characters that are not matched -/

/-- Whether the character stands in no text of the pattern. -/
def avoids (c : Char) : Pattern → Bool
  | void => true
  | empty => true
  | set s => !s.contains c
  | seq p q => p.avoids c && q.avoids c
  | alt p q => p.avoids c && q.avoids c
  | star p => p.avoids c
  | plus p => p.avoids c

/-- Nothing follows a character that stands in no text of a pattern: what is left of the pattern
behind it is the one that matches nothing. -/
theorem after_of_avoids (h : p.avoids c = true) : p.after c = void := by
  induction p with
  | void => rfl
  | empty => rfl
  | set s =>
    rw [after, if_neg]
    simpa [avoids] using h
  -- Whether the first part may be empty or not, neither of the two goes on.
  | seq p q ihp ihq =>
    obtain ⟨hp, hq⟩ := Bool.and_eq_true_iff.1 h
    rw [after, ihp hp, ihq hq]
    split_ifs <;> rfl
  | alt p q ihp ihq =>
    obtain ⟨hp, hq⟩ := Bool.and_eq_true_iff.1 h
    rw [after, ihp hp, ihq hq]
    rfl
  | star p ih =>
    rw [after, ih h]
    rfl
  | plus p ih =>
    rw [after, ih h]
    rfl

/-- A sequence avoids what its parts avoid. -/
theorem avoids_sequence (hp : p.avoids c = true) (hq : q.avoids c = true) :
    (sequence p q).avoids c = true := by
  unfold sequence
  split
  · rfl
  · rfl
  · exact hq
  · rw [avoids, hp, hq, Bool.and_self]

/-- A choice avoids what its branches avoid. -/
theorem avoids_choice (hp : p.avoids c = true) (hq : q.avoids c = true) :
    (choice p q).avoids c = true := by
  unfold choice
  split
  · exact hq
  · exact hp
  · rw [avoids, hp, hq, Bool.and_self]

/-- What follows in a text without the character is one without it. -/
theorem avoids_after (h : p.avoids c = true) (d : Char) : (p.after d).avoids c = true := by
  induction p with
  | void => rfl
  | empty => rfl
  | set s =>
    rw [after]
    split_ifs <;> rfl
  | seq p q ihp ihq =>
    obtain ⟨hp, hq⟩ := Bool.and_eq_true_iff.1 h
    rw [after]
    split_ifs
    · exact avoids_choice (avoids_sequence (ihp hp) hq) (ihq hq)
    · exact avoids_sequence (ihp hp) hq
  | alt p q ihp ihq =>
    obtain ⟨hp, hq⟩ := Bool.and_eq_true_iff.1 h
    exact avoids_choice (ihp hp) (ihq hq)
  | star p ih => exact avoids_sequence (ih h) h
  | plus p ih => exact avoids_sequence (ih h) h

/-- A match ends in front of a character that stands in no text. -/
theorem munchFrom_append_of_avoids (h : p.avoids c = true) :
    p.munchFrom read best (text ++ c :: rest) = p.munchFrom read best text := by
  induction text generalizing p read best with
  | nil =>
    rw [List.nil_append, munchFrom, munchFrom, after_of_avoids h, munchFrom_void]
    exact ite_self _
  | cons d ds ih =>
    rw [List.cons_append, munchFrom, munchFrom, ih (avoids_after h d)]

end Pattern

/-! ## Lexemes -/

/-- The longest match is decided by how far each rule matches. -/
theorem longestMatch_congr {rules : List Rule}
    (h : ∀ r ∈ rules, r.pattern.munch text = r.pattern.munch rest) :
    longestMatch rules text = longestMatch rules rest := by
  induction rules using List.reverseRecOn with
  | nil => rfl
  | append_singleton rules r ih =>
    rw [longestMatch_append_singleton, longestMatch_append_singleton,
      ih fun r hr => h r (List.mem_append_left _ hr),
        h r (List.mem_append_right _ List.mem_cons_self)]

namespace Lexes

/-- A lexeme is as long as the longest match, or a single character where there is none. -/
theorem longestMatch_eq (h : Lexes modes kind value rest) :
    (longestMatch (activeRules modes) (value ++ rest)).1 = kind ∧
      (if (longestMatch (activeRules modes) (value ++ rest)).2 = 0 then 1
        else (longestMatch (activeRules modes) (value ++ rest)).2) = value.length := by
  have hlex := h.lex_eq .start
  obtain ⟨c, cs, hvalue⟩ := List.exists_cons_of_ne_nil h.value_ne
  unfold Cursor.lex at hlex
  rw [hvalue, List.cons_append] at hlex ⊢
  dsimp only at hlex
  have hmax : (longestMatch (activeRules modes) (c :: (cs ++ rest))).2 ≤
      (c :: (cs ++ rest)).length :=
    longestMatch_le fun r _ => Pattern.munch_le_length r.pattern _
  generalize longestMatch (activeRules modes) (c :: (cs ++ rest)) = found at hlex hmax ⊢
  have hle : (if found.2 = 0 then 1 else found.2) ≤ (c :: (cs ++ rest)).length := by
    split_ifs
    · exact Nat.succ_le_of_lt (Nat.zero_lt_succ _)
    · exact hmax
  -- What was cut is as long as what is left of it is shorter, so the lengths decide.
  generalize (if found.2 = 0 then 1 else found.2) = n at hlex hle ⊢
  obtain ⟨htoken, hcursor⟩ := Prod.mk.inj hlex
  obtain ⟨hkind, -⟩ := Token.mk.inj htoken
  obtain ⟨-, hdrop⟩ := Cursor.mk.inj hcursor
  refine ⟨hkind, ?_⟩
  have hlength := congrArg List.length hdrop
  rw [List.length_drop] at hlength
  rw [List.length_cons, List.length_append] at hlength hle
  rw [List.length_cons]
  omega

/-- What is cut off is the lexeme that the longest match says. -/
theorem of_longestMatch_eq (hvalue : value ≠ []) (hkind : kind ≠ .endOfInput)
    (h : (longestMatch (activeRules modes) (value ++ rest)).1 = kind)
    (hlength : (if (longestMatch (activeRules modes) (value ++ rest)).2 = 0 then 1
      else (longestMatch (activeRules modes) (value ++ rest)).2) = value.length) :
    Lexes modes kind value rest := by
  refine ⟨hkind, hvalue, fun l => ?_⟩
  obtain ⟨c, cs, rfl⟩ := List.exists_cons_of_ne_nil hvalue
  unfold Cursor.lex
  dsimp only [List.cons_append] at h hlength ⊢
  rw [h, hlength, ← List.cons_append, List.take_left, List.drop_left]

/-- No rule in force matches more than the lexeme. -/
theorem munch_le (h : Lexes modes kind value rest) {r : Rule} (hr : r ∈ activeRules modes) :
    r.pattern.munch (value ++ rest) ≤ value.length := by
  have hle := munch_le_longestMatch hr (value ++ rest)
  obtain ⟨-, hlength⟩ := h.longestMatch_eq
  split_ifs at hlength
  · omega
  · omega

/-- What follows a lexeme may be exchanged from a place on behind which no rule matches. -/
theorem change_tail {tail : List Char} (h : Lexes modes kind value (text ++ rest))
    (htail : ∀ r ∈ activeRules modes,
      r.pattern.munch (value ++ (text ++ tail)) ≤ value.length + text.length) :
    Lexes modes kind value (text ++ tail) := by
  -- No rule looks beyond the place where the two tails begin, so each takes the same in front of
  -- both.
  have heq : ∀ r ∈ activeRules modes,
      r.pattern.munch (value ++ (text ++ tail)) = r.pattern.munch (value ++ (text ++ rest)) := by
    intro r hr
    have hle := htail r hr
    have hle' := Nat.le_trans (h.munch_le hr) (Nat.le_add_right _ text.length)
    rw [← List.append_assoc] at hle hle' ⊢
    rw [← List.append_assoc]
    unfold Pattern.munch at hle hle' ⊢
    rw [← List.length_append, ← Nat.zero_add (value ++ text).length] at hle hle'
    rw [Pattern.munchFrom_append_of_le hle, Pattern.munchFrom_append_of_le hle']
  obtain ⟨hkind, hlength⟩ := h.longestMatch_eq
  rw [← longestMatch_congr heq] at hkind hlength
  exact of_longestMatch_eq h.value_ne h.kind_ne hkind hlength

/-- Behind something, no rule matches beyond a line end. -/
theorem munch_append_newline {r : Rule} (hr : r ∈ activeRules modes) (htext : text ≠ []) :
    r.pattern.munch (text ++ '\n' :: rest) ≤ text.length := by
  have hmode : ∀ m : LexMode, ∀ r ∈ m.rules, r.pattern.avoids '\n' = true ∨
      r = .word .newline "\n" := by
    intro m
    cases m <;> decide
  obtain ⟨m, hm⟩ := exists_mem_rules hr
  rcases hmode m r hm with havoids | rfl
  · unfold Pattern.munch
    rw [Pattern.munchFrom_append_of_avoids havoids]
    exact r.pattern.munch_le_length text
  · -- The rule for line ends takes one character, and there is something in front of the line end.
    rw [Rule.munch_word]
    have hpos := List.length_pos_of_ne_nil htext
    split_ifs
    · exact hpos
    · exact Nat.zero_le _

/-- A text is cut into the same lexemes if it ends and if a line end follows. -/
theorem newline_iff :
    Lexes modes kind value (text ++ '\n' :: rest) ↔ Lexes modes kind value text := by
  constructor
  · intro h
    rw [← List.append_nil text]
    refine h.change_tail fun r _ => ?_
    rw [List.append_nil, ← List.length_append]
    exact r.pattern.munch_le_length _
  · intro h
    rw [← List.append_nil text] at h
    refine h.change_tail fun r hr => ?_
    rw [← List.append_assoc, ← List.length_append]
    exact munch_append_newline hr (List.append_ne_nil_of_left_ne_nil h.value_ne _)

end Lexes

end MachineLang
