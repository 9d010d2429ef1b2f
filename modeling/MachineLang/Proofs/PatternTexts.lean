import MachineLang.Proofs.Blanks

/-!
# The texts of patterns

A pattern is matched by derivatives: what may follow a character in its texts is described by
`Pattern.after` (`Pattern.matches_cons_iff`). So `Pattern.munch` reaches exactly as far as the
longest described text that stands at the beginning: no such text is longer (`Pattern.le_munch`),
and what is reached is the end of one (`Pattern.exists_of_munch_pos`).
-/

namespace MachineLang.Pattern

variable {p q : Pattern} {c : Char} {text v : List Char} {s : CharSet} {read best : Nat}

/-! ## Texts by their parts -/

/-- A text of a sequence consists of two texts. -/
theorem matches_seq_iff :
    Matches (seq p q) text ↔ ∃ t t', text = t ++ t' ∧ Matches p t ∧ Matches q t' := by
  constructor
  · intro h
    cases h with
    | seq hp hq => exact ⟨_, _, rfl, hp, hq⟩
  · rintro ⟨t, t', rfl, hp, hq⟩
    exact .seq hp hq

/-- A text of a choice is one of either pattern. -/
theorem matches_alt_iff : Matches (alt p q) text ↔ Matches p text ∨ Matches q text := by
  constructor
  · intro h
    cases h with
    | left h => exact .inl h
    | right h => exact .inr h
  · rintro (h | h)
    · exact .left h
    · exact .right h

/-- The texts of a set are its characters. -/
theorem matches_set_iff : Matches (set s) text ↔ ∃ c, s.contains c = true ∧ text = [c] := by
  constructor
  · intro h
    cases h with
    | set h => exact ⟨_, h, rfl⟩
  · rintro ⟨c, h, rfl⟩
    exact .set h

/-- There is no text without patterns. -/
theorem not_matches_void : ¬ Matches void text := fun h => nomatch h

/-- The empty pattern has the empty text. -/
theorem matches_empty_iff : Matches empty text ↔ text = [] := by
  constructor
  · intro h
    cases h
    rfl
  · rintro rfl
    exact .empty

/-- A sequence of a character and a pattern. -/
theorem matches_char_seq_iff {d : Char} :
    Matches (seq (char d) q) text ↔ ∃ t, text = d :: t ∧ Matches q t := by
  rw [matches_seq_iff]
  constructor
  · rintro ⟨_, t, rfl, hd, hq⟩
    obtain ⟨c, hc, rfl⟩ := matches_set_iff.1 hd
    obtain rfl : d = c := beq_iff_eq.1 hc
    exact ⟨t, rfl, hq⟩
  · rintro ⟨t, rfl, hq⟩
    exact ⟨[d], t, rfl, .set (beq_self_eq_true d), hq⟩

/-- One or more texts are one and a run. -/
theorem matches_plus_iff :
    Matches (plus p) text ↔ ∃ t t', text = t ++ t' ∧ Matches p t ∧ Matches (star p) t' := by
  constructor
  · intro h
    cases h with
    | plus hp hothers => exact ⟨_, _, rfl, hp, hothers⟩
  · rintro ⟨t, t', rfl, hp, hothers⟩
    exact .plus hp hothers

/-- A run that does not end begins with a text that is not empty. -/
theorem exists_of_star (h : Matches (star p) (c :: text)) :
    ∃ t t', text = t ++ t' ∧ Matches p (c :: t) ∧ Matches (star p) t' := by
  generalize hp : star p = r at h
  generalize htext : c :: text = whole at h
  induction h with
  | @more p' first others hfirst hothers _ ih =>
    cases hp
    -- A part that is empty is left out, so the first part that is not begins with the first
    -- character.
    cases first with
    | nil => exact ih rfl htext
    | cons d first =>
      cases htext
      exact ⟨first, others, rfl, hfirst, hothers⟩
  | done => exact absurd htext (List.cons_ne_nil c text)
  | _ => cases hp

/-- A run over a set is a text of its characters, of any length: the pattern for spacing, for words
and for comments is made of such runs. -/
theorem matches_star_set_iff : Matches (star (set s)) text ↔ ∀ c ∈ text, s.contains c = true := by
  induction text with
  | nil => exact ⟨fun _ => List.forall_mem_nil _, fun _ => .done⟩
  | cons c text ih =>
    rw [List.forall_mem_cons, ← ih]
    constructor
    · -- The first part of the run over a set is a single character.
      intro h
      obtain ⟨t, t', rfl, hc, hothers⟩ := exists_of_star h
      obtain ⟨_, hset, heq⟩ := matches_set_iff.1 hc
      cases heq
      exact ⟨hset, hothers⟩
    · rintro ⟨hc, hothers⟩
      exact .more (.set hc) hothers

/-! ## Derivatives -/

/-- The empty text is described by a pattern where the pattern is said to be nullable. A repetition
is so if it may be made no times, or if what is repeated is. -/
theorem matches_nil_iff : Matches p [] ↔ p.nullable = true := by
  induction p with
  | void => exact iff_of_false not_matches_void Bool.false_ne_true
  | empty => exact iff_of_true .empty rfl
  | set s =>
    refine iff_of_false (fun h => ?_) Bool.false_ne_true
    obtain ⟨_, -, heq⟩ := matches_set_iff.1 h
    cases heq
  | seq p q ihp ihq =>
    rw [nullable, Bool.and_eq_true, ← ihp, ← ihq, matches_seq_iff]
    constructor
    · rintro ⟨t, t', heq, hp, hq⟩
      obtain ⟨rfl, rfl⟩ := List.append_eq_nil_iff.1 heq.symm
      exact ⟨hp, hq⟩
    · rintro ⟨hp, hq⟩
      exact ⟨[], [], rfl, hp, hq⟩
  | alt p q ihp ihq => rw [nullable, Bool.or_eq_true, ← ihp, ← ihq, matches_alt_iff]
  | star p => exact iff_of_true .done rfl
  -- A repetition of at least one time is empty if that time is.
  | plus p ih =>
    rw [nullable, ← ih]
    constructor
    · intro h
      obtain ⟨t, t', heq, hp, -⟩ := matches_plus_iff.1 h
      obtain ⟨rfl, rfl⟩ := List.append_eq_nil_iff.1 heq.symm
      exact hp
    · exact fun h => .plus h .done

/-- The simplified sequence has the texts of the sequence. It only leaves out parts that describe
nothing, or nothing but the empty text. -/
theorem matches_sequence_iff : Matches (sequence p q) text ↔ Matches (seq p q) text := by
  rw [matches_seq_iff]
  unfold sequence
  split
  · exact iff_of_false not_matches_void fun ⟨_, _, _, h, _⟩ => not_matches_void h
  · exact iff_of_false not_matches_void fun ⟨_, _, _, _, h⟩ => not_matches_void h
  · constructor
    · exact fun h => ⟨[], text, rfl, .empty, h⟩
    · rintro ⟨_, _, rfl, hempty, h⟩
      rw [matches_empty_iff.1 hempty]
      exact h
  · exact matches_seq_iff

/-- The simplified choice has the texts of the choice. -/
theorem matches_choice_iff : Matches (choice p q) text ↔ Matches p text ∨ Matches q text := by
  unfold choice
  split
  · exact (or_iff_right not_matches_void).symm
  · exact (or_iff_left not_matches_void).symm
  · exact matches_alt_iff

/-- A text of a sequence takes its first character from the first pattern, or that one has the empty
text. -/
theorem matches_cons_seq_iff : Matches (seq p q) (c :: text) ↔
    (∃ t t', text = t ++ t' ∧ Matches p (c :: t) ∧ Matches q t') ∨ Matches p [] ∧
      Matches q (c :: text) := by
  rw [matches_seq_iff]
  constructor
  · rintro ⟨_ | ⟨d, t⟩, t', heq, hp, hq⟩
    · obtain rfl : c :: text = t' := heq
      exact .inr ⟨hp, hq⟩
    · cases heq
      exact .inl ⟨t, t', rfl, hp, hq⟩
  · rintro (⟨t, t', rfl, hp, hq⟩ | ⟨hp, hq⟩)
    · exact ⟨c :: t, t', rfl, hp, hq⟩
    · exact ⟨[], c :: text, rfl, hp, hq⟩

/-- A run takes its first character from a text that is not empty. -/
theorem matches_cons_star_iff : Matches (star p) (c :: text) ↔
    ∃ t t', text = t ++ t' ∧ Matches p (c :: t) ∧ Matches (star p) t' := by
  constructor
  · exact exists_of_star
  · rintro ⟨t, t', rfl, hp, hothers⟩
    exact .more hp hothers

/-- One or more texts take their first character from one that is not empty. -/
theorem matches_cons_plus_iff : Matches (plus p) (c :: text) ↔
    ∃ t t', text = t ++ t' ∧ Matches p (c :: t) ∧ Matches (star p) t' := by
  rw [matches_plus_iff, ← matches_seq_iff, matches_cons_seq_iff]
  refine or_iff_left_of_imp fun h => ?_
  exact exists_of_star h.2

/-- The texts that a pattern goes on with behind a character are described by its derivative. So a
text is matched by taking one derivative for each character. -/
theorem matches_cons_iff : Matches p (c :: text) ↔ Matches (p.after c) text := by
  -- A first part that is not empty begins with the character.
  have hfirst : ∀ {p q : Pattern}, (∀ text, Matches p (c :: text) ↔ Matches (p.after c) text) →
      ∀ text, (∃ t t', text = t ++ t' ∧ Matches p (c :: t) ∧ Matches q t') ↔
        Matches (sequence (p.after c) q) text := by
    intro p q ih text
    rw [matches_sequence_iff, matches_seq_iff]
    exact exists_congr fun t => exists_congr fun t' => and_congr_right fun _ =>
      and_congr_left fun _ => ih t
  induction p generalizing text with
  | void => exact iff_of_false not_matches_void not_matches_void
  | empty => exact iff_of_false (fun h => nomatch matches_empty_iff.1 h) not_matches_void
  | set s =>
    rw [matches_set_iff, after]
    split_ifs with hc
    · rw [matches_empty_iff]
      constructor
      · rintro ⟨_, -, heq⟩
        exact (List.cons.inj heq).2
      · rintro rfl
        exact ⟨c, hc, rfl⟩
    · refine iff_of_false ?_ not_matches_void
      rintro ⟨d, hd, heq⟩
      exact hc ((List.cons.inj heq).1 ▸ hd)
  | seq p q ihp ihq =>
    rw [matches_cons_seq_iff, hfirst (fun _ => ihp), iff_iff_eq.1 (@ihq text),
      matches_nil_iff, after]
    split_ifs with hnullable
    · rw [matches_choice_iff]
      exact or_congr_right (and_iff_right hnullable)
    · exact or_iff_left fun h => hnullable h.1
  | alt p q ihp ihq =>
    rw [matches_alt_iff, after, matches_choice_iff, iff_iff_eq.1 (@ihp text),
      iff_iff_eq.1 (@ihq text)]
  | star p ih => rw [after, ← hfirst (fun _ => ih), matches_cons_star_iff]
  | plus p ih => rw [after, ← hfirst (fun _ => ih), matches_cons_plus_iff]

/-! ## How far a pattern reaches -/

/-- Where a described text stands at the beginning, the search reaches at least to its end: no
derivative on the way is void, so the search does not stop before. -/
theorem le_munchFrom_of_matches (h : Matches p v) (hfront : v <+: text) (hbest : best ≤ read) :
    read + v.length ≤ p.munchFrom read best text := by
  -- By induction on the text that is described, with what is left of the pattern behind each
  -- character.
  induction v generalizing p text read best with
  | nil =>
    have hnullable := matches_nil_iff.1 h
    cases text with
    | nil => exact Nat.le_of_eq (if_pos hnullable).symm
    | cons c cs =>
      rw [munchFrom, if_pos hnullable]
      split_ifs
      · exact Nat.le_refl _
      · exact le_munchFrom (Nat.le_succ read) cs
  | cons c v ih =>
    obtain ⟨rest, rfl⟩ := hfront
    have hafter := matches_cons_iff.1 h
    rw [List.cons_append, munchFrom]
    -- A pattern that describes a text is not the void one, so the search goes on.
    have hvoid : ¬ p.isVoid = true := by
      intro hvoid
      cases p with
      | void => exact not_matches_void h
      | _ => exact absurd hvoid Bool.false_ne_true
    rw [if_neg hvoid, List.length_cons, ← Nat.add_assoc, Nat.add_right_comm]
    refine ih hafter (List.prefix_append v rest) ?_
    split_ifs <;> omega

/-- No described text at the beginning is longer than what is reached. -/
theorem le_munch (h : Matches p v) (hfront : v <+: text) : v.length ≤ p.munch text :=
  Nat.le_trans (Nat.le_add_left _ 0) (le_munchFrom_of_matches h hfront (Nat.le_refl 0))

/-- Where the search reaches further than before, a text that the pattern describes ends there.
Together with the bound from below, it finds the longest one. -/
theorem exists_of_munchFrom_ne (h : p.munchFrom read best text ≠ best) :
    ∃ v, v <+: text ∧ Matches p v ∧ p.munchFrom read best text = read + v.length := by
  -- Nothing longer is found than the empty text, or a text that begins with the next character.
  have hempty : ∀ {p : Pattern} {read best : Nat} {text : List Char},
      (if p.nullable then read else best) ≠ best →
      ∃ v, v <+: text ∧ Matches p v ∧ (if p.nullable then read else best) = read + v.length := by
    intro p read best text h
    cases hnullable : p.nullable with
    | true => exact ⟨[], List.nil_prefix, matches_nil_iff.2 hnullable, if_pos rfl⟩
    | false =>
      rw [hnullable] at h
      exact absurd rfl h
  induction text generalizing p read best with
  | nil => exact hempty h
  | cons c cs ih =>
    rw [munchFrom] at h ⊢
    generalize hbest : (if p.nullable then read else best) = best' at h ⊢
    by_cases hvoid : p.isVoid = true
    · rw [if_pos hvoid] at h ⊢
      exact hbest ▸ hempty (hbest ▸ h)
    · rw [if_neg hvoid] at h ⊢
      by_cases hlonger : (p.after c).munchFrom (read + 1) best' cs = best'
      · rw [hlonger] at h ⊢
        exact hbest ▸ hempty (hbest ▸ h)
      · obtain ⟨v, ⟨rest, rfl⟩, hv, heq⟩ := ih hlonger
        refine ⟨c :: v, List.prefix_append (c :: v) rest, matches_cons_iff.2 hv, ?_⟩
        rw [heq, List.length_cons]
        omega

/-- What is reached is the end of a described text. -/
theorem exists_of_munch_pos (h : 0 < p.munch text) :
    ∃ v, v <+: text ∧ Matches p v ∧ p.munch text = v.length := by
  obtain ⟨v, hfront, hv, hlength⟩ := exists_of_munchFrom_ne (Nat.ne_of_gt h)
  exact ⟨v, hfront, hv, hlength.trans (Nat.zero_add _)⟩

end MachineLang.Pattern
