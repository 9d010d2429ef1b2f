import MachineLang.Proofs.PatternTexts

/-!
# Patterns by trial

A matcher that backtracks tries the branches of a choice in order and repeats as often as it can,
and takes the first text that it finds (`Pattern.found?`). It finds all described texts in the end
(`Pattern.mem_tries_iff`), but the first one need not be the longest. For the rules of the lexer it
is, as they leave little choice: all but the number of repetitions is settled by the next character,
and the longer repetition comes first (`LexMode.longestFirst_of_mem`).
-/

namespace MachineLang

/-- What is left of a text behind some rounds of a step, in the order in which they are tried: one
more round comes before none, and a round that takes nothing is not tried again. -/
def repeatedly (step : List Char → List (List Char)) (text : List Char) : List (List Char) :=
  ((step text).flatMap fun rest => if _h : rest.length < text.length then repeatedly step rest
    else []) ++ [text]
termination_by text.length

namespace Pattern

/-- What is left of a text behind the described texts at its beginning, in the order in which they
are tried. -/
def tries : Pattern → List Char → List (List Char)
  | void, _ => []
  | empty, text => [text]
  | set _, [] => []
  | set s, c :: cs => if s.contains c then [cs] else []
  | seq p q, text => (p.tries text).flatMap q.tries
  | alt p q, text => p.tries text ++ q.tries text
  | star p, text => repeatedly p.tries text
  | plus p, text => (p.tries text).flatMap (repeatedly p.tries)

/-- The first text at the beginning that is found by trial. -/
def found? (p : Pattern) (text : List Char) : Option (List Char) :=
  (p.tries text).head?.map fun rest => text.take (text.length - rest.length)

variable {p q : Pattern} {s : CharSet} {c d : Char} {text rest v : List Char}

/-! ## What is found -/

/-- Rounds of a pattern find its repetitions and nothing else. A round that takes no text is not
tried, since it leads to nothing that is not found without it. -/
theorem mem_repeatedly_iff
    (h : ∀ {text rest}, rest ∈ p.tries text ↔ ∃ v, text = v ++ rest ∧ Matches p v) :
    rest ∈ repeatedly p.tries text ↔ ∃ v, text = v ++ rest ∧ Matches (star p) v := by
  -- By induction on the length: a round that takes nothing is not tried, and no repetition needs
  -- one.
  induction hlength : text.length using Nat.strongRecOn generalizing text with
  | ind n ih =>
    subst hlength
    rw [repeatedly, List.mem_append, List.mem_flatMap, List.mem_singleton]
    constructor
    · rintro (⟨next, hnext, hrest⟩ | rfl)
      · split_ifs at hrest with hlt
        · obtain ⟨v, rfl, hv⟩ := h.1 hnext
          obtain ⟨v', rfl, hv'⟩ := (ih _ hlt rfl).1 hrest
          exact ⟨v ++ v', (List.append_assoc v v' rest).symm, .more hv hv'⟩
        · exact absurd hrest List.not_mem_nil
      · exact ⟨[], rfl, .done⟩
    · rintro ⟨v, rfl, hv⟩
      cases v with
      | nil => exact .inr rfl
      | cons c v =>
        obtain ⟨t, t', rfl, hfirst, hothers⟩ := exists_of_star hv
        have hlt : (t' ++ rest).length < (c :: (t ++ t') ++ rest).length := by
          simp only [List.length_append, List.length_cons]
          omega
        refine .inl ⟨t' ++ rest, h.2 ⟨c :: t, by simp, hfirst⟩, ?_⟩
        rw [dif_pos hlt]
        exact (ih _ hlt rfl).2 ⟨t', rfl, hothers⟩

/-- What one search after another finds is behind a text of each. -/
theorem mem_flatMap_tries_iff {f : List Char → List (List Char)} {P : List Char → Prop}
    (hp : ∀ {text rest}, rest ∈ p.tries text ↔ ∃ v, text = v ++ rest ∧ Matches p v)
    (hf : ∀ {text rest}, rest ∈ f text ↔ ∃ v, text = v ++ rest ∧ P v) :
    rest ∈ (p.tries text).flatMap f ↔ ∃ v, text = v ++ rest ∧ ∃ t t', v = t ++ t' ∧
      Matches p t ∧ P t' := by
  rw [List.mem_flatMap]
  constructor
  · rintro ⟨next, hnext, hrest⟩
    obtain ⟨v, rfl, hv⟩ := hp.1 hnext
    obtain ⟨v', rfl, hv'⟩ := hf.1 hrest
    exact ⟨v ++ v', (List.append_assoc v v' rest).symm, v, v', rfl, hv, hv'⟩
  · rintro ⟨_, rfl, t, t', rfl, ht, ht'⟩
    exact ⟨t' ++ rest, hp.2 ⟨t, List.append_assoc t t' rest, ht⟩, hf.2 ⟨t', rfl, ht'⟩⟩

/-- All described texts at the beginning are found by trying, and no others. So trying, which is how
regular expressions are usually searched, agrees with what patterns describe. -/
theorem mem_tries_iff : rest ∈ p.tries text ↔ ∃ v, text = v ++ rest ∧ Matches p v := by
  -- The text is general: the second part of a sequence is tried on what the first leaves.
  induction p generalizing text rest with
  | void => exact iff_of_false List.not_mem_nil fun ⟨_, _, h⟩ => not_matches_void h
  | empty =>
    rw [tries, List.mem_singleton]
    constructor
    · rintro rfl
      exact ⟨[], rfl, .empty⟩
    · rintro ⟨v, rfl, hv⟩
      rw [matches_empty_iff.1 hv, List.nil_append]
  | set s =>
    constructor
    · intro h
      cases text with
      | nil => exact absurd h List.not_mem_nil
      | cons c cs =>
        rw [tries] at h
        split_ifs at h with hc
        · obtain rfl := List.mem_singleton.1 h
          exact ⟨[c], rfl, .set hc⟩
        · exact absurd h List.not_mem_nil
    · rintro ⟨v, rfl, hv⟩
      obtain ⟨c, hc, rfl⟩ := matches_set_iff.1 hv
      rw [List.singleton_append, tries, if_pos hc]
      exact List.mem_singleton_self rest
  | seq p q ihp ihq =>
    rw [tries, mem_flatMap_tries_iff ihp ihq]
    simp only [matches_seq_iff]
  | alt p q ihp ihq =>
    rw [tries, List.mem_append, ihp, ihq, ← exists_or]
    refine exists_congr fun v => ?_
    rw [matches_alt_iff, and_or_left]
  | star p ih => exact mem_repeatedly_iff ih
  | plus p ih =>
    rw [tries, mem_flatMap_tries_iff ih (mem_repeatedly_iff ih)]
    simp only [matches_plus_iff]

/-- What is left behind some rounds is no longer than the text. -/
theorem length_le_of_mem_repeatedly (h : rest ∈ repeatedly p.tries text) :
    rest.length ≤ text.length := by
  obtain ⟨v, rfl, -⟩ := (mem_repeatedly_iff mem_tries_iff).1 h
  rw [List.length_append]
  exact Nat.le_add_left _ _

/-! ## In which order -/

/-- At most one described text is found at the beginning of any text. -/
def AtMostOne (p : Pattern) : Prop := ∀ text, (p.tries text).length ≤ 1

/-- A longer text is found before a shorter one. -/
def LongestFirst (p : Pattern) : Prop :=
  ∀ text, (p.tries text).Pairwise fun a b => a.length < b.length

/-- Nothing or one text is found. -/
theorem AtMostOne.cases (h : p.AtMostOne) (text : List Char) :
    p.tries text = [] ∨ ∃ rest, p.tries text = [rest] := by
  rcases hfound : p.tries text with _ | ⟨rest, _ | ⟨other, others⟩⟩
  · exact .inl rfl
  · exact .inr ⟨rest, rfl⟩
  · have hlength := h text
    rw [hfound] at hlength
    exact absurd hlength (by simp)

/-- One text is in order, as there is nothing to compare it with. -/
theorem AtMostOne.longestFirst (h : p.AtMostOne) : p.LongestFirst := by
  intro text
  rcases h.cases text with hnone | ⟨rest, hone⟩
  · rw [hnone]
    exact .nil
  · rw [hone]
    exact List.pairwise_singleton _ rest

/-- The empty text is one, so a pattern for it tries at most one. -/
theorem atMostOne_empty : empty.AtMostOne := fun _ => Nat.le_refl 1

/-- A character of a set is one. -/
theorem atMostOne_set (s : CharSet) : (set s).AtMostOne := by
  intro text
  cases text with
  | nil => exact Nat.zero_le 1
  | cons c cs =>
    rw [tries]
    split_ifs
    · exact Nat.le_refl 1
    · exact Nat.zero_le 1

/-- One text behind another is one. -/
theorem AtMostOne.seq (hp : p.AtMostOne) (hq : q.AtMostOne) : (seq p q).AtMostOne := by
  intro text
  rw [tries]
  rcases hp.cases text with hnone | ⟨rest, hone⟩
  · rw [hnone]
    exact Nat.zero_le 1
  · rw [hone, List.flatMap_singleton]
    exact hq rest

/-- A choice is one text if only one branch finds any. -/
theorem AtMostOne.alt (hp : p.AtMostOne) (hq : q.AtMostOne)
    (h : ∀ text, p.tries text = [] ∨ q.tries text = []) :
    (alt p q).AtMostOne := by
  intro text
  rw [tries]
  rcases h text with hnone | hnone
  · rw [hnone, List.nil_append]
    exact hq text
  · rw [hnone, List.append_nil]
    exact hp text

/-- Exactly one text is one, however long it is. -/
theorem atMostOne_literal (word : List Char) : (literal word).AtMostOne := by
  induction word with
  | nil => exact atMostOne_empty
  | cons c word ih =>
    cases word with
    | nil => exact atMostOne_set _
    | cons d word => exact (atMostOne_set _).seq ih

/-- What is in order behind each text stays so behind one text at most. -/
theorem AtMostOne.pairwise_flatMap (hp : p.AtMostOne) {R : List Char → List Char → Prop}
    {f : List Char → List (List Char)} (hf : ∀ rest, (f rest).Pairwise R) (text : List Char) :
    ((p.tries text).flatMap f).Pairwise R := by
  rcases hp.cases text with hnone | ⟨rest, hone⟩
  · rw [hnone]
    exact .nil
  · rw [hone, List.flatMap_singleton]
    exact hf rest

/-- What is in order stays so behind one text. -/
theorem AtMostOne.seq_longestFirst (hp : p.AtMostOne) (hq : q.LongestFirst) :
    (Pattern.seq p q).LongestFirst := by
  intro text
  rw [tries]
  exact hp.pairwise_flatMap hq text

/-- What is in order stays so in front of a character of a set. -/
theorem LongestFirst.seq_set (hp : p.LongestFirst) (s : CharSet) :
    (Pattern.seq p (set s)).LongestFirst := by
  intro text
  rw [tries, List.pairwise_flatMap]
  have hlength : ∀ {a x : List Char}, x ∈ (set s).tries a → a.length = x.length + 1 := by
    intro a x hx
    obtain ⟨v, rfl, hv⟩ := mem_tries_iff.1 hx
    obtain ⟨c, -, rfl⟩ := matches_set_iff.1 hv
    rfl
  refine ⟨fun a _ => (atMostOne_set s).longestFirst a, (hp text).imp fun hlt x hx y hy => ?_⟩
  have hx := hlength hx
  have hy := hlength hy
  omega

/-- More rounds come first: a repetition tries to go on before it stops, so shorter rests stand in
front. -/
theorem AtMostOne.pairwise_repeatedly (hp : p.AtMostOne) (text : List Char) :
    (repeatedly p.tries text).Pairwise fun a b => a.length < b.length := by
  -- By induction on the length: a round that is tried leaves less text for the others.
  induction hlength : text.length using Nat.strongRecOn generalizing text with
  | ind n ih =>
    subst hlength
    rw [repeatedly, List.pairwise_append]
    refine ⟨?_, List.pairwise_singleton _ text, fun a ha b hb => ?_⟩
    · refine hp.pairwise_flatMap (fun rest => ?_) text
      split_ifs with hlt
      · exact ih _ hlt rest rfl
      · exact .nil
    · obtain rfl := List.mem_singleton.1 hb
      obtain ⟨rest, -, ha⟩ := List.mem_flatMap.1 ha
      split_ifs at ha with hlt
      · exact Nat.lt_of_le_of_lt (length_le_of_mem_repeatedly ha) hlt
      · exact absurd ha List.not_mem_nil

/-- Repetitions of one text are in order. -/
theorem AtMostOne.star (hp : p.AtMostOne) : (star p).LongestFirst := hp.pairwise_repeatedly

/-- So are those that take one text at least. -/
theorem AtMostOne.plus (hp : p.AtMostOne) : (plus p).LongestFirst := by
  intro text
  rw [tries]
  exact hp.pairwise_flatMap hp.pairwise_repeatedly text

/-- Of a pattern that tries longer texts first, the longest described text is found: the first one
that is tried is no shorter than any other. -/
theorem LongestFirst.found?_eq (h : p.LongestFirst) (hfront : v <+: text) (hv : Matches p v)
    (hlongest : ∀ v', v' <+: text → Matches p v' → v'.length ≤ v.length) :
    p.found? text = some v := by
  obtain ⟨rest, rfl⟩ := hfront
  have hmem : rest ∈ p.tries (v ++ rest) := mem_tries_iff.2 ⟨v, rfl, hv⟩
  have horder := h (v ++ rest)
  unfold found?
  cases hfound : p.tries (v ++ rest) with
  | nil =>
    rw [hfound] at hmem
    exact absurd hmem List.not_mem_nil
  | cons first others =>
    obtain ⟨v', heq, hv'⟩ :=
      mem_tries_iff.1 (hfound ▸ List.mem_cons_self : first ∈ p.tries (v ++ rest))
    have hle := hlongest v' ⟨first, heq.symm⟩ hv'
    have hlength : v.length + rest.length = v'.length + first.length := by
      rw [← List.length_append, ← List.length_append, heq]
    -- The first one is no shorter than any other, so it is this one.
    obtain rfl : rest = first := by
      rw [hfound] at hmem horder
      rcases List.mem_cons.1 hmem with heq | hmem
      · exact heq
      · have hlt := (List.pairwise_cons.1 horder).1 rest hmem
        omega
    simp

end Pattern

/-! ## The rules of the lexer -/

namespace Rule

open Pattern

/-- A character of a literal is escaped or not. -/
theorem atMostOne_literalChar (d : Char) : (literalChar d).AtMostOne := by
  refine ((atMostOne_set _).seq (atMostOne_set _)).alt (atMostOne_set _) fun text => ?_
  cases text with
  | nil => exact .inl rfl
  | cons c cs =>
    -- A backslash begins an escape and nothing else, so the two forms never both match.
    by_cases hc : c = '\\'
    · subst hc
      refine .inr ?_
      rw [tries, if_neg]
      simp [CharSet.contains, SetItem.contains]
    · refine .inl ?_
      have hfirst : (Pattern.set (.one '\\')).tries (c :: cs) = [] := by
        rw [tries, if_neg]
        simpa [CharSet.contains] using Ne.symm hc
      rw [tries, hfirst]
      rfl

/-- By a rule for one text, that one is found. -/
theorem longestFirst_word (kind : TokenKind) (text : String) :
    (word kind text).pattern.LongestFirst :=
  (atMostOne_literal text.toList).longestFirst

/-- The rules of statements find the longest text first. Their patterns are sequences, choices and
runs for which trying in order is as good as trying all. -/
theorem longestFirst_base : ∀ r ∈ base, r.pattern.LongestFirst := by
  have hset : ∀ s : CharSet, (Pattern.set s).AtMostOne := atMostOne_set
  have hbody : (Pattern.star (literalChar '"')).LongestFirst := (atMostOne_literalChar '"').star
  refine List.forall_mem_append.2 ⟨List.forall_mem_append.2 ⟨?_, ?_⟩, ?_⟩
  · -- Blanks and comments, then the words, then what may run on; each tries the longer text first.
    simp only [List.forall_mem_cons]
    exact ⟨(hset _).plus, longestFirst_word _ _,
      (hset _).seq_longestFirst ((hset _).seq_longestFirst (hset _).star), List.forall_mem_nil _⟩
  · intro r hr
    obtain ⟨⟨text, kind⟩, -, rfl⟩ := List.mem_map.1 hr
    exact longestFirst_word kind text
  · simp only [List.forall_mem_cons, longestFirst_word, true_and]
    exact ⟨(hset _).seq_longestFirst (hset _).star, (hset _).seq_longestFirst (hbody.seq_set _),
      (hset _).seq_longestFirst hbody, List.forall_mem_nil _⟩

/-- So do those of single characters. -/
theorem longestFirst_char : ∀ r ∈ char, r.pattern.LongestFirst := by
  have hset : ∀ s : CharSet, (Pattern.set s).AtMostOne := atMostOne_set
  simp only [char, List.forall_mem_cons]
  exact ⟨((hset _).seq ((atMostOne_literalChar _).seq (hset _))).longestFirst,
    (hset _).seq_longestFirst (hset _).plus, (hset _).longestFirst, List.forall_mem_nil _⟩

/-- And those of productions find the longest text first, too. -/
theorem longestFirst_grammar : ∀ r ∈ grammar, r.pattern.LongestFirst := by
  have hset : ∀ s : CharSet, (Pattern.set s).AtMostOne := atMostOne_set
  simp only [grammar, List.forall_mem_cons]
  exact ⟨(hset _).seq_longestFirst ((hset _).plus.seq_set _),
    (hset _).seq_longestFirst (hset _).star, longestFirst_word _ _, List.forall_mem_nil _⟩

end Rule

/-- The rules of every mode find the longest text first. -/
theorem LexMode.longestFirst_of_mem {m : LexMode} {r : Rule} (hr : r ∈ m.rules) :
    r.pattern.LongestFirst := by
  cases m with
  | base => exact Rule.longestFirst_base r hr
  | char => exact Rule.longestFirst_char r hr
  | grammar => exact Rule.longestFirst_grammar r hr

end MachineLang
