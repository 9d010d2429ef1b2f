import MachineLang.Proofs.Lexing
import MachineLang.Proofs.Writing
import Mathlib.Data.List.Induction

/-!
# How far patterns reach

How much of a text the patterns of the lexer's rules take: the pattern of one text
(`munch_literal`), a run of characters of a set (`munchFrom_star_set`), and the body of a quoted
literal (`munchFrom_star_literalChar`), which ends at the first delimiter that no backslash stands
before. A rule is silent at a character if no text of its pattern begins with it; silent rules do
not count for the longest match (`longestMatch_filter`), and the first of the longest ones decides
(`longestMatch_append_cons`).
-/

namespace MachineLang

namespace Pattern

variable {c d : Char} {cs text rest : List Char} {read best : Nat} {p q : Pattern} {s : CharSet}

/-! ## One character -/

/-- A character is read as long as anything may still follow. -/
theorem munchFrom_cons (h : p.nullable = false) :
    p.munchFrom read best (c :: cs) = (p.after c).munchFrom (read + 1) best cs := by
  rw [munchFrom, h]
  cases p with
  | void =>
    -- Nothing follows in either case.
    cases cs with
    | nil => rfl
    | cons _ _ => rfl
  | _ => rfl

/-- The empty set of texts reaches no further. -/
@[simp] theorem munchFrom_void : void.munchFrom read best text = best := by
  cases text with
  | nil => rfl
  | cons c cs => rfl

/-- Nothing follows the empty text, so reading stops where it is. -/
@[simp] theorem munchFrom_empty : empty.munchFrom read best text = read := by
  cases text with
  | nil => rfl
  | cons c cs => exact munchFrom_void

/-- After a character of a set, that set is done. -/
theorem after_set : (set s).after c = if s.contains c then empty else void := rfl

/-- A sequence without a first part is the second one. -/
@[simp] theorem sequence_empty : sequence empty q = q := by
  cases q with
  | _ => rfl

/-- A choice between some texts and none is the former. -/
@[simp] theorem choice_void_right : choice p void = p := by
  cases p with
  | _ => rfl

/-- A pattern that begins with a character of a set goes on with its rest, or ends. -/
theorem munchFrom_seq_set :
    (seq (set s) q).munchFrom read best (c :: cs) =
      if s.contains c then q.munchFrom (read + 1) best cs else best := by
  rw [munchFrom_cons rfl]
  show (sequence ((set s).after c) q).munchFrom (read + 1) best cs = _
  rw [after_set]
  split
  · rw [sequence_empty]
  · exact munchFrom_void

/-- One character of a set is read if it is there. -/
theorem munchFrom_set :
    (set s).munchFrom read best (c :: cs) = if s.contains c then read + 1 else best := by
  rw [munchFrom_cons rfl, after_set]
  split
  · exact munchFrom_empty
  · exact munchFrom_void

/-! ## Texts and runs -/

/-- The pattern of one text reaches to its end if the text stands there, and otherwise no further
than before. It ends nowhere inside the text. -/
theorem munchFrom_literal (word : List Char) :
    (literal word).munchFrom read best text = if word <+: text then read + word.length
      else best := by
  induction word generalizing read text with
  | nil =>
    rw [if_pos List.nil_prefix]
    exact munchFrom_empty
  | cons c word ih =>
    cases text with
    | nil =>
      rw [if_neg (by simp)]
      cases word with
      | nil => rfl
      | cons d word => rfl
    | cons a as =>
      -- The pattern of a single character is its set, without a rest; the step is the same.
      have hstep : (literal (c :: word)).munchFrom read best (a :: as) =
          if c == a then (literal word).munchFrom (read + 1) best as else best := by
        cases word with
        | nil =>
          rw [show literal [] = empty from rfl, munchFrom_empty]
          exact munchFrom_set
        | cons d word => exact munchFrom_seq_set
      rw [hstep, ih]
      by_cases hc : c = a
      · subst hc
        simp only [beq_self_eq_true, if_true, List.cons_prefix_cons, true_and, List.length_cons,
          Nat.add_assoc, Nat.add_comm 1]
      · simp only [beq_eq_false_iff_ne.2 hc, List.cons_prefix_cons, hc, false_and, if_false,
          Bool.false_eq_true]

/-- The pattern of one text takes that text or nothing. -/
theorem munch_literal (word : List Char) :
    (literal word).munch text = if word <+: text then word.length else 0 := by
  unfold munch
  rw [munchFrom_literal, Nat.zero_add]

/-- A run of characters of a set reaches to the first other character, behind which the pattern
matches nothing more. -/
theorem munchFrom_star_set (hcs : ∀ c ∈ cs, s.contains c = true)
    (hrest : ∀ c ∈ rest.head?, s.contains c = false) :
    (star (set s)).munchFrom read best (cs ++ rest) = read + cs.length := by
  induction cs generalizing read best with
  | nil =>
    cases rest with
    | nil => rfl
    | cons c rest =>
      -- The first other character leaves a pattern that matches nothing.
      have hc : s.contains c = false := hrest c rfl
      show (sequence ((set s).after c) (star (set s))).munchFrom (read + 1) read rest = read
      rw [after_set, hc]
      exact munchFrom_void
  | cons c cs ih =>
    obtain ⟨hc, hcs⟩ := List.forall_mem_cons.1 hcs
    show (sequence ((set s).after c) (star (set s))).munchFrom (read + 1) read (cs ++ rest) = _
    rw [after_set, hc, if_pos rfl, sequence_empty, ih hcs, List.length_cons]
    omega

/-- A run of one or more characters of a set reaches to the first other character. -/
theorem munchFrom_plus_set (hc : s.contains c = true) (hcs : ∀ c ∈ cs, s.contains c = true)
    (hrest : ∀ c ∈ rest.head?, s.contains c = false) :
    (plus (set s)).munchFrom read best (c :: cs ++ rest) = read + (c :: cs).length := by
  rw [List.cons_append, munchFrom_cons rfl]
  show (sequence ((set s).after c) (star (set s))).munchFrom (read + 1) best (cs ++ rest) = _
  rw [after_set, hc, if_pos rfl, sequence_empty, munchFrom_star_set hcs hrest, List.length_cons]
  omega

end Pattern

/-! ## Literals -/

namespace Pattern

open Rule Written

variable {c d : Char} {cs rest : List Char} {read best : Nat}

/-- What follows a first character of a character of a literal: any one behind a backslash, nothing
behind a plain character, and no match behind any other. -/
theorem after_literalChar : (literalChar d).after c =
    if c = '\\' then set .any
    else if (CharSet.noneOf [.one d, .one '\\', .one '\n']).contains c then empty else void := by
  show choice (sequence ((set (.one '\\')).after c) (set .any)) ((set _).after c) = _
  rw [after_set, after_set]
  by_cases hc : c = '\\'
  · subst hc
    have hbackslash : (CharSet.noneOf [.one d, .one '\\', .one '\n']).contains '\\' = false := by
      simp [CharSet.contains, SetItem.contains]
    rw [hbackslash]
    rfl
  · have hother : (CharSet.one '\\').contains c = false := beq_eq_false_iff_ne.2 (Ne.symm hc)
    rw [hother, if_neg hc]
    rfl

/-- No character of a literal is the delimiter. -/
theorem after_literalChar_delimiter (hd : d ≠ '\\') : (literalChar d).after d = void := by
  rw [after_literalChar, if_neg hd, if_neg (by simp [CharSet.contains, SetItem.contains])]

/-- A character that stands for itself is a whole character of a literal. -/
theorem after_literalChar_plain (hdelimiter : c ≠ d) (hbackslash : c ≠ '\\') (hnewline : c ≠ '\n') :
    (literalChar d).after c = empty := by
  have hcontains : (CharSet.noneOf [.one d, .one '\\', .one '\n']).contains c = true := by
    simp [CharSet.contains, SetItem.contains, hdelimiter.symm, hbackslash.symm, hnewline.symm]
  rw [after_literalChar, if_neg hbackslash, if_pos hcontains]

/-- A backslash is followed by any character. -/
theorem after_literalChar_backslash : (literalChar d).after '\\' = set .any := by
  rw [after_literalChar, if_pos rfl]

/-- Every character but the newline may stand behind a backslash. -/
theorem contains_any (hc : c ≠ '\n') : CharSet.any.contains c = true := by
  unfold CharSet.contains
  exact bne_iff_ne.2 hc

/-- The pattern of a quoted character goes on behind it with the closing delimiter, whether the
character is written plainly or with a backslash in front of it. -/
theorem munchFrom_literalChar (x : LiteralChar d) :
    (seq (literalChar d) (char d)).munchFrom read best (x.text ++ cs) =
      (char d).munchFrom (read + x.text.length) best cs := by
  -- A plain character is one step of the pattern, an escaped one two.
  cases x with
  | plain c hdelimiter hbackslash hnewline =>
    show (seq (literalChar d) (char d)).munchFrom read best (c :: cs) = _
    rw [munchFrom_cons rfl]
    show (sequence ((literalChar d).after c) (char d)).munchFrom (read + 1) best cs = _
    rw [after_literalChar_plain hdelimiter hbackslash hnewline, sequence_empty]
    rfl
  | escaped c hnewline =>
    show (seq (literalChar d) (char d)).munchFrom read best ('\\' :: c :: cs) = _
    rw [munchFrom_cons rfl]
    show (sequence ((literalChar d).after '\\') (char d)).munchFrom (read + 1) best (c :: cs) = _
    rw [after_literalChar_backslash]
    show (seq (set .any) (char d)).munchFrom (read + 1) best (c :: cs) = _
    rw [munchFrom_seq_set, if_pos (contains_any hnewline)]
    rfl

/-- The body of a literal reaches to its closing delimiter and not over it: the delimiter begins no
character of the body unless a backslash stands in front of it. -/
theorem munchFrom_star_literalChar (hd : d ≠ '\\') (xs : List (LiteralChar d)) :
    (star (literalChar d)).munchFrom read best (xs.flatMap LiteralChar.text ++ d :: rest) =
      read + (xs.flatMap LiteralChar.text).length := by
  -- By induction on the characters of the literal. Behind each of them, the pattern is the one it
  -- was before.
  induction xs generalizing read best with
  | nil =>
    show (sequence ((literalChar d).after d) (star (literalChar d))).munchFrom (read + 1)
      read rest = read
    rw [after_literalChar_delimiter hd]
    exact munchFrom_void
  | cons x xs ih =>
    rw [List.flatMap_cons, List.append_assoc]
    cases x with
    | plain c hdelimiter hbackslash hnewline =>
      show (sequence ((literalChar d).after c) (star (literalChar d))).munchFrom (read + 1) read
        (xs.flatMap LiteralChar.text ++ d :: rest) = _
      rw [after_literalChar_plain hdelimiter hbackslash hnewline, sequence_empty, ih,
        List.length_append]
      show read + 1 + _ = read + (1 + _)
      omega
    | escaped c hnewline =>
      show (sequence ((literalChar d).after '\\') (star (literalChar d))).munchFrom (read + 1) read
        (c :: _) = _
      rw [after_literalChar_backslash]
      show (seq (set .any) (star (literalChar d))).munchFrom (read + 1) read
        (c :: (xs.flatMap LiteralChar.text ++ d :: rest)) = _
      rw [munchFrom_seq_set, if_pos (contains_any hnewline), ih, List.length_append]
      show read + 1 + 1 + _ = read + (2 + _)
      omega

/-- The pattern of one character does not go on behind another one. -/
theorem after_char_of_ne (hc : c ≠ d) : (char d).after c = void := by
  have hcontains : (CharSet.one d).contains c = false := beq_eq_false_iff_ne.2 hc.symm
  show (if (CharSet.one d).contains c then empty else void) = void
  rw [hcontains]
  rfl

/-- The body of a literal and its closing delimiter are matched as a whole and no further, since the
first delimiter that is not escaped is the closing one. -/
theorem munchFrom_literalBody (hd : d ≠ '\\') (xs : List (LiteralChar d)) :
    (seq (star (literalChar d)) (char d)).munchFrom read best
        (xs.flatMap LiteralChar.text ++ d :: rest) =
      read + (xs.flatMap LiteralChar.text).length + 1 := by
  -- What may follow a character: the body goes on, or it is the delimiter.
  have hafter : ∀ c, (seq (star (literalChar d)) (char d)).after c =
      choice (sequence (sequence ((literalChar d).after c) (star (literalChar d))) (char d))
        ((char d).after c) := fun _ => rfl
  induction xs generalizing read best with
  | nil =>
    show (seq (star (literalChar d)) (char d)).munchFrom read best (d :: rest) = read + 1
    have hdelimiter : (char d).after d = empty := if_pos (beq_self_eq_true d)
    rw [munchFrom_cons rfl, hafter, after_literalChar_delimiter hd, hdelimiter]
    exact munchFrom_empty
  | cons x xs ih =>
    rw [List.flatMap_cons, List.append_assoc]
    cases x with
    | plain c hdelimiter hbackslash hnewline =>
      show (seq (star (literalChar d)) (char d)).munchFrom read best (c :: _) = _
      rw [munchFrom_cons rfl, hafter, after_literalChar_plain hdelimiter hbackslash hnewline,
        after_char_of_ne hdelimiter, sequence_empty, choice_void_right]
      show (seq (star (literalChar d)) (char d)).munchFrom (read + 1) best
        (xs.flatMap LiteralChar.text ++ d :: rest) = _
      rw [ih, List.length_append]
      show read + 1 + _ + 1 = read + (1 + _) + 1
      omega
    | escaped c hnewline =>
      show (seq (star (literalChar d)) (char d)).munchFrom read best ('\\' :: c :: _) = _
      rw [munchFrom_cons rfl, hafter, after_literalChar_backslash, after_char_of_ne hd.symm,
        choice_void_right]
      show (seq (seq (set .any) (star (literalChar d))) (char d)).munchFrom (read + 1) best
        (c :: _) = _
      rw [munchFrom_cons rfl]
      show (sequence (sequence ((set .any).after c) (star (literalChar d))) (char d)).munchFrom
        (read + 1 + 1) best _ = _
      rw [after_set, if_pos (contains_any hnewline), sequence_empty]
      show (seq (star (literalChar d)) (char d)).munchFrom (read + 1 + 1) best
        (xs.flatMap LiteralChar.text ++ d :: rest) = _
      rw [ih, List.length_append]
      show read + 1 + 1 + _ + 1 = read + (2 + _) + 1
      omega

end Pattern

/-! ## Rules -/

/-- Whether no text of the rule begins with a character. -/
def Rule.silent (c : Char) (r : Rule) : Bool := !r.pattern.nullable && (r.pattern.after c).isVoid

/-- A silent rule takes nothing of a text that begins with the character. -/
theorem Rule.munch_of_silent {c : Char} {cs : List Char} {r : Rule} (h : r.silent c = true) :
    r.pattern.munch (c :: cs) = 0 := by
  unfold silent at h
  rw [Bool.and_eq_true, Bool.not_eq_true'] at h
  have hvoid : r.pattern.after c = .void := by
    cases hafter : r.pattern.after c with
    | void => rfl
    | _ =>
      rw [hafter] at h
      exact absurd h.2 Bool.false_ne_true
  unfold Pattern.munch
  rw [Pattern.munchFrom_cons h.1, hvoid, Pattern.munchFrom_void]

/-- A rule for one text takes that text or nothing. -/
theorem Rule.munch_word (kind : TokenKind) (word : String) (text : List Char) :
    (Rule.word kind word).pattern.munch text =
      if word.toList <+: text then word.toList.length else 0 :=
  Pattern.munch_literal word.toList

section LongestMatch

variable {text : List Char}

/-- One more rule is tried behind the others. -/
theorem longestMatch_append_singleton (rules : List Rule) (r : Rule) :
    longestMatch (rules ++ [r]) text =
      if (longestMatch rules text).2 < r.pattern.munch text then (r.kind, r.pattern.munch text)
      else longestMatch rules text := by
  unfold longestMatch
  rw [List.foldl_append]
  rfl

/-- The longest match is no longer than what some bound on all rules says. -/
theorem longestMatch_le {rules : List Rule} {n : Nat} (h : ∀ r ∈ rules, r.pattern.munch text ≤ n) :
    (longestMatch rules text).2 ≤ n := by
  induction rules using List.reverseRecOn with
  | nil => exact Nat.zero_le n
  | append_singleton rules r ih =>
    obtain ⟨hrules, hr⟩ := List.forall_mem_append.1 h
    rw [longestMatch_append_singleton]
    split
    · exact hr r List.mem_cons_self
    · exact ih hrules

/-- A match that is longer than those of the rules in front of it, and at least as long as those of
the rules behind it, is the longest match. -/
theorem longestMatch_append_cons {before after : List Rule} {r : Rule}
    (hpos : 0 < r.pattern.munch text)
    (hbefore : ∀ r' ∈ before, r'.pattern.munch text < r.pattern.munch text)
    (hafter : ∀ r' ∈ after, r'.pattern.munch text ≤ r.pattern.munch text) :
    longestMatch (before ++ r :: after) text = (r.kind, r.pattern.munch text) := by
  induction after using List.reverseRecOn with
  | nil =>
    have hlt : (longestMatch before text).2 < r.pattern.munch text := by
      have hle := longestMatch_le fun r' hr' => Nat.le_sub_one_of_lt (hbefore r' hr')
      omega
    rw [longestMatch_append_singleton, if_pos hlt]
  | append_singleton after r' ih =>
    obtain ⟨hrules, hlast⟩ := List.forall_mem_append.1 hafter
    rw [← List.cons_append, ← List.append_assoc, longestMatch_append_singleton, ih hrules,
      if_neg (Nat.not_lt.2 (hlast r' List.mem_cons_self))]

/-- Silent rules do not count for the longest match, so they may be left out. -/
theorem longestMatch_filter (rules : List Rule) (c : Char) (cs : List Char) :
    longestMatch rules (c :: cs) = longestMatch (rules.filter fun r => !r.silent c) (c :: cs) := by
  induction rules using List.reverseRecOn with
  | nil => rfl
  | append_singleton rules r ih =>
    rw [longestMatch_append_singleton, List.filter_append, ih]
    by_cases hsilent : r.silent c = true
    · have hnone : [r].filter (fun r => !r.silent c) = [] := by simp [hsilent]
      rw [hnone, List.append_nil, Rule.munch_of_silent hsilent, if_neg (Nat.not_lt_zero _)]
    · have hone : [r].filter (fun r => !r.silent c) = [r] := by simp [hsilent]
      rw [hone, longestMatch_append_singleton]

/-- The only rule that is not silent decides. -/
theorem longestMatch_of_filter_eq_singleton {rules : List Rule} {r : Rule} {c : Char}
    {cs : List Char} (hfilter : rules.filter (fun r => !r.silent c) = [r])
    (hpos : 0 < r.pattern.munch (c :: cs)) :
    longestMatch rules (c :: cs) = (r.kind, r.pattern.munch (c :: cs)) := by
  rw [longestMatch_filter, hfilter]
  exact longestMatch_append_cons hpos (List.forall_mem_nil _)
    (List.forall_mem_nil _)

/-- If every rule is silent, none applies. -/
theorem longestMatch_of_filter_eq_nil {rules : List Rule} {c : Char} (cs : List Char)
    (hfilter : rules.filter (fun r => !r.silent c) = []) :
    longestMatch rules (c :: cs) = (.invalid, 0) := by
  rw [longestMatch_filter, hfilter]
  rfl

end LongestMatch

end MachineLang
