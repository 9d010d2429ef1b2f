import MachineLang.Proofs.Carrying
import MachineLang.Proofs.PatternTexts

/-!
# In place of a closing brace

A text that stands in front of a closing brace is cut alike where a blank, a line end or a semicolon
follows instead (`Seam.of_brace`). For if a rule matched further there, it would be one for a
comment, a string or a non-terminal that is still open; so it, or the rule for what is never closed,
would have matched the brace as well.
-/

namespace MachineLang

variable {modes : List LexMode} {ignored : List TokenKind} {kind : TokenKind}
  {value text rest tail : List Char} {c d : Char}

/-- The characters that end a word: blanks, the line end and the semicolon. -/
def wordEnds : List Char := [' ', '\t', '\r', '\n', ';']

/-- What can be checked for each of the characters that end a word holds for all of them. -/
theorem of_mem_wordEnds {p : Char → Prop} [DecidablePred p]
    (h : (wordEnds.all fun c => decide (p c)) = true) (hc : c ∈ wordEnds) : p c :=
  of_decide_eq_true (List.all_eq_true.1 h c hc)

/-! ## Open lexemes -/

namespace Pattern

variable {q q' : Pattern} {s : CharSet}

/-- Behind its first character a pattern may go on with a brace if its rest may. -/
theorem matches_char_seq_brace (hne : c ≠ d)
    (hq : ∀ {text}, Matches q (text ++ c :: rest) → Matches q' (text ++ ['\x7d']))
    (h : Matches (seq (char d) q) (text ++ c :: rest)) :
    Matches (seq (char d) q') (text ++ ['\x7d']) := by
  obtain ⟨t, heq, hrest⟩ := matches_char_seq_iff.1 h
  cases text with
  | nil => exact absurd (List.cons.inj heq).1 hne
  | cons a text =>
    obtain ⟨rfl, rfl⟩ := List.cons.inj heq
    exact matches_char_seq_iff.2 ⟨_, rfl, hq hrest⟩

/-- A run over a set may end with any character of the set. -/
theorem matches_star_set_brace (h : Matches (star (set s)) (text ++ c :: rest))
    (hbrace : s.contains '\x7d' = true) :
    Matches (star (set s)) (text ++ ['\x7d']) := by
  rw [matches_star_set_iff] at h ⊢
  intro a ha
  rcases List.mem_append.1 ha with ha | ha
  · exact h a (List.mem_append_left _ ha)
  · rw [List.mem_singleton.1 ha]
    exact hbrace

/-- One or more texts are any number of texts. -/
theorem matches_star_of_plus (h : Matches (plus q) text) : Matches (star q) text := by
  cases h with
  | plus hfirst hothers => exact .more hfirst hothers

/-- One character of a literal is a single one, or an escaped one behind a backslash. -/
theorem exists_of_literalChar (h : Matches (Rule.literalChar d) (c :: text)) :
    text = [] ∨ ∃ a, c = '\\' ∧ text = [a] := by
  rcases matches_alt_iff.1 h with h | h
  · obtain ⟨t, heq, ht⟩ := matches_char_seq_iff.1 h
    obtain ⟨a, -, rfl⟩ := matches_set_iff.1 ht
    obtain ⟨hc, htext⟩ := List.cons.inj heq
    exact .inr ⟨a, hc, htext⟩
  · obtain ⟨a, -, heq⟩ := matches_set_iff.1 h
    exact .inl (List.cons.inj heq).2

/-- An open literal may go on with a brace in place of what follows. Behind a backslash the brace is
the escaped character, and otherwise it is a character of its own. -/
theorem matches_star_literalChar_brace (hd : d ≠ '\x7d')
    (h : Matches (star (Rule.literalChar d)) (text ++ c :: rest)) :
    Matches (star (Rule.literalChar d)) (text ++ ['\x7d']) := by
  have hbrace : Matches (Rule.literalChar d) ['\x7d'] :=
    .right (.set (by simp [CharSet.contains, SetItem.contains, hd]))
  have hescaped : Matches (Rule.literalChar d) ['\\', '\x7d'] :=
    .left (.seq (.set (by decide)) (.set (by decide)) : Matches _ (['\\'] ++ ['\x7d']))
  have hmore : ∀ (first : List Char) {others : List Char}, Matches (Rule.literalChar d) first →
      Matches (star (Rule.literalChar d)) others →
      Matches (star (Rule.literalChar d)) (first ++ others) := fun _ _ => .more
  -- By induction on the length, since an escaped character takes two at once. Where the text ends,
  -- the brace stands for what the literal goes on with.
  induction hlength : text.length using Nat.strongRecOn generalizing text with
  | ind n ih =>
    subst hlength
    cases text with
    | nil => exact hmore ['\x7d'] hbrace .done
    | cons a text =>
      obtain ⟨t, t', heq, hfirst, hothers⟩ := exists_of_star h
      rcases exists_of_literalChar hfirst with rfl | ⟨b, rfl, rfl⟩
      · obtain rfl : text ++ c :: rest = t' := heq
        exact hmore [a] hfirst (ih text.length (Nat.lt_succ_self _) hothers rfl)
      · cases text with
        | nil => exact hmore ['\\', '\x7d'] hescaped .done
        | cons b' text =>
          obtain ⟨rfl, rfl⟩ := List.cons.inj heq
          refine hmore ['\\', b'] hfirst (ih text.length ?_ hothers rfl)
          rw [List.length_cons, List.length_cons]
          omega

/-- What stands in front of another character than the last one is part of what stands in front of
that. -/
theorem exists_of_matches_seq_char (h : Matches (seq q (char d)) (text ++ c :: rest))
    (hne : c ≠ d) :
    ∃ rest', Matches q (text ++ c :: rest') := by
  obtain ⟨t, _, heq, hq, hd⟩ := matches_seq_iff.1 h
  obtain ⟨e, hlast, rfl⟩ := matches_set_iff.1 hd
  obtain rfl : d = e := beq_iff_eq.1 hlast
  rcases List.eq_nil_or_concat rest with rfl | ⟨rest', a, rfl⟩
  · exact absurd (List.append_inj' heq rfl).2 fun hsame => hne (List.cons.inj hsame).1
  · rw [List.concat_eq_append, ← List.cons_append, ← List.append_assoc] at heq
    obtain ⟨rfl, -⟩ := List.append_inj' heq rfl
    exact ⟨rest', hq⟩

/-- A set of characters takes one character at most. -/
theorem munch_set_le (s : CharSet) (text : List Char) : (set s).munch text ≤ 1 := by
  cases text with
  | nil => exact Nat.zero_le 1
  | cons c cs =>
    unfold munch
    rw [munchFrom_set]
    split_ifs <;> decide

end Pattern

/-! ## Rules that match what ends words -/

namespace Rule

open Pattern

/-- The rule for blanks within a line, as it stands in the table. -/
def whitespace : Rule := ⟨.whitespace, plus (.set (.oneOf [.one ' ', .one '\t', .one '\r']))⟩

/-- The rule for non-terminals: a name between angle brackets, as it stands in the table. -/
def nonTerminal : Rule := ⟨.nonTerminal, seq (Pattern.char '<')
  (seq (plus (.set (.noneOf [.one '<', .one '>', .blank]))) (Pattern.char '>'))⟩

/-- The rule for non-terminals that do not end. -/
def unclosedNonTerminal : Rule :=
  ⟨.unclosedNonTerminal,
    seq (Pattern.char '<') (star (.set (.noneOf [.one '<', .one '>', .blank])))⟩

/-- The rules with texts that may still be open at what ends a word, each with the rule for what
stays open. -/
def openRules : List (Rule × Rule) :=
  [(comment, comment), (string, unterminatedString), (unterminatedString, unterminatedString),
    (nonTerminal, unclosedNonTerminal), (unclosedNonTerminal, unclosedNonTerminal)]

/-- A rule matches nothing that ends a word, or a single character, or blanks, or a quoted
character, or it may stay open. -/
theorem cases_of_mem (hc : c ∈ wordEnds) {m : LexMode} {r : Rule} (hr : r ∈ m.rules) :
    r.pattern.avoids c = true ∨ r.pattern ∈ [.set .nonBlank, .char '\n', .char ';'] ∨
      r ∈ whitespace :: quotedCharacter :: openRules.map Prod.fst := by
  refine of_mem_wordEnds (p := fun c => ∀ r ∈ m.rules, r.pattern.avoids c = true ∨
    r.pattern ∈ [.set .nonBlank, .char '\n', .char ';'] ∨
      r ∈ whitespace :: quotedCharacter :: openRules.map Prod.fst) ?_ hc r hr
  cases m <;> decide

/-- What is open at what ends a word stays open at a brace: where a comment or a literal takes in
the first character behind the text, it also takes in a brace that stands there instead. -/
theorem matches_brace (hc : c ∈ wordEnds) {r r' : Rule} (hr : (r, r') ∈ openRules)
    (h : r.pattern.Matches (text ++ c :: rest)) : r'.pattern.Matches (text ++ ['\x7d']) := by
  have hne : ∀ d ∈ ['/', '"', '<', '>'], c ≠ d := by
    rintro d hd rfl
    exact of_mem_wordEnds (p := fun c => c ∉ ['/', '"', '<', '>']) (by decide) hc hd
  have hslash := hne '/' (by decide)
  have hquote := hne '"' (by decide)
  have hless := hne '<' (by decide)
  simp only [openRules, List.mem_cons, List.not_mem_nil, or_false, Prod.mk.injEq] at hr
  -- A comment, two rules for strings and two for non-terminals: each opens with a sign that ends no
  -- word, and what stands behind it may go on with a brace.
  rcases hr with ⟨rfl, rfl⟩ | ⟨rfl, rfl⟩ | ⟨rfl, rfl⟩ | ⟨rfl, rfl⟩ | ⟨rfl, rfl⟩
  · exact matches_char_seq_brace hslash
      (matches_char_seq_brace hslash fun h => matches_star_set_brace h (by decide)) h
  · refine matches_char_seq_brace hquote (fun h => ?_) h
    obtain ⟨_, h⟩ := exists_of_matches_seq_char h hquote
    exact matches_star_literalChar_brace (by decide) h
  · exact matches_char_seq_brace hquote (fun h => matches_star_literalChar_brace (by decide) h) h
  · refine matches_char_seq_brace hless (fun h => ?_) h
    obtain ⟨_, h⟩ := exists_of_matches_seq_char h (hne '>' (by decide))
    exact matches_star_set_brace (matches_star_of_plus h) (by decide)
  · exact matches_char_seq_brace hless (fun h => matches_star_set_brace h (by decide)) h

/-- White space in front of what ends a word is white space. -/
theorem all_isSpace_of_matches (h : whitespace.pattern.Matches (text ++ c :: rest)) :
    text.all Written.isSpace = true := by
  have hstar := matches_star_set_iff.1 (matches_star_of_plus h)
  exact List.all_eq_true.2 fun a ha => hstar a (List.mem_append_left _ ha)

/-- A quoted character that reaches over what ends a word goes on with its closing quote and nothing
else, since what ends the word is then the quoted character or the escaped one. -/
theorem eq_quote_of_matches (hc : c ∈ wordEnds) (htext : text ≠ [])
    (h : quotedCharacter.pattern.Matches (text ++ c :: rest)) : rest = ['\''] := by
  obtain ⟨hquote, hbackslash⟩ := of_mem_wordEnds (p := fun c => c ≠ '\'' ∧ c ≠ '\\') (by decide) hc
  obtain ⟨t, heq, hseq⟩ := matches_char_seq_iff.1 h
  obtain ⟨first, last, rfl, hfirst, hlast⟩ := matches_seq_iff.1 hseq
  obtain ⟨e, he, rfl⟩ := matches_set_iff.1 hlast
  obtain rfl : '\'' = e := beq_iff_eq.1 he
  obtain ⟨a, text, rfl⟩ := List.exists_cons_of_ne_nil htext
  obtain ⟨rfl, hquoted⟩ := List.cons.inj heq
  cases first with
  | nil => exact absurd (matches_nil_iff.1 hfirst) (by decide)
  | cons b first =>
    -- Either what ends the word is the quoted character, or it is the escaped one.
    rcases exists_of_literalChar hfirst with rfl | ⟨b', rfl, rfl⟩
    · rcases text with _ | ⟨a', _ | ⟨a'', text⟩⟩
      · exact (List.cons.inj hquoted).2
      · exact absurd (List.cons.inj (List.cons.inj hquoted).2).1 hquote
      · have hlength := congrArg List.length hquoted
        simp at hlength
    · rcases text with _ | ⟨a', _ | ⟨a'', _ | ⟨b'', text⟩⟩⟩
      · exact absurd (List.cons.inj hquoted).1 hbackslash
      · exact (List.cons.inj (List.cons.inj hquoted).2).2
      · exact absurd (List.cons.inj (List.cons.inj (List.cons.inj hquoted).2).2).1 hquote
      · have hlength := congrArg List.length hquoted
        simp at hlength

end Rule

/-- A rule that owns what another one does is in force where that is. -/
theorem mem_activeRules_of_owns {r r' : Rule} (hrules : ∀ m : LexMode, r ∈ m.rules → r' ∈ m.rules)
    (howns : ∀ m : LexMode, m.owns r'.kind = m.owns r.kind) (hr : r ∈ activeRules modes) :
    r' ∈ activeRules modes := by
  induction modes with
  | nil => exact absurd hr List.not_mem_nil
  | cons m outer ih =>
    rcases List.mem_append.1 hr with hr | hr
    · exact List.mem_append_left _ (hrules m hr)
    · obtain ⟨hr, hshown⟩ := List.mem_filter.1 hr
      exact List.mem_append_right _ (List.mem_filter.2 ⟨ih hr, by rw [howns]; exact hshown⟩)

/-! ## In place of a closing brace -/

/-- Where a rule is active, so is the one for what it leaves open. -/
theorem mem_activeRules_of_open {r r' : Rule} (hopen : (r, r') ∈ Rule.openRules)
    (hr : r ∈ activeRules modes) :
    r' ∈ activeRules modes := by
  have hrules : ∀ m : LexMode, ∀ pair ∈ Rule.openRules, pair.1 ∈ m.rules → pair.2 ∈ m.rules := by
    intro m
    cases m <;> decide
  have howns : ∀ m : LexMode, ∀ pair ∈ Rule.openRules, m.owns pair.2.kind = m.owns pair.1.kind := by
    intro m
    cases m <;> decide
  exact mem_activeRules_of_owns (fun m => hrules m _ hopen) (fun m => howns m _ hopen) hr

/-- Where a text that does not only consist of blanks is cut in front of a closing brace, no rule
matches beyond what ends a word instead of it. -/
theorem Lexes.munch_le_of_brace (h : Lexes modes kind value (text ++ ['\x7d']))
    (hc : c ∈ wordEnds) (htail : ∀ d ∈ tail.head?, d ≠ '\'')
    (hspace : (value ++ text).all Written.isSpace = false) {r : Rule} (hr : r ∈ activeRules modes) :
    r.pattern.munch (value ++ text ++ c :: tail) ≤ (value ++ text).length := by
  have htext : value ++ text ≠ [] := List.append_ne_nil_of_left_ne_nil h.value_ne _
  by_contra hlt
  -- So the rule matches a text that ends behind what ends the word.
  have hreach := Nat.not_le.1 hlt
  obtain ⟨v, hfront, hmatches, hmunch⟩ :=
    Pattern.exists_of_munch_pos (Nat.lt_of_le_of_lt (Nat.zero_le _) hreach)
  have hlength : (value ++ text).length < v.length := hmunch ▸ hreach
  obtain ⟨u, rfl, hu⟩ : ∃ u, v = value ++ text ++ c :: u ∧ u <+: tail := by
    obtain ⟨v', rfl⟩ :=
      List.prefix_of_prefix_length_le (List.prefix_append _ _) hfront (Nat.le_of_lt hlength)
    rw [List.prefix_append_right_inj] at hfront
    cases v' with
    | nil => exact absurd hlength (by rw [List.append_nil]; exact Nat.lt_irrefl _)
    | cons d u =>
      obtain ⟨rfl, hu⟩ := List.cons_prefix_cons.1 hfront
      exact ⟨u, rfl, hu⟩
  obtain ⟨m, hm⟩ := exists_mem_rules hr
  rcases Rule.cases_of_mem hc hm with havoids | hsingle | hlong
  · unfold Pattern.munch at hlt
    rw [Pattern.munchFrom_append_of_avoids havoids] at hlt
    exact hlt (r.pattern.munch_le_length _)
  · have hle : r.pattern.munch (value ++ text ++ c :: tail) ≤ 1 := by
      have hset : ∀ p ∈ [Pattern.set .nonBlank, .char '\n', .char ';'], ∃ s, p = .set s := by
        simp only [List.forall_mem_cons]
        exact ⟨⟨_, rfl⟩, ⟨_, rfl⟩, ⟨_, rfl⟩, List.forall_mem_nil _⟩
      obtain ⟨s, hs⟩ := hset _ hsingle
      rw [hs]
      exact Pattern.munch_set_le s _
    exact hlt (Nat.le_trans hle (List.length_pos_of_ne_nil htext))
  · rcases List.mem_cons.1 hlong with rfl | hlong
    · rw [Rule.all_isSpace_of_matches hmatches] at hspace
      exact Bool.false_ne_true hspace.symm
    rcases List.mem_cons.1 hlong with rfl | hlong
    · obtain rfl := Rule.eq_quote_of_matches hc htext hmatches
      obtain ⟨tail', rfl⟩ := hu
      exact htail '\'' rfl rfl
    · -- The rule for what stays open matches the brace, too.
      obtain ⟨⟨_, r'⟩, hopen, rfl⟩ := List.mem_map.1 hlong
      have hr' : r' ∈ activeRules modes := mem_activeRules_of_open hopen hr
      have hle := Pattern.le_munch (Rule.matches_brace hc hopen hmatches) (List.prefix_refl _)
      rw [List.append_assoc] at hle
      have hmunch := Nat.le_trans hle (h.munch_le hr')
      rw [List.length_append, List.length_append] at hmunch
      simp only [List.length_singleton] at hmunch
      omega

/-- A text with a token in it does not only consist of blanks. -/
theorem Next.all_isSpace_eq_false (hskips : SkipsBlanks ignored) (hbase : .base ∈ modes)
    {t t' : List Char} (h : Next ⟨modes, ignored⟩ kind value (t' ++ rest) (t ++ rest))
    (hkind : kind ≠ .endOfInput) :
    t.all Written.isSpace = false := by
  by_contra hspace
  have hnext := (blanks_iff hskips hbase (Bool.not_eq_false _ ▸ hspace)).1 h
  have hlt := hnext.length_lt hkind
  rw [List.length_append] at hlt
  omega

/-- What is cut in front of a closing brace is cut alike where a blank, a line end or a semicolon
follows instead. -/
theorem Seam.of_brace (hc : c ∈ wordEnds) (htail : ∀ d ∈ tail.head?, d ≠ '\'') :
    Seam ['\x7d'] (c :: tail) := by
  intro modes ignored kind value t t' hbase hskips hkind h
  have hnot := h.all_isSpace_eq_false hskips hbase hkind
  generalize hwhole : t ++ ['\x7d'] = whole at h
  -- By induction on the tokens in front of the one that is read: each is cut without a look at what
  -- is behind the ending.
  induction h generalizing t with
  | token hlex hread =>
    rw [← List.append_assoc] at hwhole
    obtain rfl := List.append_cancel_right hwhole
    rw [List.append_assoc]
    refine .token (hlex.change_tail fun r hr => ?_) hread
    rw [← List.append_assoc, ← List.length_append]
    exact hlex.munch_le_of_brace hc htail hnot hr
  | stop hend => exact absurd hend hkind
  | skip hlex hskip hnext ih =>
    obtain ⟨t'', rfl⟩ := MachineLang.exists_between hnext.suffix
    rw [← List.append_assoc] at hwhole
    obtain rfl := List.append_cancel_right hwhole
    rw [List.append_assoc]
    refine .skip (hlex.change_tail fun r hr => ?_) hskip
      (ih (hnext.all_isSpace_eq_false hskips hbase hkind) rfl)
    rw [← List.append_assoc, ← List.length_append]
    exact hlex.munch_le_of_brace hc htail hnot hr

end MachineLang
