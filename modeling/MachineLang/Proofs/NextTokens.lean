import MachineLang.Proofs.LexemeEnds
import MachineLang.Proofs.SymbolRules

/-!
# The next token of a text

Every text has one next token under given settings (`Next.exists_of_text`, `Next.unique`). Blanks
are skipped alike under all modes, so under other modes the next token begins at the same place
(`Next.append_eq`); where statements have a lexeme of two characters or more, a symbol may stand
there as the same lexeme (`Lexes.char_of_base`), and where they have a single character, as that
character (`Lexes.character_of_base`).
-/

namespace MachineLang

variable {modes modes' : List LexMode} {ignored : List TokenKind} {settings : Settings}
  {kind kind' : TokenKind} {value value' text rest rest' : List Char} {c : Char}

/-! ## Lexemes -/

namespace Lexes

/-- A text that does not end begins with a lexeme, whatever the modes: the longest match, or a
single invalid character where no rule matches. -/
theorem exists_of_ne_nil (modes : List LexMode) (htext : text ≠ []) :
    ∃ kind value rest, text = value ++ rest ∧ Lexes modes kind value rest := by
  have hpos := List.length_pos_of_ne_nil htext
  have hle : (longestMatch (activeRules modes) text).2 ≤ text.length :=
    longestMatch_le fun r _ => r.pattern.munch_le_length text
  have hkind := longestMatch_ne_endOfInput modes text
  -- The first characters are taken, as many as match, or a single one where nothing does.
  generalize hn : (if (longestMatch (activeRules modes) text).2 = 0 then 1
    else (longestMatch (activeRules modes) text).2) = n
  have hlength : (text.take n).length = n := by
    rw [List.length_take]
    split_ifs at hn
    · omega
    · omega
  refine ⟨_, text.take n, text.drop n, (List.take_append_drop n text).symm,
    of_longestMatch_eq ?_ hkind ?_ ?_⟩
  · refine List.ne_nil_of_length_pos ?_
    rw [hlength]
    split_ifs at hn
    · omega
    · omega
  · rw [List.take_append_drop]
  · rw [List.take_append_drop, hlength, hn]

/-- A text begins with only one lexeme. -/
theorem unique (h : Lexes modes kind value rest) (h' : Lexes modes kind' value' rest')
    (htext : value ++ rest = value' ++ rest') : kind = kind' ∧ value = value' ∧ rest = rest' := by
  have hlex := h.lex_eq .start
  rw [htext, h'.lex_eq] at hlex
  obtain ⟨htoken, hcursor⟩ := Prod.mk.inj hlex
  obtain ⟨hkind, hvalue, -⟩ := Token.mk.inj htoken
  obtain ⟨-, hrest⟩ := Cursor.mk.inj hcursor
  exact ⟨hkind.symm, (String.ofList_injective hvalue).symm, hrest.symm⟩

/-- Blanks are the same under all modes. -/
theorem of_isBlank (h : Lexes modes kind value rest) (hkind : kind.isBlank = true)
    (hbase : .base ∈ modes) (hbase' : .base ∈ modes') : Lexes modes' kind value rest := by
  refine ⟨h.kind_ne, h.value_ne, fun l => ?_⟩
  have hlex := h.lex_eq l
  rw [← hlex]
  refine Cursor.lex_eq_of_isBlank hbase hbase' ?_
  rw [hlex]
  exact hkind

/-- A lexeme of a kind is one of the rule for that kind. -/
theorem exists_rule (h : Lexes modes kind value rest) (hkind : kind ≠ .invalid) :
    ∃ r ∈ activeRules modes, r.kind = kind ∧ r.pattern.munch (value ++ rest) = value.length := by
  obtain ⟨hmatch, hlength⟩ := h.longestMatch_eq
  by_cases hzero : (longestMatch (activeRules modes) (value ++ rest)).2 = 0
  · exact absurd (hmatch.symm.trans (longestMatch_zero hzero)) hkind
  · rw [if_neg hzero] at hlength
    obtain ⟨r, hr, hrule, hmunch⟩ := longestMatch_pos (Nat.pos_of_ne_zero hzero)
    exact ⟨r, hr, hrule.symm.trans hmatch, hmunch.symm.trans hlength⟩

/-- A lexeme of a kind that only one word has is that word. -/
theorem eq_word {word : String} (h : Lexes modes kind value rest) (hkind : kind ≠ .invalid)
    (hrule : ∀ m : LexMode, ∀ r ∈ m.rules, r.kind = kind → r = .word kind word) :
    value = word.toList := by
  obtain ⟨r, hr, hr', hmunch⟩ := h.exists_rule hkind
  obtain ⟨m, hm⟩ := exists_mem_rules hr
  obtain rfl := hrule m r hm hr'
  rw [Rule.munch_word] at hmunch
  have hpos := List.length_pos_of_ne_nil h.value_ne
  split_ifs at hmunch with hprefix
  · have heq := List.prefix_iff_eq_take.1 hprefix
    rw [hmunch, List.take_left] at heq
    exact heq.symm
  · exact absurd hmunch (Nat.ne_of_lt hpos)

end Lexes

/-- Rules that match less than others do not matter for the longest match, although they stand in
front of these: only among equal matches does the first one count. -/
theorem longestMatch_append_of_lt {before rules : List Rule}
    (h : ∀ r ∈ before, r.pattern.munch text < (longestMatch rules text).2) :
    longestMatch (before ++ rules) text = longestMatch rules text := by
  induction rules using List.reverseRecOn with
  | nil =>
    cases before with
    | nil => rfl
    | cons r before => exact absurd (h r List.mem_cons_self) (Nat.not_lt_zero _)
  | append_singleton rules r ih =>
    rw [← List.append_assoc, longestMatch_append_singleton, longestMatch_append_singleton]
    rw [longestMatch_append_singleton] at h
    by_cases hlt : (longestMatch rules text).2 < r.pattern.munch text
    · -- The last rule decides: it takes more than the others in its list, and by assumption more
      -- than those in front of the list.
      rw [if_pos hlt] at h ⊢
      have hle : (longestMatch (before ++ rules) text).2 ≤ r.pattern.munch text - 1 := by
        refine longestMatch_le (List.forall_mem_append.2 ⟨fun r' hr' => ?_, fun r' hr' => ?_⟩)
        · exact Nat.le_sub_one_of_lt (h r' hr')
        · exact Nat.le_sub_one_of_lt (Nat.lt_of_le_of_lt (munch_le_longestMatch hr' text) hlt)
      rw [if_pos (by omega)]
    · rw [if_neg hlt] at h ⊢
      rw [ih h, if_neg hlt]

namespace Lexes

/-- Where a symbol may stand, the rules for single characters come first. -/
theorem activeRules_char : activeRules [.char, .base] = Rule.char ++ activeRules [.base] :=
  by decide

/-- Neither a quote nor a dollar sign begins a lexeme of statements. -/
theorem munch_char_le (hquote : c ≠ '\'') (hdollar : c ≠ '$') {r : Rule} (hr : r ∈ Rule.char.take 2)
    (cs : List Char) : r.pattern.munch (c :: cs) = 0 := by
  have hchar : ∀ (d : Char) (q : Pattern), c ≠ d →
      (Pattern.seq (.char d) q).munch (c :: cs) = 0 := by
    intro d q hne
    show (Pattern.seq (.set (.one d)) q).munchFrom 0 0 (c :: cs) = 0
    rw [Pattern.munchFrom_seq_set, if_neg]
    simpa [CharSet.contains] using hne.symm
  rcases List.mem_pair.1 (show r ∈ [_, _] from hr) with rfl | rfl
  · exact hchar '\'' _ hquote
  · exact hchar '$' _ hdollar

/-- A quote and a dollar sign are no lexemes of statements. -/
theorem first_ne (h : Lexes [.base] kind (c :: value) rest) (hkind : kind ≠ .invalid) :
    c ≠ '\'' ∧ c ≠ '$' := by
  have hfirst : ∀ d : Char, (activeRules [.base]).filter (fun r => !r.silent d) = [] → c ≠ d := by
    rintro _ hsilent rfl
    have hmatch := h.longestMatch_eq.1
    rw [List.cons_append, longestMatch_of_filter_eq_nil (value ++ rest) hsilent] at hmatch
    exact hkind hmatch.symm
  exact ⟨hfirst _ (by decide), hfirst _ (by decide)⟩

/-- A lexeme of statements that is longer than one character may stand where a symbol may. -/
theorem char_of_base (h : Lexes [.base] kind value rest) (hkind : kind ≠ .invalid)
    (hlength : 1 < value.length) :
    Lexes [.char, .base] kind value rest := by
  obtain ⟨c, cs, rfl⟩ := List.exists_cons_of_ne_nil h.value_ne
  obtain ⟨hquote, hdollar⟩ := h.first_ne hkind
  obtain ⟨hmatch, hmatched⟩ := h.longestMatch_eq
  have hlt : 1 < (longestMatch (activeRules [.base]) (c :: cs ++ rest)).2 := by
    split_ifs at hmatched
    · omega
    · omega
  -- The rules for symbols stand in front, but match at most one character here, so they do not win.
  have heq : longestMatch (activeRules [.char, .base]) (c :: cs ++ rest) =
      longestMatch (activeRules [.base]) (c :: cs ++ rest) := by
    rw [activeRules_char]
    refine longestMatch_append_of_lt fun r hr => ?_
    have hr' : r ∈ Rule.char.take 2 ++ [characterRule] := hr
    rcases List.mem_append.1 hr' with hr' | hr'
    · rw [List.cons_append, munch_char_le hquote hdollar hr']
      exact Nat.zero_lt_of_lt hlt
    · obtain rfl := List.mem_singleton.1 hr'
      exact Nat.lt_of_le_of_lt (munch_characterRule_le _) hlt
  exact of_longestMatch_eq h.value_ne h.kind_ne (heq ▸ hmatch) (heq ▸ hmatched)

/-- A single character that is a lexeme of statements is a character where a symbol may stand. -/
theorem character_of_base (h : Lexes [.base] kind [c] rest) (hkind : kind ≠ .invalid)
    (hblank : isBlank c = false) :
    Lexes [.char, .base] .character [c] rest := by
  obtain ⟨hquote, hdollar⟩ := h.first_ne hkind
  have hcharacter : characterRule.pattern.munch (c :: rest) = 1 := by
    show (Pattern.set .nonBlank).munchFrom 0 0 (c :: rest) = 1
    rw [Pattern.munchFrom_set, if_pos]
    simpa [CharSet.contains] using hblank
  refine of_longestMatch (List.cons_ne_nil _ _) ?_
  -- The rule for single characters stands in front of those for statements, none of which matches
  -- more.
  have hrules : activeRules [.char, .base] = Rule.char.take 2 ++ characterRule :: activeRules
      [.base] := by decide
  rw [List.singleton_append, hrules, longestMatch_append_cons, hcharacter]
  · rfl
  · rw [hcharacter]
    exact Nat.one_pos
  · intro r hr
    rw [hcharacter, munch_char_le hquote hdollar hr]
    exact Nat.one_pos
  · intro r hr
    rw [hcharacter]
    exact h.munch_le hr

end Lexes

/-! ## Next tokens -/

namespace SkipsBlanks

/-- What is skipped is a blank. -/
theorem isBlank (h : SkipsBlanks ignored) (hkind : ignored.contains kind = true) :
    kind.isBlank = true := by
  rcases h.others kind hkind with rfl | rfl | rfl <;> decide

/-- The end is not skipped under settings that skip blanks only. -/
theorem endOfInput (h : SkipsBlanks ignored) : ignored.contains .endOfInput = false :=
  h.contains_eq_false (by decide) (by decide) (by decide)

end SkipsBlanks

namespace Next

/-- Every text has a next token, the end of the input at the latest. Each token that is skipped
takes at least one character, so skipping comes to an end. -/
theorem exists_of_text (hskips : SkipsBlanks ignored) (modes : List LexMode) (text : List Char) :
    ∃ kind value rest, Next ⟨modes, ignored⟩ kind value rest text := by
  -- By the length of the text: a token that is skipped takes a character, and a shorter text is
  -- left.
  induction hlength : text.length using Nat.strongRecOn generalizing text with
  | ind n ih =>
    subst hlength
    by_cases htext : text = []
    · subst htext
      exact ⟨_, _, _, .stop rfl rfl rfl hskips.endOfInput⟩
    · obtain ⟨kind, value, rest, rfl, hlex⟩ := Lexes.exists_of_ne_nil modes htext
      cases hread : ignored.contains kind with
      | false => exact ⟨kind, value, rest, .token hlex hread⟩
      | true =>
        have hlt : rest.length < (value ++ rest).length := by
          rw [List.length_append]
          exact Nat.lt_add_of_pos_left (List.length_pos_of_ne_nil hlex.value_ne)
        obtain ⟨kind', value', rest', hnext⟩ := ih rest.length hlt rest rfl
        exact ⟨kind', value', rest', .skip hlex hread hnext⟩

/-- Under any modes the next token begins at the same place, since the same blanks are skipped under
all of them. What the token is may still be different. -/
theorem append_eq (hskips : SkipsBlanks ignored) (hbase : .base ∈ modes) (hbase' : .base ∈ modes')
    (h : Next ⟨modes, ignored⟩ kind value rest text)
    (h' : Next ⟨modes', ignored⟩ kind' value' rest' text) :
    value ++ rest = value' ++ rest' := by
  -- Both skip the same lexemes, one by one, until one of them reads a token: the other cannot skip
  -- that.
  induction h with
  | token hlex hread =>
    generalize htext : value ++ rest = text at h'
    cases h' with
    | token => rfl
    | stop => exact absurd (List.append_eq_nil_iff.1 htext).1 hlex.value_ne
    | skip hlex' hskip =>
      obtain ⟨rfl, -⟩ := hlex.unique (hlex'.of_isBlank (hskips.isBlank hskip) hbase' hbase) htext
      exact absurd hskip (by rw [hread]; exact Bool.false_ne_true)
  | stop hkind hvalue hrest =>
    generalize htext : ([] : List Char) = text at h'
    cases h' with
    | token hlex' => exact absurd (List.append_eq_nil_iff.1 htext.symm).1 hlex'.value_ne
    | stop _ hvalue' hrest' => rw [hvalue, hrest, hvalue', hrest']
    | skip hlex' => exact absurd (List.append_eq_nil_iff.1 htext.symm).1 hlex'.value_ne
  | @skip skipped first text hlex hskip hnext ih =>
    generalize htext : first ++ text = whole at h'
    have hblank := hlex.of_isBlank (hskips.isBlank hskip) hbase hbase'
    cases h' with
    | token hlex' hread' =>
      obtain ⟨rfl, -⟩ := hblank.unique hlex' htext
      exact absurd hskip (by rw [hread']; exact Bool.false_ne_true)
    | stop => exact absurd (List.append_eq_nil_iff.1 htext).1 hlex.value_ne
    | skip hlex' hskip' hnext' =>
      obtain ⟨-, -, rfl⟩ := hblank.unique hlex' htext
      exact ih hnext'

/-- The next token is a lexeme that is not skipped, or the end of the text. -/
theorem lexes (h : Next settings kind value rest text) :
    (Lexes settings.modes kind value rest ∧ settings.ignored.contains kind = false) ∨
      kind = .endOfInput ∧ value = [] ∧ rest = [] := by
  induction h with
  | token hlex hread => exact .inl ⟨hlex, hread⟩
  | stop hkind hvalue hrest => exact .inr ⟨hkind, hvalue, hrest⟩
  | skip _ _ _ ih => exact ih

/-- A text has only one next token. -/
theorem unique (hskips : SkipsBlanks ignored) (hbase : .base ∈ modes)
    (h : Next ⟨modes, ignored⟩ kind value rest text)
    (h' : Next ⟨modes, ignored⟩ kind' value' rest' text) :
    kind = kind' ∧ value = value' ∧ rest = rest' := by
  have htext := append_eq hskips hbase hbase h h'
  rcases h.lexes with ⟨hlex, -⟩ | ⟨rfl, rfl, rfl⟩
  · rcases h'.lexes with ⟨hlex', -⟩ | ⟨-, rfl, rfl⟩
    · exact hlex.unique hlex' htext
    · exact absurd (List.append_eq_nil_iff.1 htext).1 hlex.value_ne
  · rcases h'.lexes with ⟨hlex', -⟩ | ⟨rfl, rfl, rfl⟩
    · exact absurd (List.append_eq_nil_iff.1 htext.symm).1 hlex'.value_ne
    · exact ⟨rfl, rfl, rfl⟩

/-- The text of the next token and what is behind it are the end of the text. -/
theorem append_suffix (h : Next settings kind value rest text) : value ++ rest <:+ text := by
  induction h with
  | token => exact List.suffix_rfl
  | stop _ hvalue hrest =>
    rw [hvalue, hrest]
    exact List.suffix_rfl
  | skip _ _ _ ih => exact ih.trans (List.suffix_append _ _)

/-- What is behind the next token is the end of the text. -/
theorem suffix (h : Next settings kind value rest text) : rest <:+ text :=
  (List.suffix_append _ _).trans h.append_suffix

/-- Less text is left behind the next token, unless the text ends. -/
theorem length_lt (h : Next settings kind value rest text) (hkind : kind ≠ .endOfInput) :
    rest.length < text.length := by
  have hle := h.append_suffix.length_le
  rw [List.length_append] at hle
  rcases h.lexes with ⟨hlex, -⟩ | ⟨hend, -⟩
  · have hpos := List.length_pos_of_ne_nil hlex.value_ne
    omega
  · exact absurd hend hkind

/-- Under other modes the next token is what stands where it begins, if it is not to be skipped. The
blanks in front of it are the same. -/
theorem change_modes (hskips : SkipsBlanks ignored) (hbase : .base ∈ modes)
    (hbase' : .base ∈ modes') (h : Next ⟨modes, ignored⟩ kind value rest text)
    (hlex : Lexes modes' kind' value' rest') (hread : ignored.contains kind' = false)
    (htext : value ++ rest = value' ++ rest') :
    Next ⟨modes', ignored⟩ kind' value' rest' text := by
  induction h with
  | token =>
    rw [htext]
    exact .token hlex hread
  | stop _ hvalue hrest =>
    rw [hvalue, hrest] at htext
    exact absurd (List.append_eq_nil_iff.1 htext.symm).1 hlex.value_ne
  | skip hblank hskip _ ih =>
    exact .skip (hblank.of_isBlank (hskips.isBlank hskip) hbase hbase') hskip ih

/-- The end is next under all modes. -/
theorem change_modes_of_end (hskips : SkipsBlanks ignored) (hbase : .base ∈ modes)
    (hbase' : .base ∈ modes') (h : Next ⟨modes, ignored⟩ .endOfInput value rest text) :
    Next ⟨modes', ignored⟩ .endOfInput value rest text := by
  obtain ⟨kind', value', rest', h'⟩ := exists_of_text hskips modes' text
  have htext := append_eq hskips hbase hbase' h h'
  rcases h.lexes with ⟨hlex, -⟩ | ⟨-, rfl, rfl⟩
  · exact absurd rfl hlex.kind_ne
  · rcases h'.lexes with ⟨hlex', -⟩ | ⟨rfl, rfl, rfl⟩
    · exact absurd (List.append_eq_nil_iff.1 htext.symm).1 hlex'.value_ne
    · exact h'

/-- A token that is not a line end is next as well where line ends are skipped. -/
theorem ignore_newline (h : Next ⟨modes, ignored⟩ kind value rest text) (hkind : kind ≠ .newline) :
    Next ⟨modes, .newline :: ignored⟩ kind value rest text := by
  have hread : ∀ k, k ≠ .newline → ignored.contains k = false →
      (TokenKind.newline :: ignored).contains k = false :=
    fun k hk hread => by rw [List.contains_cons, hread, beq_eq_false_iff_ne.2 hk, Bool.or_self]
  induction h with
  | token hlex hread' => exact .token hlex (hread _ hkind hread')
  | stop hend hvalue hrest hread' => exact .stop hend hvalue hrest (hread _ (by decide) hread')
  | skip hlex hskip _ ih =>
    refine .skip hlex ?_ ih
    show (TokenKind.newline :: ignored).contains _ = true
    rw [List.contains_cons, show ignored.contains _ = true from hskip, Bool.or_true]

/-- Blanks in front of a text do not change its next token, nor what is left behind it, since
reading skips them under all settings that skip blanks. -/
theorem blanks_iff (hskips : SkipsBlanks ignored) (hbase : .base ∈ modes) {gap : List Char}
    (hgap : gap.all Written.isSpace = true) :
    Next ⟨modes, ignored⟩ kind value rest (gap ++ text) ↔
      Next ⟨modes, ignored⟩ kind value rest text := by
  -- Either text has the next token of what is behind all of its blanks.
  have hstrip : ∀ spaces : List Char, spaces.all Written.isSpace = true → ∀ text : List Char,
      (∀ c ∈ text.head?, Written.isSpace c = false) → ∀ kind value rest,
        Next ⟨modes, ignored⟩ kind value rest (spaces ++ text) ↔
          Next ⟨modes, ignored⟩ kind value rest text := by
    intro spaces hspaces text htext
    have hskip : ∀ {kind value rest}, Next ⟨modes, ignored⟩ kind value rest text →
        Next ⟨modes, ignored⟩ kind value rest (spaces ++ text) := by
      intro kind value rest h
      by_cases hne : spaces = []
      · rw [hne]
        exact h
      · have hspace : Lexes [.base] .whitespace spaces text :=
          Lexes.space (.inl rfl) hne hspaces htext
        exact .skip (hspace.of_isBlank (by decide) (by decide) hbase) hskips.whitespace h
    refine fun kind value rest => ⟨fun h => ?_, hskip⟩
    obtain ⟨kind', value', rest', h'⟩ := exists_of_text hskips modes text
    obtain ⟨rfl, rfl, rfl⟩ := h.unique hskips hbase (hskip h')
    exact h'
  have hhead : ∀ c ∈ (text.dropWhile Written.isSpace).head?, Written.isSpace c = false := by
    intro c hc
    have hnot := List.head?_dropWhile_not Written.isSpace text
    rw [Option.mem_def.1 hc] at hnot
    exact hnot
  have hspaces : (text.takeWhile Written.isSpace).all Written.isSpace = true := List.all_takeWhile
  have hall : (gap ++ text.takeWhile Written.isSpace).all Written.isSpace = true := by
    rw [List.all_append, hgap, hspaces, Bool.and_self]
  rw [← List.takeWhile_append_dropWhile (p := Written.isSpace) (l := text), ← List.append_assoc]
  exact (hstrip _ hall _ hhead _ _ _).trans (hstrip _ hspaces _ hhead _ _ _).symm

end Next

end MachineLang
