import MachineLang.Proofs.Lexemes
import MachineLang.Proofs.Places

/-!
# Blanks under all modes

White space, line ends and comments are the same under every stack of modes that holds the rules of
statements (`Cursor.lex_eq_of_isBlank`). So what reading moves over does not depend on the mode that
it reads under (`Unbuffered.skip_eq_of_modes`), and it moves the further the more kinds it skips
(`Unbuffered.skip_le_of_subset`).
-/

namespace MachineLang

/-- Whether tokens of the kind only separate others. -/
def TokenKind.isBlank (kind : TokenKind) : Bool := [.whitespace, .newline, .comment].contains kind

/-- The rules for blanks: white space, line ends and comments. -/
def Rule.blanks : List Rule := Rule.base.filter fun r => r.kind.isBlank

/-- The rule for comments. -/
def Rule.comment : Rule :=
  ⟨.comment, .seq (.char '/') (.seq (.char '/') (.star (.set (.noneOf [.one '\n']))))⟩

/-! ## The rules for blanks -/

/-- A longest match that takes some text is one of a rule in the list, with the kind of this rule
and the length that its pattern reaches. -/
theorem longestMatch_pos {rules : List Rule} {text : List Char}
    (h : 0 < (longestMatch rules text).2) :
    ∃ r ∈ rules, (longestMatch rules text).1 = r.kind ∧
      (longestMatch rules text).2 = r.pattern.munch text := by
  induction rules using List.reverseRecOn with
  | nil => exact absurd h (Nat.lt_irrefl 0)
  | append_singleton rules r ih =>
    rw [longestMatch_append_singleton] at h ⊢
    split_ifs at h ⊢
    · exact ⟨r, List.mem_append_right _ List.mem_cons_self, rfl, rfl⟩
    · obtain ⟨r', hr', heq⟩ := ih h
      exact ⟨r', List.mem_append_left _ hr', heq⟩

/-- Without a match there is no kind. -/
theorem longestMatch_zero {rules : List Rule} {text : List Char}
    (h : (longestMatch rules text).2 = 0) :
    (longestMatch rules text).1 = .invalid := by
  induction rules using List.reverseRecOn with
  | nil => rfl
  | append_singleton rules r ih =>
    rw [longestMatch_append_singleton] at h ⊢
    split_ifs at h ⊢ with hlt
    · exact absurd hlt (by rw [show r.pattern.munch text = 0 from h]; exact Nat.not_lt_zero _)
    · exact ih h

/-- No rule matches more than the longest match, wherever it stands in the list. The order only
decides between matches of the same length. -/
theorem munch_le_longestMatch {rules : List Rule} {r : Rule} (hr : r ∈ rules) (text : List Char) :
    r.pattern.munch text ≤ (longestMatch rules text).2 := by
  -- The search keeps the first rule of the greatest length, so the induction adds rules at the end.
  induction rules using List.reverseRecOn with
  | nil => exact absurd hr List.not_mem_nil
  | append_singleton rules r' ih =>
    rw [longestMatch_append_singleton]
    rcases List.mem_append.1 hr with hr | hr
    · have hle := ih hr
      split_ifs with hlt
      · exact Nat.le_trans hle (Nat.le_of_lt hlt)
      · exact hle
    · obtain rfl := List.mem_singleton.1 hr
      split_ifs with hlt
      · exact Nat.le_refl _
      · exact Nat.not_lt.1 hlt

section Active

variable {modes : List LexMode}

/-- The rules for blanks are in force wherever the rules of statements are. -/
theorem mem_activeRules_of_blank (hbase : .base ∈ modes) {r : Rule} (hr : r ∈ Rule.blanks) :
    r ∈ activeRules modes := by
  refine mem_activeRules_of_owner hbase (List.mem_of_mem_filter hr) fun m hm => ?_
  have howns : ∀ r ∈ Rule.blanks, m.owns r.kind = false := by
    cases m with
    | base => exact absurd rfl hm
    | char => decide
    | grammar => decide
  exact howns r hr

/-- A rule in force that is one for blanks is a rule of statements. -/
theorem mem_blanks_of_activeRules {r : Rule} (hr : r ∈ activeRules modes)
    (hkind : r.kind.isBlank = true) :
    r ∈ Rule.blanks := by
  -- A finite check over the three tables of rules; what is left is that the rules in force come
  -- from them.
  have hmode : ∀ m : LexMode, ∀ r ∈ m.rules, r.kind.isBlank = true → r ∈ Rule.blanks := by
    intro m
    cases m with
    | base => decide
    | char => decide
    | grammar => decide
  induction modes with
  | nil => exact absurd hr List.not_mem_nil
  | cons m outer ih =>
    rcases List.mem_append.1 hr with hr | hr
    · exact hmode m r hr hkind
    · exact ih (List.mem_of_mem_filter hr)

/-- What a rule in force does where a blank begins: it is silent, the rule for that blank, or takes
a single character. -/
theorem munch_le_of_blank {r : Rule} (hr : r ∈ activeRules modes) {c : Char} (cs : List Char)
    (hc : c = ' ' ∨ c = '\t' ∨ c = '\r' ∨ c = '\n' ∨ c = '/') :
    r ∈ Rule.blanks ∨ r.pattern.munch (c :: cs) = 0 ∨ c = '/' ∧ r.pattern.munch (c :: cs) ≤ 1 := by
  -- For each of the five characters, every rule of the three tables is for blanks, or silent there,
  -- or the one of the character mode that takes anything.
  have hmode : ∀ m : LexMode, ∀ r ∈ m.rules,
      r ∈ Rule.blanks ∨ r.silent c = true ∨ c = '/' ∧ r = Lexes.characterRule := by
    intro m
    rcases hc with rfl | rfl | rfl | rfl | rfl <;> cases m <;> decide
  induction modes with
  | nil => exact absurd hr List.not_mem_nil
  | cons m outer ih =>
    rcases List.mem_append.1 hr with hr | hr
    · rcases hmode m r hr with hblank | hsilent | ⟨hslash, rfl⟩
      · exact .inl hblank
      · exact .inr (.inl (Rule.munch_of_silent hsilent))
      · exact .inr (.inr ⟨hslash, Lexes.munch_characterRule_le cs⟩)
    · exact ih (List.mem_of_mem_filter hr)

end Active

/-- A pattern that goes on reading never forgets a longer match: it reaches at least as far as the
best end it has seen, whether or not the rest of the text fits it. -/
theorem Pattern.le_munchFrom {p : Pattern} {read best : Nat} (h : best ≤ read) (text : List Char) :
    best ≤ p.munchFrom read best text := by
  induction text generalizing p read best with
  | nil =>
    show best ≤ if p.nullable then read else best
    split_ifs
    · exact h
    · exact Nat.le_refl best
  | cons c cs ih =>
    -- Whether the pattern may end here or not, what was reached before is not lost.
    have hbest : best ≤ if p.nullable then read else best := by
      split_ifs
      · exact h
      · exact Nat.le_refl best
    have hread : (if p.nullable then read else best) ≤ read + 1 := by
      split_ifs <;> omega
    rw [munchFrom]
    generalize (if p.nullable then read else best) = best' at *
    split_ifs
    · exact hbest
    · exact Nat.le_trans hbest (ih hread)

/-- A run reaches at least as far as where it begins. -/
theorem Pattern.le_munchFrom_star {p : Pattern} {read best : Nat} (text : List Char) :
    read ≤ (star p).munchFrom read best text := by
  cases text with
  | nil => exact Nat.le_refl read
  | cons c cs => exact le_munchFrom (Nat.le_succ read) cs

/-- The blank that a rule for blanks matches is told by its first character; a comment has two
characters or more. -/
theorem first_of_blank {r : Rule} (hr : r ∈ Rule.blanks) {c : Char} {cs : List Char}
    (hpos : 0 < r.pattern.munch (c :: cs)) :
    (r.kind = .whitespace ∧ (c = ' ' ∨ c = '\t' ∨ c = '\r')) ∨ (r.kind = .newline ∧ c = '\n') ∨
      (r.kind = .comment ∧ c = '/' ∧ 2 ≤ r.pattern.munch (c :: cs)) := by
  -- There are three such rules, and each one settles its first character.
  have hcases : ∀ r ∈ Rule.blanks,
      r = ⟨.whitespace, .plus (.set (.oneOf [.one ' ', .one '\t', .one '\r']))⟩ ∨
      r = .word .newline "\n" ∨ r = .comment := by
    decide
  rcases hcases r hr with rfl | rfl | rfl
  · refine .inl ⟨rfl, ?_⟩
    by_contra hne
    have hsilent : Rule.silent c
        ⟨.whitespace, .plus (.set (.oneOf [.one ' ', .one '\t', .one '\r']))⟩ = true := by
      have hset : CharSet.contains (.oneOf [.one ' ', .one '\t', .one '\r']) c = false := by
        simp only [CharSet.contains, List.any_cons, List.any_nil, SetItem.contains, Bool.or_false,
          Bool.or_eq_false_iff, beq_eq_false_iff_ne]
        grind
      unfold Rule.silent Pattern.after
      rw [Pattern.after_set, hset]
      rfl
    rw [Rule.munch_of_silent hsilent] at hpos
    exact Nat.lt_irrefl 0 hpos
  · rw [Rule.munch_word] at hpos
    split_ifs at hpos with hprefix
    · obtain ⟨more, hmore⟩ := hprefix
      exact .inr (.inl ⟨rfl, (List.cons.inj hmore).1.symm⟩)
    · exact absurd hpos (Nat.lt_irrefl 0)
  · unfold Pattern.munch Rule.comment Pattern.char at hpos ⊢
    dsimp only at hpos ⊢
    rw [Pattern.munchFrom_seq_set] at hpos ⊢
    split_ifs at hpos ⊢ with hfirst
    · cases cs with
      | nil => exact absurd hpos (Nat.lt_irrefl 0)
      | cons d cs =>
        rw [Pattern.munchFrom_seq_set] at hpos ⊢
        split_ifs at hpos ⊢ with hsecond
        · exact .inr (.inr ⟨rfl, (beq_iff_eq.1 hfirst).symm, Pattern.le_munchFrom_star cs⟩)
        · exact absurd hpos (Nat.lt_irrefl 0)
    · exact absurd hpos (Nat.lt_irrefl 0)

/-- Where a blank stands, it is the longest match under all modes. No rule of another mode matches
there, except one for a slash alone, and then the blank is a comment, which is longer. -/
theorem longestMatch_activeRules {modes : List LexMode} (hbase : .base ∈ modes) {text : List Char}
    (hpos : 0 < (longestMatch Rule.blanks text).2) :
    longestMatch (activeRules modes) text = longestMatch Rule.blanks text := by
  cases text with
  | nil => exact absurd hpos (by decide)
  | cons c cs =>
    obtain ⟨r, hr, hkind, hlength⟩ := longestMatch_pos hpos
    have hrpos := hpos
    rw [hlength] at hrpos
    have hactive := munch_le_longestMatch (mem_activeRules_of_blank hbase hr) (c :: cs)
    obtain ⟨r', hr', hkind', hlength'⟩ := longestMatch_pos (Nat.lt_of_lt_of_le hrpos hactive)
    have hfirst := first_of_blank hr hrpos
    have hc : c = ' ' ∨ c = '\t' ∨ c = '\r' ∨ c = '\n' ∨ c = '/' := by tauto
    -- No other rule takes as much, so the longest match is one for a blank as well.
    have hblank : r' ∈ Rule.blanks := by
      rcases munch_le_of_blank hr' cs hc with hblank | hzero | ⟨rfl, hone⟩
      · exact hblank
      · omega
      · have htwo : 2 ≤ r.pattern.munch ('/' :: cs) := by
          rcases hfirst with ⟨-, hc⟩ | ⟨-, hc⟩ | ⟨-, -, htwo⟩
          · exact absurd hc (by decide)
          · exact absurd hc (by decide)
          · exact htwo
        omega
    have hle := munch_le_longestMatch hblank (c :: cs)
    have hfirst' := first_of_blank hblank (show 0 < r'.pattern.munch (c :: cs) by omega)
    have hsame : r'.kind = r.kind := by grind
    exact Prod.ext (by rw [hkind, hkind', hsame]) (by omega)

/-- Where no blank stands, the longest match is none under any modes, because all rules for blanks
are among those of the base mode. -/
theorem isBlank_longestMatch (modes : List LexMode) {text : List Char}
    (hzero : (longestMatch Rule.blanks text).2 = 0) :
    (longestMatch (activeRules modes) text).1.isBlank = false := by
  by_contra hblank
  rw [Bool.not_eq_false] at hblank
  have hpos : 0 < (longestMatch (activeRules modes) text).2 := by
    by_contra hnot
    rw [longestMatch_zero (Nat.eq_zero_of_not_pos hnot)] at hblank
    exact absurd hblank (by decide)
  obtain ⟨r, hr, hkind, hlength⟩ := longestMatch_pos hpos
  have hle := munch_le_longestMatch (mem_blanks_of_activeRules hr (hkind ▸ hblank)) text
  omega

namespace Cursor

/-- A blank is cut off the same under all modes, so it does not matter under which one the blanks in
front of a token were read. -/
theorem lex_eq_of_isBlank {modes modes' : List LexMode} (hbase : .base ∈ modes)
    (hbase' : .base ∈ modes') {c : Cursor}
    (hblank : (c.lex (activeRules modes)).1.kind.isBlank = true) :
    c.lex (activeRules modes') = c.lex (activeRules modes) := by
  obtain ⟨l, text⟩ := c
  cases text with
  | nil => rfl
  | cons d ds =>
    -- A token is a blank only if a rule for blanks matched, and that match is the longest under any
    -- modes.
    by_cases hpos : 0 < (longestMatch Rule.blanks (d :: ds)).2
    · unfold lex
      dsimp only
      rw [longestMatch_activeRules hbase hpos, longestMatch_activeRules hbase' hpos]
    · have hnone := isBlank_longestMatch modes (Nat.eq_zero_of_not_pos hpos)
      have hkind : (lex (activeRules modes) ⟨l, d :: ds⟩).1.kind =
          (longestMatch (activeRules modes) (d :: ds)).1 :=
        rfl
      rw [hkind, hnone] at hblank
      exact absurd hblank Bool.false_ne_true

end Cursor

/-! ## Moving over blanks -/

/-- Settings under which the rules of statements are in force, and only blanks are skipped. -/
structure Settings.Ordinary (settings : Settings) : Prop where
  /-- The rules of statements are in force. -/
  base_mem : .base ∈ settings.modes
  /-- Only blanks are skipped, and the end. -/
  isBlank : ∀ kind ∈ settings.ignored, kind.isBlank = true ∨ kind = .endOfInput

namespace Settings.Ordinary

variable {settings : Settings}

/-- The settings of a fresh stream are ordinary. -/
theorem initial : Settings.initial.Ordinary := ⟨by decide, by decide⟩

/-- A mode may be put on top. -/
theorem push (h : settings.Ordinary) (mode : LexMode) : (settings.push mode).Ordinary :=
  ⟨List.mem_cons_of_mem _ h.base_mem, h.isBlank⟩

/-- Fewer kinds may be skipped: the settings stay ordinary. -/
theorem intercept (h : settings.Ordinary) (kinds : List TokenKind) :
    (settings.intercept kinds).Ordinary :=
  ⟨h.base_mem, fun kind hkind => h.isBlank kind (List.mem_of_mem_filter hkind)⟩

/-- More blanks may be skipped: the settings stay ordinary. -/
theorem ignore (h : settings.Ordinary) {kinds : List TokenKind}
    (hkinds : ∀ kind ∈ kinds, kind.isBlank = true) :
    (settings.ignore kinds).Ordinary := by
  refine ⟨h.base_mem, fun kind hkind => ?_⟩
  rcases List.mem_append.1 hkind with hkind | hkind
  · exact .inl (hkinds kind hkind)
  · exact h.isBlank kind hkind

end Settings.Ordinary

namespace Unbuffered

variable {u : Unbuffered}

/-- A skipped token is a blank. -/
theorem isBlank_of_isIgnored (h : u.settings.Ordinary) (hend : u.token.kind ≠ .endOfInput)
    (hignored : u.isIgnored u.token.kind = true) : u.token.kind.isBlank = true :=
  (h.isBlank _ (List.contains_iff_mem.1 hignored)).resolve_right hend

/-- Under other modes reading moves over the same blanks, and stops in front of the same text. Only
then does the mode matter: it decides what the next token is. -/
theorem skip_eq_of_modes (h : u.settings.Ordinary) {modes : List LexMode} (hbase : .base ∈ modes) :
    (u.apply ⟨modes, u.settings.ignored⟩).skip = u.skip.apply ⟨modes, u.settings.ignored⟩ := by
  -- The blanks are the same lexemes under all modes, so both readings skip the same tokens.
  induction u using skip.induct with
  | case1 u hend =>
    have hend' : (u.apply ⟨modes, u.settings.ignored⟩).token.kind = .endOfInput :=
      (Cursor.kind_lex_eq_iff modes u.cursor).2
        ((Cursor.kind_lex_eq_iff u.settings.modes u.cursor).1 hend)
    rw [skip_of_end hend', skip_of_end hend]
  | case2 u hend hignored ih =>
    have hblank := isBlank_of_isIgnored h hend hignored
    have htoken : (u.apply ⟨modes, u.settings.ignored⟩).token = u.token :=
      congrArg Prod.fst (Cursor.lex_eq_of_isBlank h.base_mem hbase hblank)
    have hpass : (u.apply ⟨modes, u.settings.ignored⟩).pass = u.pass.apply
        ⟨modes, u.settings.ignored⟩ := by
      unfold pass
      rw [htoken]
      rfl
    rw [skip_of_isIgnored (htoken ▸ hend) (htoken ▸ hignored), hpass,
      skip_of_isIgnored hend hignored]
    exact ih h
  | case3 u hend hignored =>
    have hend' : (u.apply ⟨modes, u.settings.ignored⟩).token.kind ≠ .endOfInput := fun hkind =>
      hend ((Cursor.kind_lex_eq_iff u.settings.modes u.cursor).2
        ((Cursor.kind_lex_eq_iff modes u.cursor).1 hkind))
    have hignored' : ¬ (u.apply ⟨modes, u.settings.ignored⟩).isIgnored
        (u.apply ⟨modes, u.settings.ignored⟩).token.kind = true := by
      intro hskip
      have hblank := (h.isBlank _ (List.contains_iff_mem.1 hskip)).resolve_right hend'
      have htoken : u.token = (u.apply ⟨modes, u.settings.ignored⟩).token :=
        congrArg Prod.fst (Cursor.lex_eq_of_isBlank hbase h.base_mem hblank)
      exact hignored (htoken ▸ hskip)
    rw [skip_of_not_isIgnored hend' hignored', skip_of_not_isIgnored hend hignored]

/-- Where more kinds are skipped, reading first moves over what it skips anyway. So a stream may be
moved on under the settings of a line before it is read under those of a body. -/
theorem skip_skip_of_subset {settings : Settings} (hmodes : settings.modes = u.settings.modes)
    (hsubset : u.settings.ignored ⊆ settings.ignored) :
    (u.apply settings).skip = (u.skip.apply settings).skip := by
  induction u using skip.induct with
  | case1 u hend => rw [skip_of_end hend]
  | case2 u hend hignored ih =>
    -- What this state skips the other one skips as well, one token at a time.
    have htoken : (u.apply settings).token = u.token := by
      unfold token
      rw [show (u.apply settings).settings.modes = u.settings.modes from hmodes]
      rfl
    have hpass : (u.apply settings).pass = u.pass.apply settings := by
      unfold pass
      rw [htoken]
      rfl
    have hmore : (u.apply settings).isIgnored (u.apply settings).token.kind = true := by
      rw [htoken]
      exact List.contains_iff_mem.2 (hsubset (List.contains_iff_mem.1 hignored))
    rw [skip_of_isIgnored hend hignored, skip_of_isIgnored (htoken ▸ hend) hmore, hpass]
    exact ih hmodes hsubset
  | case3 u hend hignored => rw [skip_of_not_isIgnored hend hignored]

/-- The token behind the skipped ones is not skipped, unless the text ends. -/
theorem kind_token_skip (u : Unbuffered) :
    u.skip.token.kind = .endOfInput ∨ u.isIgnored u.skip.token.kind = false := by
  induction u using skip.induct with
  | case1 u hend => exact .inl (by rw [skip_of_end hend, hend])
  | case2 u hend hignored ih =>
    rw [skip_of_isIgnored hend hignored]
    exact ih
  | case3 u hend hignored =>
    rw [skip_of_not_isIgnored hend hignored]
    exact .inr (Bool.eq_false_of_not_eq_true hignored)

/-- Where more kinds are skipped, reading goes on to the same token if that is not one of them. -/
theorem place_skip_eq_of_subset {settings : Settings} (hmodes : settings.modes = u.settings.modes)
    (hsubset : u.settings.ignored ⊆ settings.ignored)
    (hkind : u.skip.token.kind = .endOfInput ∨ settings.ignored.contains u.skip.token.kind = false)
    (hsettings : u.skip.settings = u.settings) : (u.apply settings).skip.place = u.skip.place := by
  have htoken : (u.skip.apply settings).token = u.skip.token := by
    unfold token
    rw [show (u.skip.apply settings).settings.modes = u.skip.settings.modes from hsettings ▸ hmodes]
    rfl
  rw [skip_skip_of_subset hmodes hsubset]
  -- Behind what both skip, the other one stops at once: the token is none that it ignores.
  by_cases hend : u.skip.token.kind = .endOfInput
  · rw [skip_of_end (htoken ▸ hend)]
    rfl
  · have hread := hkind.resolve_left hend
    rw [skip_of_not_isIgnored (htoken ▸ hend)]
    · rfl
    · rw [htoken]
      exact fun h => Bool.false_ne_true (hread.symm.trans h)

/-- Where the last token ended does not matter for what is skipped. -/
theorem place_skip_with_lastEnd (u : Unbuffered) (l : Location) :
    ({ u with lastEnd := l } : Unbuffered).skip.place = u.skip.place := by
  induction u using skip.induct with
  | case1 u hend =>
    have hend' : ({ u with lastEnd := l } : Unbuffered).token.kind = .endOfInput := hend
    rw [skip_of_end hend, skip_of_end hend']
  | case2 u hend hignored ih =>
    have hend' : ({ u with lastEnd := l } : Unbuffered).token.kind ≠ .endOfInput := hend
    rw [skip_of_isIgnored hend hignored, skip_of_isIgnored hend' hignored]
    exact ih
  | case3 u hend hignored =>
    have hend' : ({ u with lastEnd := l } : Unbuffered).token.kind ≠ .endOfInput := hend
    rw [skip_of_not_isIgnored hend hignored, skip_of_not_isIgnored hend' hignored]

end Unbuffered

end MachineLang
