import MachineLang.Proofs.TransitionTexts

/-!
# Exchanging what follows

A text `t` may stand in front of one ending, `r`, in one source and in front of another one, `r'`,
in another source. The two are a `Seam` if each token that is cut inside the text when the one
ending follows is cut alike when the other one follows. Where the next token lies inside the text,
both sources look `Alike` under all settings with which a line is read. Recognizers that go from one
such place to the next read the same in both sources (`Carries`); a `Walk` leads over the tokens
between.
-/

namespace MachineLang

open Recognizer

variable {settings settings' : Settings} {kind kind' : TokenKind}
  {value value' rest rest' text r r' t t' : List Char} {modes : List LexMode}
  {ignored : List TokenKind} {β β' : Type}

/-! ## Settings -/

/-- Whether tokens of the kind are no blanks, no errors and not the end. -/
def TokenKind.isSolid (kind : TokenKind) : Bool :=
  !(kind == .invalid || kind == .endOfInput || kind.isBlank)

/-- A solid kind is none that is not. -/
theorem ne_of_isSolid {other : TokenKind} (h : kind.isSolid = true)
    (hother : other.isSolid = false) :
    kind ≠ other := by
  rintro rfl
  rw [h] at hother
  exact Bool.false_ne_true hother.symm

/-- The blanks of a line, which are skipped wherever line ends are not. -/
abbrev lineBlanks : List TokenKind := [.whitespace, .comment]

/-- The settings with which a line is read: words or symbols, with line ends or, in brackets,
without. -/
structure Settings.OfLine (settings : Settings) : Prop where
  /-- Words or symbols are read. -/
  modes : settings.modes = [.base] ∨ settings.modes = [.char, .base]
  /-- Blanks and comments are skipped, and perhaps line ends. -/
  ignored : settings.ignored = lineBlanks ∨ settings.ignored = .newline :: lineBlanks

/-- The settings with which symbols are read in brackets, where the longest tokens are cut. -/
def Settings.widest : Settings := ⟨[.char, .base], .newline :: lineBlanks⟩

namespace Settings.OfLine

/-- Only blanks are skipped under the settings of a line. -/
theorem skips (h : settings.OfLine) : SkipsBlanks settings.ignored := by
  rcases h.ignored with hignored | hignored
  · rw [hignored]
    exact .body
  · rw [hignored]
    exact SkipsBlanks.body.newline

/-- The rules for words are in force. -/
theorem base_mem (h : settings.OfLine) : LexMode.base ∈ settings.modes := by
  rcases h.modes with hmodes | hmodes <;> rw [hmodes] <;> decide

/-- Words are read line by line. -/
theorem line : Settings.OfLine ⟨[.base], lineBlanks⟩ := ⟨.inl rfl, .inl rfl⟩

/-- In brackets words are read across lines. -/
theorem brackets : Settings.OfLine ⟨[.base], .newline :: lineBlanks⟩ := ⟨.inl rfl, .inr rfl⟩

/-- The widest settings are among them. -/
theorem widest : Settings.widest.OfLine := ⟨.inr rfl, .inr rfl⟩

/-- Symbols are read with the blanks that are skipped for words. -/
theorem symbols (h : Settings.OfLine ⟨modes, ignored⟩) :
    Settings.OfLine ⟨[.char, .base], ignored⟩ :=
  ⟨.inr rfl, h.ignored⟩

end Settings.OfLine

/-! ## Where tokens end -/

/-- No lexeme for words is longer than the one for symbols, because all rules of the base mode are
in force there as well. -/
theorem Lexes.length_le_of_char (h : Lexes [.base] kind value rest)
    (h' : Lexes [.char, .base] kind' value' rest') (htext : value ++ rest = value' ++ rest') :
    value.length ≤ value'.length := by
  obtain ⟨-, hlength⟩ := h.longestMatch_eq
  have hpos := List.length_pos_of_ne_nil h'.value_ne
  have hle : (longestMatch (activeRules [.base]) (value ++ rest)).2 ≤ value'.length := by
    refine longestMatch_le fun rule hrule => ?_
    rw [htext]
    refine h'.munch_le ?_
    rw [activeRules_char]
    exact List.mem_append_right _ hrule
  split_ifs at hlength
  · omega
  · omega

/-- The codes of the characters that are white space. -/
def whiteSpaceCodes : List Nat :=
  [0x9, 0xA, 0xB, 0xC, 0xD, 0x20, 0x85, 0xA0, 0x1680, 0x2000, 0x2001, 0x2002, 0x2003, 0x2004,
   0x2005, 0x2006, 0x2007, 0x2008, 0x2009, 0x200A, 0x2028, 0x2029, 0x202F, 0x205F, 0x3000]

/-- No lexeme of the base mode but a blank begins with white space, so what stands in front of a
token is skipped and never a part of it. -/
theorem Lexes.isBlank_eq_false {c : Char} (h : Lexes [.base] kind (c :: value) rest)
    (hkind : kind ≠ .invalid) (hblank : kind.isBlank = false) : isBlank c = false := by
  by_contra hc
  -- For each of the codes, every rule is one for blanks or matches nothing.
  have hcode : c.toNat ∈ whiteSpaceCodes := by
    simp only [isBlank, Bool.or_eq_true, Bool.and_eq_true, decide_eq_true_eq, beq_iff_eq,
      Bool.not_eq_false] at hc
    simp only [whiteSpaceCodes, List.mem_cons, List.not_mem_nil, or_false]
    omega
  have hsilent : ∀ n ∈ whiteSpaceCodes, ∀ r ∈ activeRules [.base],
      r.kind.isBlank = true ∨ r.silent (Char.ofNat n) = true := by
    decide +kernel
  obtain ⟨r, hr, rfl, hmunch⟩ := h.exists_rule hkind
  rcases hsilent _ hcode r hr with hisBlank | hsilent
  · rw [hblank] at hisBlank
    exact Bool.false_ne_true hisBlank
  · rw [Char.ofNat_toNat] at hsilent
    rw [List.cons_append, Rule.munch_of_silent hsilent] at hmunch
    exact absurd hmunch (Nat.succ_ne_zero _).symm

namespace Next

/-- A word is as long as a symbol: where symbols may stand it is cut off in the same way, except
that a word of one character is taken as that character. -/
theorem symbol_of_word (hskips : SkipsBlanks ignored)
    (h : Next ⟨[.base], ignored⟩ kind value rest text) (hsolid : kind.isSolid = true) :
    ∃ kind', (kind' = kind ∧ 1 < value.length ∨ kind' = .character ∧ value.length = 1) ∧
      Next ⟨[.char, .base], ignored⟩ kind' value rest text := by
  have hkind : kind ≠ .invalid := by rintro rfl; exact absurd hsolid (by decide)
  have hblank : kind.isBlank = false := by
    cases kind <;> first | rfl | exact absurd hsolid (by decide)
  rcases h.lexes with ⟨hlex, hread⟩ | ⟨rfl, -⟩
  · -- Where symbols may stand, a word of two characters or more is still the longest match, and a
    -- word of one character is taken as that character.
    by_cases hlength : 1 < value.length
    · exact ⟨kind, .inl ⟨rfl, hlength⟩, h.change_modes hskips (by decide) (by decide)
        (hlex.char_of_base hkind hlength) hread rfl⟩
    · have hpos := List.length_pos_of_ne_nil hlex.value_ne
      obtain ⟨c, rfl⟩ := List.length_eq_one_iff.1 (by omega : value.length = 1)
      refine ⟨.character, .inr ⟨rfl, rfl⟩, h.change_modes hskips (by decide) (by decide)
        (hlex.character_of_base hkind (hlex.isBlank_eq_false hkind hblank)) ?_ rfl⟩
      exact hskips.contains_eq_false (by decide) (by decide) (by decide)
  · exact absurd hsolid (by decide)

/-- Under the widest settings a word ends at the same place, and is that word or a single
character. -/
theorem widest_of_word (hsettings : Settings.OfLine ⟨[.base], ignored⟩)
    (h : Next ⟨[.base], ignored⟩ kind value rest text) (hsolid : kind.isSolid = true) :
    ∃ kind', (kind' = kind ∧ 1 < value.length ∨ kind' = .character ∧ value.length = 1) ∧
      Next .widest kind' value rest text := by
  obtain ⟨kind', hkind', hnext⟩ := h.symbol_of_word hsettings.skips hsolid
  refine ⟨kind', hkind', ?_⟩
  -- The widest settings differ from these in the modes, and in the line end if that is skipped.
  rcases hsettings.ignored with hignored | hignored
  · dsimp only at hignored
    subst hignored
    refine hnext.ignore_newline ?_
    rintro rfl
    rcases hkind' with ⟨rfl, -⟩ | ⟨h, -⟩
    · exact absurd hsolid (by decide)
    · exact absurd h (by decide)
  · dsimp only at hignored
    subst hignored
    exact hnext

/-- Under the widest settings an arrow is an arrow. -/
theorem widest_of_arrow (hsettings : Settings.OfLine ⟨[.base], ignored⟩)
    (h : Next ⟨[.base], ignored⟩ .arrow value rest text) : Next .widest .arrow value rest text := by
  obtain ⟨kind', ⟨rfl, -⟩ | ⟨-, hlength⟩, hnext⟩ := h.widest_of_word hsettings (by decide)
  · exact hnext
  · rcases h.lexes with ⟨hlex, -⟩ | ⟨h, -⟩
    · have hvalue : value = "->".toList := hlex.eq_word (by decide) (by intro m; cases m <;> decide)
      rw [hvalue] at hlength
      exact absurd hlength (by decide)
    · exact absurd h (by decide)

/-- Under the widest settings a word is of none but its own kind, unless it is a character. -/
theorem widest_of_word_ne (hsettings : Settings.OfLine ⟨[.base], ignored⟩)
    (h : Next ⟨[.base], ignored⟩ kind value rest text) (hsolid : kind.isSolid = true) :
    ∃ kind', (∀ other, kind ≠ other → other ≠ .character → kind' ≠ other) ∧
      Next .widest kind' value rest text := by
  obtain ⟨kind', hkind', hnext⟩ := h.widest_of_word hsettings hsolid
  refine ⟨kind', fun other hne hcharacter => ?_, hnext⟩
  rcases hkind' with ⟨rfl, -⟩ | ⟨rfl, -⟩
  · exact hne
  · exact hcharacter.symm

/-- Under the widest settings a symbol ends at the same place. -/
theorem widest_of_symbol (hsettings : Settings.OfLine ⟨[.char, .base], ignored⟩)
    (h : Next ⟨[.char, .base], ignored⟩ kind value rest text) (hkind : kind ≠ .newline) :
    Next .widest kind value rest text := by
  rcases hsettings.ignored with hignored | hignored
  · dsimp only at hignored
    subst hignored
    exact h.ignore_newline hkind
  · dsimp only at hignored
    subst hignored
    exact h

/-- A line end that is skipped leaves the next token to the text behind it. -/
theorem skip_newline (h : Next ⟨modes, ignored⟩ .newline value rest text)
    (h' : Next ⟨modes, .newline :: ignored⟩ kind' value' rest' rest) :
    Next ⟨modes, .newline :: ignored⟩ kind' value' rest' text := by
  generalize hkind : TokenKind.newline = kind at h
  induction h with
  | token hlex =>
    subst hkind
    exact .skip hlex (List.contains_iff_mem.2 List.mem_cons_self) h'
  | stop hend => exact absurd (hkind.trans hend) (by decide)
  | skip hlex hskip _ ih =>
    exact .skip hlex (List.contains_iff_mem.2
      (List.mem_cons_of_mem _ (List.contains_iff_mem.1 hskip))) ih

/-- Where line ends are skipped, no less of the text is. -/
theorem length_le_of_newline (hskips : SkipsBlanks ignored) (hbase : .base ∈ modes)
    (h : Next ⟨modes, ignored⟩ kind value rest text)
    (h' : Next ⟨modes, .newline :: ignored⟩ kind' value' rest' text) :
    rest'.length ≤ rest.length := by
  by_cases hkind : kind = .newline
  · subst hkind
    obtain ⟨_, _, rest'', hnext⟩ := exists_of_text hskips.newline modes rest
    obtain ⟨-, -, rfl⟩ := h'.unique hskips.newline hbase (h.skip_newline hnext)
    exact hnext.suffix.length_le
  · obtain ⟨-, -, rfl⟩ := (h.ignore_newline hkind).unique hskips.newline hbase h'
    exact Nat.le_refl _

/-- Words are no longer than symbols. -/
theorem length_le_of_char (hskips : SkipsBlanks ignored)
    (h : Next ⟨[.base], ignored⟩ kind value rest text)
    (h' : Next ⟨[.char, .base], ignored⟩ kind' value' rest' text) : rest'.length ≤ rest.length := by
  have htext := append_eq hskips (by decide) (by decide) h h'
  have hlength := congrArg List.length htext
  rw [List.length_append, List.length_append] at hlength
  rcases h.lexes with ⟨hlex, -⟩ | ⟨-, rfl, rfl⟩
  · rcases h'.lexes with ⟨hlex', -⟩ | ⟨-, rfl, rfl⟩
    · have hle := hlex.length_le_of_char hlex' htext
      omega
    · exact Nat.zero_le _
  · rw [List.append_nil, eq_comm, List.append_eq_nil_iff] at htext
    rw [htext.2]

/-- No token ends behind the one that the widest settings give, which skip the most and cut as far
as any. So what ends in front of a seam under these does so under all. -/
theorem length_le_of_widest (hsettings : settings.OfLine) (h : Next settings kind value rest text)
    (h' : Next .widest kind' value' rest' text) : rest'.length ≤ rest.length := by
  obtain ⟨modes, ignored⟩ := settings
  have hskips := hsettings.skips
  dsimp only at hskips
  obtain ⟨_, _, rest'', hnext⟩ := exists_of_text hskips [.char, .base] text
  -- Between the two settings there are those that have the modes of the widest ones, and ignore as
  -- much as the given ones.
  have hle : rest''.length ≤ rest.length := by
    rcases hsettings.modes with hmodes | hmodes
    · dsimp only at hmodes
      subst hmodes
      exact h.length_le_of_char hskips hnext
    · dsimp only at hmodes
      subst hmodes
      obtain ⟨-, -, rfl⟩ := h.unique hskips (by decide) hnext
      exact Nat.le_refl _
  refine Nat.le_trans ?_ hle
  rcases hsettings.ignored with hignored | hignored
  · dsimp only at hignored
    subst hignored
    exact length_le_of_newline hskips (by decide) hnext h'
  · dsimp only at hignored
    subst hignored
    obtain ⟨-, -, rfl⟩ := h'.unique hskips (by decide) hnext
    exact Nat.le_refl _

/-- Where the widest settings give a token, no settings give the end: if all that is skipped under
any settings leaves some text, then so does what they skip. -/
theorem kind_ne_of_widest (hsettings : settings.OfLine) (h : Next settings kind value rest text)
    (h' : Next .widest kind' value' rest' text) (hkind : kind' ≠ .endOfInput) :
    kind ≠ .endOfInput := by
  obtain ⟨modes, ignored⟩ := settings
  rintro rfl
  -- The end of the source does not depend on the modes, and skipping line ends as well leads to it
  -- all the same.
  have hchar : Next ⟨[.char, .base], ignored⟩ .endOfInput value rest text :=
    h.change_modes_of_end hsettings.skips hsettings.base_mem (by decide)
  have hend : Next .widest .endOfInput value rest text := by
    rcases hsettings.ignored with hignored | hignored
    · dsimp only at hignored
      subst hignored
      exact hchar.ignore_newline (by decide)
    · dsimp only at hignored
      subst hignored
      exact hchar
  obtain ⟨rfl, -⟩ := h'.unique Settings.OfLine.widest.skips (by decide) hend
  exact hkind rfl

/-- A token that ends inside the text leaves the rest of it in front of what follows. -/
theorem exists_append (h : Next settings kind value rest (t ++ r)) (hle : r.length ≤ rest.length) :
    ∃ t', rest = t' ++ r := by
  obtain ⟨t', ht'⟩ := List.suffix_of_suffix_length_le (List.suffix_append t r) h.suffix hle
  exact ⟨t', ht'.symm⟩

end Next

/-! ## Seams -/

/-- What is cut inside a text when `r` follows is cut alike when `r'` follows. -/
def Seam (r r' : List Char) : Prop :=
  ∀ {modes ignored kind value t t'}, LexMode.base ∈ modes → SkipsBlanks ignored →
    kind ≠ .endOfInput →
    Next ⟨modes, ignored⟩ kind value (t' ++ r) (t ++ r) →
      Next ⟨modes, ignored⟩ kind value (t' ++ r') (t ++ r')

/-- Under all settings with which a line is read, the next token lies inside the text, and is the
same whichever of two endings follows. -/
def Alike (r r' t : List Char) : Prop :=
  ∀ settings : Settings, settings.OfLine → ∃ kind value t', kind ≠ .endOfInput ∧
    Next settings kind value (t' ++ r) (t ++ r) ∧ Next settings kind value (t' ++ r') (t ++ r')

namespace Alike

/-- The endings may be swapped: what looks alike looks alike either way. -/
theorem symm (h : Alike r r' t) : Alike r' r t := by
  intro settings hsettings
  obtain ⟨kind, value, t', hkind, hnext, hnext'⟩ := h settings hsettings
  exact ⟨kind, value, t', hkind, hnext', hnext⟩

/-- The next token in front of the one ending is the next token in front of the other one. -/
theorem next (h : Alike r r' t) (hsettings : settings.OfLine)
    (hnext : Next settings kind value rest (t ++ r)) :
    ∃ t', rest = t' ++ r ∧ kind ≠ .endOfInput ∧ Next settings kind value (t' ++ r') (t ++ r') := by
  obtain ⟨kind', value', t', hkind, hnext', hother⟩ := h settings hsettings
  obtain ⟨rfl, rfl, rfl⟩ := hnext.unique hsettings.skips hsettings.base_mem hnext'
  exact ⟨t', rfl, hkind, hother⟩

end Alike

/-- Where a seam's text has a token under the widest settings, both sources look alike. -/
theorem Seam.alike (hseam : Seam r r') (h : Next .widest kind value (t' ++ r) (t ++ r))
    (hkind : kind ≠ .endOfInput) :
    Alike r r' t := by
  rintro ⟨modes, ignored⟩ hsettings
  obtain ⟨kind', value', rest, hnext⟩ := Next.exists_of_text hsettings.skips modes (t ++ r)
  have hle : r.length ≤ rest.length := by
    refine Nat.le_trans ?_ (hnext.length_le_of_widest hsettings h)
    rw [List.length_append]
    exact Nat.le_add_left _ _
  obtain ⟨t'', rfl⟩ := hnext.exists_append hle
  have hkind' := hnext.kind_ne_of_widest hsettings h hkind
  exact ⟨kind', value', t'', hkind', hnext, hseam hsettings.base_mem hsettings.skips hkind' hnext⟩

/-- Where a seam's text has a word, both sources look alike. -/
theorem Seam.alike_of_word (hseam : Seam r r') (hsettings : Settings.OfLine ⟨[.base], ignored⟩)
    (h : Next ⟨[.base], ignored⟩ kind value (t' ++ r) (t ++ r)) (hsolid : kind.isSolid = true) :
    Alike r r' t := by
  obtain ⟨kind', hkind', hnext⟩ := h.widest_of_word_ne hsettings hsolid
  exact hseam.alike hnext (hkind' _ (ne_of_isSolid hsolid (by decide)) (by decide))

/-! ## Walks -/

/-- From one place in front of an ending to another one, over symbols that are no arrows. -/
inductive Walk (r : List Char) : List Char → List Char → Prop
  /-- No symbols. -/
  | refl {t : List Char} : Walk r t t
  /-- One more symbol in front. -/
  | step {t t' t'' value : List Char} {kind : TokenKind}
      (hnext : Next .widest kind value (t' ++ r) (t ++ r)) (hend : kind ≠ .endOfInput)
      (harrow : kind ≠ .arrow) (hmore : Walk r t' t'') : Walk r t t''

namespace Walk

/-- One walk behind another one is a walk over both texts. -/
theorem trans {t'' : List Char} (h : Walk r t t') (h' : Walk r t' t'') : Walk r t t'' := by
  induction h with
  | refl => exact h'
  | step hnext hend harrow _ ih => exact .step hnext hend harrow (ih h')

/-- Over a word that is no arrow a walk goes on. -/
theorem word (hsettings : Settings.OfLine ⟨[.base], ignored⟩)
    (h : Next ⟨[.base], ignored⟩ kind value (t' ++ r) (t ++ r)) (hsolid : kind.isSolid = true)
    (harrow : kind ≠ .arrow) :
    Walk r t t' := by
  obtain ⟨kind', hkind', hnext⟩ := h.widest_of_word_ne hsettings hsolid
  exact .step hnext (hkind' _ (ne_of_isSolid hsolid (by decide)) (by decide))
    (hkind' _ harrow (by decide)) .refl

end Walk

/-- Both sources look alike up to the next arrow, behind which is `z`. -/
inductive Path (r r' z : List Char) : List Char → Prop
  /-- The arrow is next. -/
  | arrow {t value : List Char} (halike : Alike r r' t)
      (hnext : Next ⟨[.base], .newline :: lineBlanks⟩ .arrow value (z ++ r) (t ++ r)) :
        Path r r' z t
  /-- Another symbol is next. -/
  | step {t t' value : List Char} {kind : TokenKind} (halike : Alike r r' t)
      (hnext : Next .widest kind value (t' ++ r) (t ++ r)) (harrow : kind ≠ .arrow)
      (hmore : Path r r' z t') : Path r r' z t

/-- A walk in front of a path. -/
theorem Walk.path {z : List Char} (hseam : Seam r r') (h : Walk r t t') (hpath : Path r r' z t') :
    Path r r' z t := by
  induction h with
  | refl => exact hpath
  | step hnext hend harrow _ ih => exact .step (hseam.alike hnext hend) hnext harrow (ih hpath)

namespace Path

variable {z : List Char}

/-- Both sources look alike all along a path. -/
theorem alike (h : Path r r' z t) : Alike r r' t := by
  cases h with
  | arrow halike => exact halike
  | step halike => exact halike

/-- The endings may be swapped: a path is one for either order. -/
theorem symm (h : Path r r' z t) : Path r' r z t := by
  induction h with
  | arrow halike hnext =>
    obtain ⟨t', ht', -, hnext'⟩ := halike.next Settings.OfLine.brackets hnext
    obtain rfl := List.append_cancel_right ht'
    exact .arrow halike.symm hnext'
  | step halike hnext harrow _ ih =>
    obtain ⟨t', ht', -, hnext'⟩ := halike.next .widest hnext
    obtain rfl := List.append_cancel_right ht'
    exact .step halike.symm hnext' harrow ih

/-- Behind a symbol that is no arrow the path goes on, with the same token in front of both endings,
up to where the widest settings end. -/
theorem of_widest (h : Path r r' z t) (hnext : Next .widest kind value (t' ++ r) (t ++ r))
    (harrow : kind ≠ .arrow) :
    Path r r' z t' := by
  have hskips := Settings.OfLine.widest.skips
  cases h with
  | arrow halike hnext' =>
    obtain ⟨rfl, -⟩ := (hnext'.widest_of_arrow .brackets).unique hskips (by decide) hnext
    exact absurd rfl harrow
  | step halike hnext' _ hmore =>
    obtain ⟨-, -, heq⟩ := hnext'.unique hskips (by decide) hnext
    rw [List.append_cancel_right heq] at hmore
    exact hmore

/-- Behind the arrow the path ends, so whatever was read in front of it has to stop there. -/
theorem of_arrow (h : Path r r' z t) (hsettings : Settings.OfLine ⟨[.base], ignored⟩)
    (hnext : Next ⟨[.base], ignored⟩ .arrow value (t' ++ r) (t ++ r)) : t' = z := by
  have hskips := Settings.OfLine.widest.skips
  have hwidest := hnext.widest_of_arrow hsettings
  cases h with
  | arrow halike hnext' =>
    obtain ⟨-, -, heq⟩ := hwidest.unique hskips (by decide) (hnext'.widest_of_arrow .brackets)
    exact List.append_cancel_right heq
  | step halike hnext' harrow =>
    obtain ⟨rfl, -⟩ := hwidest.unique hskips (by decide) hnext'
    exact absurd rfl harrow

/-- Behind a symbol that is no arrow and no line end the path goes on. -/
theorem symbol (h : Path r r' z t) (hsettings : Settings.OfLine ⟨[.char, .base], ignored⟩)
    (hnext : Next ⟨[.char, .base], ignored⟩ kind value rest (t ++ r)) (hnewline : kind ≠ .newline)
    (harrow : kind ≠ .arrow) :
    ∃ t', rest = t' ++ r ∧ Path r r' z t' ∧ Next ⟨[.char, .base], ignored⟩ kind value (t' ++ r')
      (t ++ r') := by
  obtain ⟨t', rfl, -, hnext'⟩ := h.alike.next hsettings hnext
  exact ⟨t', rfl, h.of_widest (hnext.widest_of_symbol hsettings hnewline) harrow, hnext'⟩

/-- Behind a word that is no arrow the path goes on. -/
theorem word (h : Path r r' z t) (hsettings : Settings.OfLine ⟨[.base], ignored⟩)
    (hnext : Next ⟨[.base], ignored⟩ kind value rest (t ++ r)) (hsolid : kind.isSolid = true)
    (harrow : kind ≠ .arrow) :
    ∃ t', rest = t' ++ r ∧ Path r r' z t' ∧ Next ⟨[.base], ignored⟩ kind value (t' ++ r')
      (t ++ r') := by
  obtain ⟨t', rfl, -, hnext'⟩ := h.alike.next hsettings hnext
  obtain ⟨kind', hkind', hwidest⟩ := hnext.widest_of_word_ne hsettings hsolid
  exact ⟨t', rfl, h.of_widest hwidest (hkind' _ harrow (by decide)), hnext'⟩

end Path

end MachineLang
