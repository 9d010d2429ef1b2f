import MachineLang.Proofs.NextTokens
import MachineLang.Proofs.Tiling
import MachineLang.Proofs.Trials

/-!
# Maximal munch

Cutting token after token off a source, each where the one before it ends, leads to the end token
behind at most as many tokens as there are characters, and the tokens tile the source
(`tokenize_isTokenization`). What is cut off is the longest text that any rule in force describes,
under the first one of the rules that describe it; where none does, it is one invalid character
(`munches_lex`). Rules are in force by `InForce`: a mode further in goes first, and hides the rules
for the kinds that it has rules for.
-/

namespace MachineLang

variable {modes outer : List LexMode} {m : LexMode} {i j i' j' : Nat} {r r' : Rule}
  {rules before after : List Rule} {text rest v : List Char}

/-! ## Rules in force -/

/-- Rule number `j` of mode number `i` is in force, where modes are counted from the innermost one:
no mode further in has a rule for its kind. -/
structure InForce (modes : List LexMode) (i j : Nat) (r : Rule) : Prop where
  /-- The mode has the rule. -/
  owned : ∃ m, modes[i]? = some m ∧ m.rules[j]? = some r
  /-- No mode further in has one for its kind. -/
  shown : ∀ inner ∈ modes.take i, ∀ r' ∈ inner.rules, r'.kind ≠ r.kind

/-- A mode has a rule for a kind if it owns one. -/
theorem LexMode.owns_eq_false_iff {kind : TokenKind} :
    m.owns kind = false ↔ ∀ r' ∈ m.rules, r'.kind ≠ kind := by
  unfold owns
  rw [List.any_eq_false]
  exact forall₂_congr fun r' _ => not_congr beq_iff_eq

namespace InForce

/-- All rules of the innermost mode are in force. -/
theorem zero_iff : InForce (m :: outer) 0 j r ↔ m.rules[j]? = some r := by
  constructor
  · rintro ⟨⟨_, hm, hr⟩, -⟩
    obtain rfl := Option.some.inj hm
    exact hr
  · exact fun hr => ⟨⟨m, rfl, hr⟩, List.forall_mem_nil _⟩

/-- Of the modes around it those are that it does not hide. -/
theorem succ_iff :
    InForce (m :: outer) (i + 1) j r ↔ InForce outer i j r ∧ m.owns r.kind = false := by
  rw [LexMode.owns_eq_false_iff]
  constructor
  · rintro ⟨howned, hshown⟩
    rw [List.take_succ_cons, List.forall_mem_cons] at hshown
    exact ⟨⟨howned, hshown.2⟩, hshown.1⟩
  · rintro ⟨⟨howned, hshown⟩, hm⟩
    exact ⟨howned, List.take_succ_cons ▸ List.forall_mem_cons.2 ⟨hm, hshown⟩⟩

/-- A rule that is in force is one of the active rules. -/
theorem mem (h : InForce modes i j r) : r ∈ activeRules modes := by
  induction modes generalizing i with
  | nil =>
    obtain ⟨_, hm, -⟩ := h.owned
    exact absurd hm (by simp)
  | cons m outer ih =>
    cases i with
    | zero => exact List.mem_append_left _ (List.mem_of_getElem? (zero_iff.1 h))
    | succ i =>
      obtain ⟨h, howns⟩ := succ_iff.1 h
      exact List.mem_append_right _ (List.mem_filter.2 ⟨ih h, by rw [howns]; rfl⟩)

/-- A rule that is in force is one of its mode. -/
theorem exists_mem_rules (h : InForce modes i j r) : ∃ m : LexMode, r ∈ m.rules := by
  obtain ⟨m, -, hr⟩ := h.owned
  exact ⟨m, List.mem_of_getElem? hr⟩

end InForce

/-- Every active rule is in force, and the rules in front of it are all those that are in force
further in, or in the same mode in front of it. -/
theorem exists_inForce (h : activeRules modes = before ++ r :: after) : ∃ i j, InForce modes i j r ∧
    ∀ i' j' r', InForce modes i' j' r' → i' < i ∨ i' = i ∧ j' < j → r' ∈ before := by
  induction modes generalizing before after with
  | nil => exact absurd h.symm (by simp [activeRules])
  | cons m outer ih =>
    -- In front of the rule stand all rules of the innermost mode, or the rule is one of them.
    have houter : ∀ front, before = m.rules ++ front →
        (activeRules outer).filter (fun r => !m.owns r.kind) = front ++ r :: after → ∃ i j,
          InForce (m :: outer) i j r ∧
          ∀ i' j' r', InForce (m :: outer) i' j' r' → i' < i ∨ i' = i ∧ j' < j → r' ∈ before := by
      rintro front rfl hfilter
      obtain ⟨l, l', heq, rfl, hl'⟩ := List.filter_eq_append_iff.1 hfilter
      obtain ⟨hidden, others, rfl, hhidden, howns, -⟩ := List.filter_eq_cons_iff.1 hl'
      rw [← List.append_assoc] at heq
      obtain ⟨i, j, hr, hearlier⟩ := ih heq
      refine ⟨i + 1, j, InForce.succ_iff.2 ⟨hr, by simpa using howns⟩, fun i' j' r' hr' hlt => ?_⟩
      cases i' with
      | zero => exact List.mem_append_left _ (List.mem_of_getElem? (InForce.zero_iff.1 hr'))
      | succ i' =>
        obtain ⟨hr', howns'⟩ := InForce.succ_iff.1 hr'
        have hshown : (!m.owns r'.kind) = true := by rw [howns']; rfl
        rcases List.mem_append.1 (hearlier i' j' r' hr' (by omega)) with hmem | hmem
        · exact List.mem_append_right _ (List.mem_filter.2 ⟨hmem, hshown⟩)
        · exact absurd hshown (hhidden r' hmem)
    rcases List.append_eq_append_iff.1 h with ⟨front, hbefore, hfilter⟩ | ⟨own, hrules, hrest⟩
    · exact houter front hbefore hfilter
    · cases own with
      | nil => exact houter [] (by simpa using hrules.symm) hrest.symm
      | cons first own =>
        obtain ⟨rfl, -⟩ := List.cons.inj hrest
        have hat : m.rules[before.length]? = some r := by
          rw [hrules, List.getElem?_append_right (Nat.le_refl _), Nat.sub_self]
          rfl
        refine ⟨0, before.length, InForce.zero_iff.2 hat, fun i' j' r' hr' hlt => ?_⟩
        obtain ⟨rfl, hfront⟩ : i' = 0 ∧ j' < before.length := by omega
        have hr' := InForce.zero_iff.1 hr'
        rw [hrules, List.getElem?_append_left hfront] at hr'
        exact List.mem_of_getElem? hr'

/-- No rule describes the empty text, and none is for invalid characters. -/
theorem LexMode.nullable_and_kind_of_mem (hr : r ∈ m.rules) :
    r.pattern.nullable = false ∧ r.kind ≠ .invalid := by
  have hall : ∀ m : LexMode, ∀ r ∈ m.rules, r.pattern.nullable = false ∧ r.kind ≠ .invalid := by
    intro m
    cases m with
    | base => decide
    | char => decide
    | grammar => decide
  exact hall m r hr

/-! ## The longest match -/

/-- The longest match is the one of the first rule that takes as much. -/
theorem exists_longestMatch (h : 0 < (longestMatch rules text).2) :
    ∃ before r after, rules = before ++ r :: after ∧
    longestMatch rules text = (r.kind, r.pattern.munch text) ∧
      ∀ r' ∈ before, r'.pattern.munch text < r.pattern.munch text := by
  induction rules using List.reverseRecOn with
  | nil => exact absurd h (Nat.lt_irrefl 0)
  | append_singleton rules r ih =>
    rw [longestMatch_append_singleton] at h ⊢
    split_ifs at h ⊢ with hlt
    · exact ⟨rules, r, [], rfl, rfl,
        fun r' hr' => Nat.lt_of_le_of_lt (munch_le_longestMatch hr' text) hlt⟩
    · obtain ⟨before, r', after, rfl, heq, hbefore⟩ := ih h
      exact ⟨before, r', after ++ [r], by simp, heq, hbefore⟩

/-- A rule in force gives a token of a kind in front of a text. -/
structure GivenBy (modes : List LexMode) (rest : List Char) (kind : TokenKind) (value : List Char)
    (i j : Nat) (r : Rule) : Prop where
  /-- The rule is in force. -/
  inForce : InForce modes i j r
  /-- It is for the kind. -/
  kind_eq : r.kind = kind
  /-- The token stands at the beginning of the text. -/
  front : value <+: rest
  /-- The rule describes it. -/
  described : r.pattern.Matches value
  /-- By trial it is found first. -/
  found : r.pattern.found? rest = some value
  /-- No rule in force describes a longer text at the beginning. -/
  longest : ∀ i' j' r' v, InForce modes i' j' r' → v <+: rest → r'.pattern.Matches v →
    v.length ≤ value.length
  /-- No rule that comes first describes one as long. -/
  first : ∀ i' j' r' v, InForce modes i' j' r' → v <+: rest → r'.pattern.Matches v →
    v.length = value.length →
    i < i' ∨ i = i' ∧ j ≤ j'

/-- A token is the one that stands in front of a text. -/
structure Munches (modes : List LexMode) (rest : List Char) (token : Token) : Prop where
  /-- It is the end token exactly where there is no text. -/
  ended : token.kind = .endOfInput ↔ rest = []
  /-- It is an invalid token only where no rule in force describes any text, and then it is one
  character. -/
  unmatched : token.kind = .invalid → (∃ c cs, rest = c :: cs ∧ token.value.toList = [c]) ∧
    ∀ i j r v, InForce modes i j r → v <+: rest → ¬ r.pattern.Matches v
  /-- Otherwise a rule in force gives it. -/
  given : token.kind ≠ .endOfInput → token.kind ≠ .invalid →
    ∃ i j r, GivenBy modes rest token.kind token.value.toList i j r

namespace Lexes

variable {kind : TokenKind} {value : List Char}

/-- A described text at the beginning is no longer than the lexeme. -/
theorem length_le_of_matches (h : Lexes modes kind value rest) (hr : InForce modes i j r)
    (hfront : v <+: value ++ rest) (hv : r.pattern.Matches v) : v.length ≤ value.length :=
  Nat.le_trans (Pattern.le_munch hv hfront) (h.munch_le hr.mem)

/-- An invalid lexeme is one character, at which no rule describes any text. It is taken so that
reading can go on behind it. -/
theorem unmatched (h : Lexes modes .invalid value rest) : (∃ c, value = [c]) ∧
    ∀ i j r v, InForce modes i j r → v <+: value ++ rest → ¬ r.pattern.Matches v := by
  obtain ⟨hmatch, hlength⟩ := h.longestMatch_eq
  -- No rule is for invalid characters, so none applies.
  have hzero : (longestMatch (activeRules modes) (value ++ rest)).2 = 0 := by
    by_contra hne
    obtain ⟨r, hr, hrule, -⟩ := longestMatch_pos (Nat.pos_of_ne_zero hne)
    obtain ⟨m, hm⟩ := exists_mem_rules hr
    exact (LexMode.nullable_and_kind_of_mem hm).2 (hrule.symm.trans hmatch)
  rw [if_pos hzero] at hlength
  refine ⟨List.length_eq_one_iff.1 hlength.symm, fun i j r v hr hfront hv => ?_⟩
  have hle := Nat.le_trans (Pattern.le_munch hv hfront) (munch_le_longestMatch hr.mem _)
  rw [hzero] at hle
  obtain rfl : v = [] := List.length_eq_zero_iff.1 (Nat.le_zero.1 hle)
  obtain ⟨m, hm⟩ := hr.exists_mem_rules
  rw [Pattern.matches_nil_iff, (LexMode.nullable_and_kind_of_mem hm).1] at hv
  exact Bool.false_ne_true hv

/-- Any other lexeme is given by a rule in force: it is described by the rule, no rule describes a
longer text there, and none that stands in front of it one that is as long. -/
theorem exists_givenBy (h : Lexes modes kind value rest) (hkind : kind ≠ .invalid) :
    ∃ i j r, GivenBy modes (value ++ rest) kind value i j r := by
  obtain ⟨hmatch, hlength⟩ := h.longestMatch_eq
  have hpos : 0 < (longestMatch (activeRules modes) (value ++ rest)).2 :=
    Nat.pos_of_ne_zero fun hzero => hkind (hmatch.symm.trans (longestMatch_zero hzero))
  rw [if_neg (Nat.ne_of_gt hpos)] at hlength
  obtain ⟨before, r, after, hrules, heq, hbefore⟩ := exists_longestMatch hpos
  obtain ⟨i, j, hr, hearlier⟩ := exists_inForce hrules
  rw [heq] at hmatch hlength
  dsimp only at hmatch hlength
  -- What the rule takes is a text that it describes, and the lexeme.
  obtain ⟨v, hfront, hv, hmunch⟩ :=
    Pattern.exists_of_munch_pos (hlength ▸ List.length_pos_of_ne_nil h.value_ne)
  obtain rfl : v = value := by
    rw [List.prefix_iff_eq_take.1 hfront, ← hmunch, hlength, List.take_left]
  refine ⟨i, j, r, hr, hmatch, hfront, hv, ?_, fun _ _ _ _ => h.length_le_of_matches, ?_⟩
  · obtain ⟨m, hm⟩ := hr.exists_mem_rules
    exact (LexMode.longestFirst_of_mem hm).found?_eq hfront hv fun _ => h.length_le_of_matches hr
  · intro i' j' r' v' hr' hfront' hv' hlength'
    by_contra hlater
    have hlt := hbefore r' (hearlier i' j' r' hr' (by omega))
    have hle := Pattern.le_munch hv' hfront'
    omega

end Lexes

/-- The token that is cut off is the one that stands in front of the text. -/
theorem munches_lex (modes : List LexMode) (c : Cursor) :
    Munches modes c.rest (c.lex (activeRules modes)).1 := by
  have hended := Cursor.kind_lex_eq_iff modes c
  obtain ⟨l, text⟩ := c
  by_cases htext : text = []
  · subst htext
    rw [Cursor.lex_nil] at hended ⊢
    exact ⟨hended, fun hkind => absurd hkind (by simp), fun hend => absurd rfl hend⟩
  · -- A text that is not empty begins with a lexeme, which is either given by a rule or a single
    -- character that no rule takes.
    obtain ⟨kind, value, rest, rfl, h⟩ := Lexes.exists_of_ne_nil modes htext
    rw [h.lex_eq l] at hended ⊢
    refine ⟨hended, fun hkind => ?_, fun _ hkind => ?_⟩
    · obtain rfl : kind = .invalid := hkind
      obtain ⟨⟨c, rfl⟩, hnone⟩ := h.unmatched
      exact ⟨⟨c, rest, rfl, String.toList_ofList⟩, hnone⟩
    · rw [String.toList_ofList]
      exact h.exists_givenBy hkind

/-! ## All tokens of a source -/

/-- The place behind a text, told by its characters: their bytes, one line more than there are line
ends, and one column more than there are characters behind the last of these. -/
def Location.behind (text : List Char) : Location :=
  ⟨byteLength text, text.count '\n' + 1, (text.reverse.takeWhile (· != '\n')).length + 1⟩

/-- Walking over a text from the start leads to the place behind it. -/
theorem Location.advance_start (text : List Char) : start.advance text = behind text := by
  induction text using List.reverseRecOn with
  | nil => rfl
  | append_singleton text c ih =>
    rw [advance_append, ih, advance_cons, advance_nil, next]
    unfold behind
    by_cases hc : c = '\n'
    · subst hc
      simp
    · simp [hc]

/-- The token at a place of a source. -/
def tokenAt (modes : List LexMode) (source : String) (l : Location) : Token :=
  ((Cursor.ofLocation source.toList l).lex (activeRules modes)).1

/-- The token at a place begins there. -/
theorem location_tokenAt (modes : List LexMode) (source : String) (l : Location) :
    (tokenAt modes source l).location = l := by
  unfold tokenAt Cursor.ofLocation
  cases textFrom l.offset source.toList <;> rfl

/-- The tokens are those of a source under some modes. -/
structure IsTokenization (modes : List LexMode) (source : String) (tokens : List Token) : Prop where
  /-- The first one is the one at the start. -/
  first : tokens.head? = some (tokenAt modes source .start)
  /-- Each later one is the one at the place where the one before it ends. -/
  next : tokens.IsChain fun a b => b = tokenAt modes source a.stop
  /-- The end token is reached behind at most as many tokens as there are characters. -/
  length_le : tokens.length ≤ source.toList.length + 1
  /-- They tile the source, and the end token is the last one. -/
  tiles : Tiles source tokens
  /-- Each one stands where its places say, and is the longest one there. -/
  munches : ∀ token ∈ tokens, ∃ before after,
    source.toList = before ++ token.value.toList ++ after ∧
    token.location = .behind before ∧ token.stop = .behind (before ++ token.value.toList) ∧
    Munches modes (token.value.toList ++ after) token

/-- The tokens from a place on are a chain of those under some modes, and only the last one is the
end token. -/
structure CutFrom (modes : List LexMode) (text : List Char) (l : Location) (front : List Buffered)
    (b : Buffered) :
    Prop where
  /-- They follow each other. -/
  chain : ∃ m, Chain text l (front ++ [b]) m
  /-- They are cut off under the modes. -/
  modes_eq : ∀ b' ∈ front ++ [b], b'.modes = modes
  /-- The last one is the end token. -/
  ended : b.token.kind = .endOfInput
  /-- The others are not. -/
  front_ne : ∀ b' ∈ front, b'.token.kind ≠ .endOfInput
  /-- There are at most as many others as characters. -/
  length_le : front.length ≤ (textFrom l.offset text).length

namespace Cursor

variable {l : Location}

/-- At the end of the text only the end token is left. -/
theorem cutFrom_of_nil (modes : List LexMode) (steps : Nat) (h : textFrom l.offset text = []) :
    CutFrom modes text l [] ⟨⟨.endOfInput, "", l, l⟩, modes, []⟩ ∧
      (ofLocation text l).lexAll (activeRules modes) steps = [⟨.endOfInput, "", l, l⟩] := by
  have hcursor : ofLocation text l = ⟨l, []⟩ := congrArg (Cursor.mk l) h
  refine ⟨⟨⟨l, .cons (by rw [hcursor]; rfl) (.nil l)⟩, List.forall_mem_singleton.2 rfl, rfl,
    List.forall_mem_nil _, Nat.zero_le _⟩, ?_⟩
  rw [hcursor]
  cases steps <;> rfl

/-- All tokens from a place on, if enough steps are made: one after the other is cut off the text,
until only the end token is left. One step for each character suffices. -/
theorem exists_cutFrom (modes : List LexMode) {steps : Nat}
    (hsteps : (textFrom l.offset text).length ≤ steps) :
    ∃ front b, CutFrom modes text l front b ∧
      (ofLocation text l).lexAll (activeRules modes) steps = (front ++ [b]).map Buffered.token := by
  -- By induction on the steps: every token but the end token takes some text.
  induction steps generalizing l with
  | zero =>
    obtain ⟨hcut, heq⟩ := cutFrom_of_nil modes 0 (List.length_eq_zero_iff.1 (Nat.le_zero.1 hsteps))
    exact ⟨[], _, hcut, heq⟩
  | succ steps ih =>
    by_cases hnil : textFrom l.offset text = []
    · obtain ⟨hcut, heq⟩ := cutFrom_of_nil modes (steps + 1) hnil
      exact ⟨[], _, hcut, heq⟩
    · have hkind : ((ofLocation text l).lex (activeRules modes)).1.kind ≠ .endOfInput :=
        fun hend => hnil ((kind_lex_eq_iff modes _).1 hend)
      have hlt := length_rest_lex_lt modes (ofLocation text l) hkind
      have hbehind := ofLocation_lex modes text l
      rcases hlex : (ofLocation text l).lex (activeRules modes) with ⟨token, rest⟩
      rw [hlex] at hkind hlt hbehind
      dsimp only at hkind hlt hbehind
      rw [hbehind] at hlt hlex
      have hlt : (textFrom token.stop.offset text).length < (textFrom l.offset text).length := hlt
      obtain ⟨front, b, ⟨⟨m, hchain⟩, hmodes, hended, hfront, hlength⟩, heq⟩ :=
        ih (l := token.stop) (by omega)
      refine ⟨⟨token, modes, textFrom token.stop.offset text⟩ :: front, b,
        ⟨⟨m, .cons hlex hchain⟩, List.forall_mem_cons.2 ⟨rfl, hmodes⟩, hended,
        List.forall_mem_cons.2 ⟨hkind, hfront⟩, ?_⟩, ?_⟩
      · rw [List.length_cons]
        omega
      · rw [lexAll, hlex]
        dsimp only
        rw [if_neg hkind, heq]
        rfl

end Cursor

/-- The tokens of a chain under some modes are the ones at the places where they begin. -/
theorem Chain.eq_tokenAt {source : String} {l p : Location} {bs : List Buffered}
    (h : Chain source.toList l bs p) (hmodes : ∀ b ∈ bs, b.modes = modes) :
    ∀ b ∈ bs, b.token = tokenAt modes source b.token.location := by
  induction h with
  | nil => exact List.forall_mem_nil _
  | @cons l p b bs hlex hrest ih =>
    obtain ⟨hb, hbs⟩ := List.forall_mem_cons.1 hmodes
    have htoken : b.token = tokenAt modes source l := by
      rw [tokenAt, ← hb, hlex]
    refine List.forall_mem_cons.2 ⟨?_, ih hbs⟩
    rw [htoken, location_tokenAt]

/-- Cutting token after token off a source, under any modes, ends with the end token behind at most
as many tokens as there are characters. The tokens tile the source, and each one is the longest that
stands there, under the first rule that describes as much. -/
theorem tokenize_isTokenization (modes : List LexMode) (source : String) :
    IsTokenization modes source (tokenize modes source.toList .start) := by
  have hwhole : textFrom Location.start.offset source.toList = source.toList :=
    congrArg Cursor.rest (Cursor.ofLocation_start source.toList)
  obtain ⟨front, b, hcut, heq⟩ :=
    Cursor.exists_cutFrom modes (Nat.le_refl (textFrom Location.start.offset source.toList).length)
  have htokenize : tokenize modes source.toList .start = (front ++ [b]).map Buffered.token := heq
  rw [htokenize]
  obtain ⟨p, hchain⟩ := hcut.chain
  have htiles := hchain.tiles hcut.ended hcut.front_ne
  -- Each token is told by the place where it begins, so the tiles are the tokens.
  have hat : ∀ token ∈ (front ++ [b]).map Buffered.token,
      token = tokenAt modes source token.location := by
    intro token htoken
    obtain ⟨b', hb', rfl⟩ := List.mem_map.1 htoken
    exact hchain.eq_tokenAt hcut.modes_eq b' hb'
  refine ⟨?_, ?_, ?_, htiles, fun token htoken => ?_⟩
  · obtain ⟨token, htoken⟩ : ∃ token, ((front ++ [b]).map Buffered.token).head? = some token := by
      rw [← Option.isSome_iff_exists, List.isSome_head?]
      simp
    rw [htoken, ← htiles.first token htoken, ← hat token (List.mem_of_mem_head? htoken)]
  · refine htiles.next.imp_of_mem_imp fun a b _ hb hlocation => ?_
    rw [← hlocation]
    exact hat b hb
  · have hlength := hcut.length_le
    rw [hwhole] at hlength
    rw [List.length_map, List.length_append, List.length_singleton]
    omega
  · obtain ⟨before, after, hsource, hlocation, hstop⟩ := htiles.stands token htoken
    refine ⟨before, after, hsource, ?_, ?_, ?_⟩
    · rw [hlocation, Location.advance_start]
    · rw [hstop, hlocation, ← Location.advance_append, Location.advance_start]
    · have hrest : textFrom token.location.offset source.toList = token.value.toList ++ after := by
        rw [hlocation, hsource, List.append_assoc]
        exact IsPlace.textFrom_eq before _
      have hmunches : Munches modes (textFrom token.location.offset source.toList)
          (tokenAt modes source token.location) :=
            munches_lex modes (Cursor.ofLocation source.toList token.location)
      rw [← hat token htoken, hrest] at hmunches
      exact hmunches

-- An identifier is longer than its first letter; a quote alone is as long under two rules, and the
-- inner mode wins.
example : (tokenize [.char, .base] "ab->é\"".toList .start).map (fun t => (t.kind, t.value)) =
    [(.identifier, "ab"), (.arrow, "->"), (.character, "é"), (.character, "\""),
      (.endOfInput, "")] := by
  decide +kernel

end MachineLang
