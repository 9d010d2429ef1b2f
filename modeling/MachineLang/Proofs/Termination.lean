import MachineLang.Proofs.Pointing
import MachineLang.Proofs.Progress

/-!
# Reading comes to an end

A rule calls others in two ways: behind a token that it has read, where less text is left, or in
front of all its tokens, where the rule that it calls is at a lower level (`Combinator.level`). For
only so many rules are entered between two tokens: there are five levels. So the calls are no deeper
than five for each character and the end of the text, and each rule does the same however deep they
may go beyond that (`terminates`).
-/

namespace MachineLang

open MachineLang.Parser

/-! ## Levels -/

/-- The rules that a rule may run in front of its first token. -/
def Combinator.firstCalls : Combinator → List String
  | leaf l => l.firstCalls
  | choose _ branches fallback => (branches.filter (!·.consume)).map Branch.rule ++ fallback.toList
  | alternative rules => rules
  | root statement none _ => [statement]
  | root _ (some _) _ => []
  | list element _ _ => [element]
  | binary operand _ => [operand]
  | unary operand _ => [operand]

/-- How many rules are entered one behind the other in front of a token, of so many at most. -/
def Combinator.levelWithin (table : RuleTable) : Nat → Combinator → Nat
  | 0, _ => 0
  | limit + 1, rule =>
    (rule.firstCalls.filterMap table.find?).foldl
      (fun level callee => max level (levelWithin table limit callee + 1)) 0

/-- How many rules of the language a rule enters one behind the other in front of a token. -/
def Combinator.level (rule : Combinator) : Nat := rule.levelWithin .standard 5

/-- Whether the tokens that a rule goes by are none at the end of the source, and it does not call
the rule for whole programs. -/
def Combinator.isRegular : Combinator → Bool
  | leaf l => l.firstCalls.all (· != "module")
  | choose mode branches fallback =>
    branches.all (fun branch => branch.rule != "module" &&
      (!branch.consume || mode.isNone && branch.kind != .endOfInput)) &&
        fallback.all (· != "module")
  | alternative rules => rules.all (· != "module")
  | root statement opening _ => opening != some .endOfInput && statement != "module"
  | list element brackets _ =>
    brackets.all (·.1 != .endOfInput) && element != "module"
  | binary operand _ => operand != "module"
  | unary operand operators => operators.all (·.1 != .endOfInput) && operand != "module"

/-- What is known of the rules of the language: they are regular, and call only rules of lower
levels in front of their first token. -/
theorem RuleTable.regular_of_find? {name : String} {rule : Combinator}
    (hfind : standard.find? name = some rule) :
    rule.isRegular = true ∧ rule.level < 5 ∧
      ∀ called ∈ rule.firstCalls, ∀ callee, standard.find? called = some callee →
        callee.level < rule.level := by
  have hall : ∀ entry ∈ standard.rules, entry.2.isRegular = true ∧ entry.2.level < 5 ∧
      ∀ called ∈ entry.2.firstCalls,
        (standard.find? called).all (fun callee => callee.level < entry.2.level) = true := by
    decide +kernel
  obtain ⟨before, after, hrules, -⟩ := List.lookup_eq_some_iff.1 hfind
  obtain ⟨hregular, hlevel, hcalls⟩ :=
    hall (name, rule) (hrules ▸ List.mem_append_right _ List.mem_cons_self)
  refine ⟨hregular, hlevel, fun called hcalled callee hcallee => ?_⟩
  have hlt := hcalls called hcalled
  rw [hcallee] at hlt
  exact decide_eq_true_iff.1 hlt

/-! ## One level of a rule -/

section

variable {allowed : SyntaxError → Prop} {s : TokenStream} {rule : Combinator}
  {run : Combinator → Location → Parser Node} {first : List String}

/-- The rules that may be called from a stream take some text, and come to an end: any of them where
less text is left, and some where as much is left. -/
structure Callees (run : Combinator → Location → Parser Node) (first : List String)
    (allowed : SyntaxError → Prop) (s : TokenStream) : Prop where
  /-- Any rule may be called where less text is left. -/
  behind : ∀ name, name ≠ "module" → ∀ t, Reliable t → t.text.length < s.text.length → ∀ start,
    (RuleTable.standard.callWith run name start).Ends allowed t (Left t.text.length)
  /-- Some may be called where no text has been taken. -/
  here : ∀ name ∈ first, name ≠ "module" → ∀ t, Reliable t → t.text.length ≤ s.text.length →
    ∀ start, (RuleTable.standard.callWith run name start).Ends allowed t (Left t.text.length)

namespace Callees

/-- The rule of a name is run from the next token on. -/
theorem next {name : String} {t : TokenStream} (ht : Reliable t) (hcall : ∀ r, Stays t r → ∀ start,
    (RuleTable.standard.callWith run name start).Ends allowed r (Left r.text.length)) :
    (RuleTable.standard.nextWith run name).Ends allowed t (Left t.text.length) := by
  refine (Ends.location ht).bind fun start r _ _ hstays => ?_
  rw [← hstays.text_eq]
  exact hcall r hstays start

/-- Any rule may be called from the next token on where less text is left. -/
theorem nextBehind (h : Callees run first allowed s) {name : String} (hname : name ≠ "module")
    {t : TokenStream} (ht : Reliable t) (hlt : t.text.length < s.text.length) :
    (RuleTable.standard.nextWith run name).Ends allowed t (Left t.text.length) :=
  next ht fun r hstays => h.behind name hname r hstays.reliable (hstays.text_eq ▸ hlt)

/-- Some may be called from the next token on where no text has been taken. -/
theorem nextHere (h : Callees run first allowed s) {name : String} (hfirst : name ∈ first)
    (hname : name ≠ "module") {t : TokenStream} (ht : Reliable t)
    (hle : t.text.length ≤ s.text.length) :
    (RuleTable.standard.nextWith run name).Ends allowed t (Left t.text.length) :=
  next ht fun r hstays => h.here name hfirst hname r hstays.reliable (hstays.text_eq ▸ hle)

/-- A rule that is called where the stream stands takes what it takes there. -/
theorem stays (h : Callees run first allowed s) {name : String} (hfirst : name ∈ first)
    (hname : name ≠ "module") {t : TokenStream} (hstays : Stays s t) (start : Location) :
    (RuleTable.standard.callWith run name start).Ends allowed t (Left s.text.length) := by
  have hcall :=
    h.here name hfirst hname t hstays.reliable (Nat.le_of_eq (congrArg _ hstays.text_eq)) start
  rw [hstays.text_eq] at hcall
  exact hcall

variable (hallowed : ∀ e, e.isEndless = false → allowed e)
include hallowed

/-- A choice by the next token does not run out of depth, if the rules that it can call at its
beginning do not. A branch whose token is consumed is read on less text. -/
theorem choose {mode : Option LexMode} {branches : List Branch} {fallback : Option String}
    (h : Callees run (Combinator.choose mode branches fallback).firstCalls allowed s)
    (hregular : (Combinator.choose mode branches fallback).isRegular = true) (hs : Reliable s)
    (start : Location) :
    ((Combinator.choose mode branches fallback).readWith .standard run start).Ends allowed s
      (Left s.text.length) := by
  obtain ⟨hbranches, hfallback⟩ := Bool.and_eq_true_iff.1 hregular
  refine (Ends.choiceToken hallowed hs mode _).bind fun token t ht _ htoken => ?_
  obtain ⟨hstays, hnext⟩ := htoken
  dsimp only
  split
  · next branch hfind =>
    have hmem := List.mem_of_find?_eq_some hfind
    have hkind : branch.kind = token.kind :=
      beq_iff_eq.1 (List.find?_some (p := fun b : Branch => b.kind == token.kind) hfind)
    obtain ⟨hname, hconsume⟩ := Bool.and_eq_true_iff.1 (List.all_eq_true.1 hbranches branch hmem)
    have hname : branch.rule ≠ "module" := bne_iff_ne.1 hname
    cases hc : branch.consume with
    | true =>
      -- The token that selects the branch is read in front of it.
      rw [hc] at hconsume
      obtain ⟨hmode, hne⟩ := Bool.and_eq_true_iff.1 hconsume
      obtain rfl := Option.isNone_iff_eq_none.1 hmode
      rw [if_pos rfl]
      refine (Ends.next hallowed ht).bind fun token' r hr _ htook => ?_
      have htook := htook.of_stays hstays
      have hlt : r.text.length < s.text.length := htook.length_lt <| by
        rw [htook.token_eq, ← hnext rfl, ← hkind]
        exact bne_iff_ne.1 hne
      exact Ends.left hr hlt (h.behind branch.rule hname r hr hlt _)
    | false =>
      have hfirst : branch.rule ∈ (Combinator.choose mode branches fallback).firstCalls :=
        List.mem_append_left _ (List.mem_map_of_mem (List.mem_filter.2 ⟨hmem, by rw [hc]; rfl⟩))
      rw [if_neg Bool.false_ne_true]
      cases mode with
      | none => exact h.stays hfirst hname hstays _
      | some mode =>
        refine Ends.withMode_left ht fun r hr htext => ?_
        have htext := htext.trans (congrArg _ hstays.text_eq)
        exact htext ▸ h.here branch.rule hfirst hname r hr (Nat.le_of_eq htext) _
  · cases fallback with
    | none => exact Ends.throw ht (hallowed _ rfl)
    | some name =>
      exact h.stays (List.mem_append_right _ List.mem_cons_self) (bne_iff_ne.1 hfallback) hstays _

/-- A list in brackets, or one element, does not run out of depth. The rule for elements is called
where the list begins, or behind a bracket on less text. -/
theorem list {element : String} {brackets : Option (TokenKind × TokenKind)}
    {separator : TokenKind}
    (h : Callees run (Combinator.list element brackets separator).firstCalls allowed s)
    (hregular : (Combinator.list element brackets separator).isRegular = true) (hs : Reliable s)
    (start : Location) :
    ((Combinator.list element brackets separator).readWith .standard run start).Ends allowed s
      (Left s.text.length) := by
  obtain ⟨hopening, hname⟩ := Bool.and_eq_true_iff.1 hregular
  have hname : element ≠ "module" := bne_iff_ne.1 hname
  -- The element stands where the list begins, so the rule for it is one of the first ones called.
  have hbare : ∀ t, Stays s t → (do
      let item ← RuleTable.standard.callWith run element start
      return .list [item] item.span : Parser Node).Ends allowed t (Left s.text.length) :=
        fun t hstays =>
    (h.stays List.mem_cons_self hname hstays start).bind fun item r hr _ hlt => Ends.pure hr hlt
  cases brackets with
  | none => exact hbare s (.refl hs)
  | some brackets =>
    obtain ⟨opening, closing⟩ := brackets
    refine (Ends.check hs opening).bind fun found t ht _ hfound => ?_
    split_ifs
    · rw [← hfound.2.text_eq]
      refine ends_bracketed hallowed ht (bne_iff_ne.1 hopening) _ _ (fun r hr hlt => ?_) start
      exact h.nextBehind hname hr (hfound.2.text_eq ▸ hlt)
    · exact hbare t hfound.2

/-- Operators between operands: the first operand stands where the rule begins, all others behind an
operator. -/
theorem binary {operand : String} {operators : List (TokenKind × BinaryOp)}
    (h : Callees run (Combinator.binary operand operators).firstCalls allowed s)
    (hregular : (Combinator.binary operand operators).isRegular = true) (hs : Reliable s)
    (start : Location) :
    ((Combinator.binary operand operators).readWith .standard run start).Ends allowed s
      (Left s.text.length) := by
  have hname : operand ≠ "module" := bne_iff_ne.1 hregular
  refine (h.stays List.mem_cons_self hname (.refl hs) start).bind fun left t ht _ hlt => ?_
  refine (Ends.limit ht).bind fun rounds _ _ _ hlimit => ?_
  obtain ⟨rfl, hrounds⟩ := hlimit
  rw [operationsWithin_eq_iterate]
  refine Ends.left ht hlt (Ends.iterate ht (fun left r hr hle => ?_) hrounds left)
  exact ends_operationRound hallowed hr operators (fun q hq hle' =>
    h.nextBehind hname hq (Nat.lt_of_le_of_lt (Nat.le_trans hle' hle) hlt)) start left

/-- Operators in front of an operand do not run out of depth: the rule runs itself only behind an
operator, where less text is left. -/
theorem unary {operand : String} {operators : List (TokenKind × UnaryOp)}
    (h : Callees run (Combinator.unary operand operators).firstCalls allowed s)
    (hregular : (Combinator.unary operand operators).isRegular = true) (hs : Reliable s)
    (hself : ∀ t, Reliable t → t.text.length < s.text.length → ∀ start,
      (run (.unary operand operators) start).Ends allowed t (Left t.text.length)) (start :
        Location) :
    ((Combinator.unary operand operators).readWith .standard run start).Ends allowed s
      (Left s.text.length) := by
  obtain ⟨hoperators, hname⟩ := Bool.and_eq_true_iff.1 hregular
  refine (Ends.operator? hs operators).bind fun op t ht _ hop => ?_
  obtain ⟨hlookup, hstays⟩ := hop
  cases op with
  | none => exact h.stays List.mem_cons_self (bne_iff_ne.1 hname) hstays start
  | some op =>
    obtain ⟨before, after, heq, -⟩ := List.lookup_eq_some_iff.1 (hlookup rfl)
    have hne : s.nextToken.kind ≠ .endOfInput := bne_iff_ne.1 <| List.all_eq_true.1 hoperators
      (s.nextToken.kind, op) (heq ▸ List.mem_append_right _ List.mem_cons_self)
    refine (Ends.next hallowed ht).bind fun token r hr _ htook => ?_
    have htook := htook.of_stays hstays
    -- Behind the operator less text is left, so the rule may call itself.
    have hlt := htook.length_lt (htook.token_eq ▸ hne)
    refine Ends.bind_left hr hlt (Ends.location hr) fun inner q hq hlt => ?_
    refine Ends.bind_left hq hlt (hself q hq hlt inner) fun node q' hq' hlt => ?_
    exact Ends.bind_left hq' hlt (Ends.spanFrom hq' start) fun span r' hr' hlt => Ends.pure hr' hlt

end Callees

/-- Whether a rule that is called at a stream is further on: some text has been taken, or it is at a
lower level. -/
def FurtherOn (n level : Nat) (t : TokenStream) (callee : Combinator) : Prop :=
  t.text.length < n ∨ t.text.length ≤ n ∧ callee.level < level

instance (n level : Nat) (t : TokenStream) (callee : Combinator) :
    Decidable (FurtherOn n level t callee) :=
  inferInstanceAs (Decidable (_ ∨ _))

/-- A rule takes some text and comes to an end, if the rules do that it calls. Only the rule for
whole programs may take none. -/
theorem Combinator.ends_readWith (hallowed : ∀ e, e.isEndless = false → allowed e) {name : String}
    (hfind : RuleTable.standard.find? name = some rule) (hs : Reliable s)
    (hrun : ∀ called callee, called ≠ "module" → RuleTable.standard.find? called = some callee →
      ∀ t, Reliable t → FurtherOn s.text.length rule.level t callee → ∀ start,
        (run callee start).Ends allowed t (Left t.text.length)) (start : Location) :
    (rule.readWith .standard run start).Ends allowed s fun _ t =>
      name ≠ "module" → t.text.length < s.text.length := by
  obtain ⟨hregular, -, hlevel⟩ := RuleTable.regular_of_find? hfind
  -- A rule that is called comes to an end: less text is left for it, or it stands lower in the
  -- order of the rules.
  have hcall : ∀ called, called ≠ "module" → ∀ t, Reliable t →
      (∀ callee, RuleTable.standard.find? called = some callee →
        FurtherOn s.text.length rule.level t callee) →
      ∀ start, (RuleTable.standard.callWith run called start).Ends allowed t
        (Left t.text.length) := by
    intro called hcalled t ht hfurther start
    unfold RuleTable.callWith
    split
    · exact Ends.throw ht (hallowed _ rfl)
    · next callee hcallee =>
      exact hrun called callee hcalled hcallee t ht (hfurther callee hcallee) start
  have h : Callees run rule.firstCalls allowed s :=
    ⟨fun called hcalled t ht hlt => hcall called hcalled t ht fun _ _ => .inl hlt,
      fun called hmem hcalled t ht hle => hcall called hcalled t ht fun callee hcallee =>
        .inr ⟨hle, hlevel called hmem callee hcallee⟩⟩
  have htakes : ∀ {p : Parser Node}, p.Ends allowed s (Left s.text.length) →
      p.Ends allowed s fun _ t => name ≠ "module" → t.text.length < s.text.length :=
    fun hp => hp.imp fun _ _ _ _ hlt _ => hlt
  cases rule with
  | leaf l =>
    refine htakes (ends_leaf hallowed l hs
      (fun called hcalled t ht hlt => h.nextBehind hcalled ht hlt)
      (fun called hmem => h.nextHere hmem ?_ hs (Nat.le_refl _)) start)
    exact bne_iff_ne.1 (List.all_eq_true.1 hregular called hmem)
  | choose mode branches fallback => exact htakes (h.choose hallowed hregular hs start)
  | alternative rules =>
    refine htakes (Ends.oneOf hs (hallowed _ rfl)
      (List.forall_mem_map.2 fun called hmem t hstays => ?_))
    exact h.stays hmem (bne_iff_ne.1 (List.all_eq_true.1 hregular called hmem)) hstays start
  | root statement opening closing =>
    obtain ⟨hopening, hstatement⟩ := Bool.and_eq_true_iff.1 hregular
    refine (ends_statements hallowed hs (bne_iff_ne.1 hopening) closing (fun t ht hleft => ?_)
      start).imp fun _ _ _ _ htaken hname => htaken ?_
    · rcases hleft with hlt | ⟨rfl, hle⟩
      · exact h.nextBehind (bne_iff_ne.1 hstatement) ht hlt
      · exact h.nextHere List.mem_cons_self (bne_iff_ne.1 hstatement) ht hle
    · have hinner := RuleTable.isInner_of_find? hname hfind
      obtain ⟨opening, rfl, -⟩ := (Option.any_eq_true _ _).1 (Bool.and_eq_true_iff.1 hinner).1
      rfl
  | list element brackets separator => exact htakes (h.list hallowed hregular hs start)
  | binary operand operators => exact htakes (h.binary hallowed hregular hs start)
  | unary operand operators =>
    have hname : name ≠ "module" := by
      rintro rfl
      cases hfind
    exact htakes (h.unary hallowed hregular hs
      (fun t ht hlt => hrun name _ hname hfind t ht (.inl hlt)) start)

end

/-! ## Calls of a given depth -/

/-- How deep calls have to go where some text is left: as many levels as there are for each
character, and for the end of the text. -/
def enoughDepth (s : TokenStream) : Nat := 5 * (s.text.length + 1)

/-- With calls that are deep enough a rule takes some text, or gives an error; but not the one that
the rules have no end. -/
theorem Combinator.ends_read {depth : Nat} {name : String} {rule : Combinator} {s : TokenStream}
    (hfind : RuleTable.standard.find? name = some rule) (hs : Reliable s)
    (hdepth : 5 * s.text.length + rule.level < depth) (start : Location) :
    (rule.read .standard depth start).Ends (fun e => e.isEndless = false) s fun _ t =>
      name ≠ "module" → t.text.length < s.text.length := by
  induction depth generalizing name rule s start with
  | zero => exact absurd hdepth (Nat.not_lt_zero _)
  | succ depth ih =>
    rw [read_succ]
    refine ends_readWith (fun _ he => he) hfind hs
      (fun called callee hcalled hcallee t ht hfurther start => ?_) start
    have hlevel := (RuleTable.regular_of_find? hcallee).2.1
    refine (ih hcallee ht ?_ start).imp fun _ _ _ _ htaken => htaken hcalled
    -- A character less pays for all five levels; where as much is left, one level is spent.
    rcases hfurther with hlt | ⟨hle, hlt⟩
    · omega
    · omega

namespace RuleTable

variable {depth : Nat} {name : String} {s : TokenStream}

/-- With calls that are deep enough the rule of a name takes some text, or gives an error; but not
the one that the rules have no end. -/
theorem ends_callFrom (hs : Reliable s) (hdepth : enoughDepth s ≤ depth) (start : Location) :
    (standard.callFrom depth name start).Ends (fun e => e.isEndless = false) s fun _ t =>
      name ≠ "module" → t.text.length < s.text.length := by
  unfold callFrom
  split
  · exact Ends.throw hs rfl
  · next rule hfind =>
    have hlevel := (regular_of_find? hfind).2.1
    unfold enoughDepth at hdepth
    exact rule.ends_read hfind hs (by omega) start

/-- Deeper calls change nothing if calls are deep enough. -/
theorem callFrom_eq (hs : Reliable s) (hdepth : enoughDepth s ≤ depth) (start : Location) :
    standard.callFrom depth name start s = standard.callFrom (enoughDepth s) name start s := by
  -- The two can differ only where the calls that go less deep are refused, and these are not.
  rcases standard.refines_callFrom hdepth name start s with ⟨e, t, herror, hendless⟩ | hsame
  · have he := (ends_callFrom hs (Nat.le_refl _) start).of_eq_error herror
    rw [hendless] at he
    cases he
  · exact hsame.symm

/-- However deep calls may go, a rule takes some text if it succeeds, unless it is the one for
modules, whose text may be empty. -/
theorem length_lt_of_callFrom (hs : Reliable s) (hname : name ≠ "module") {start : Location}
    {node : Node} {t : TokenStream} (h : standard.callFrom depth name start s = (.ok node, t)) :
    Reliable t ∧ Later s t ∧ t.text.length < s.text.length := by
  -- What is read is read with deeper calls as well, so they may be taken to be deep enough.
  rcases standard.refines_callFrom (Nat.le_max_left depth (enoughDepth s)) name start s
    with ⟨e, r, herror, -⟩ | hsame
  · cases h.symm.trans herror
  · obtain ⟨ht, hlater, htaken⟩ :=
      (ends_callFrom hs (Nat.le_max_right depth (enoughDepth s)) start).of_eq_ok
        (hsame.symm.trans h)
    exact ⟨ht, hlater, htaken hname⟩

end RuleTable

/-- What has been read and what is left are the source. -/
theorem Reliable.offset_add_byteLength {s : TokenStream} (hs : Reliable s) :
    s.place.offset + byteLength s.text = byteLength s.source.toList := by
  obtain ⟨before, after, hsource, hplace⟩ := hs.isPlace
  have htext : s.text = after := by
    show textFrom s.place.offset s.source.toList = after
    rw [hplace, hsource, IsPlace.textFrom_eq]
  have hoffset : s.place.offset = byteLength before := by
    rw [hplace, Location.offset_advance]
    exact Nat.zero_add _
  rw [htext, hoffset, hsource, byteLength_append]

/-- Where less text is left, the cursor stands further on. -/
theorem Reliable.offset_lt {s t : TokenStream} (hs : Reliable s) (ht : Reliable t)
    (hlater : Later s t) (hlt : t.text.length < s.text.length) :
    s.place.offset < t.place.offset := by
  obtain ⟨taken, htaken⟩ := hs.text_suffix ht hlater
  have hne : taken ≠ [] := by
    rintro rfl
    rw [← htaken] at hlt
    exact absurd hlt (Nat.lt_irrefl _)
  have hpos := byteLength_pos hne
  have hs' := hs.offset_add_byteLength
  have ht' := ht.offset_add_byteLength
  rw [← htaken, byteLength_append] at hs'
  rw [hlater.source_eq] at ht'
  omega

/-! ## Loops and descents -/

/-- However deep calls may go, a rule takes some text if it succeeds from the next token on. -/
theorem RuleTable.ends_call {depth : Nat} {name : String} {s : TokenStream}
    (hname : name ≠ "module") (hs : Reliable s) :
    (standard.call depth name).Ends (fun _ => True) s (Left s.text.length) := by
  have hmeets : (standard.call depth name).Meets s (Grows s s.nextPlace) :=
    meets_call (fun rule hrule start s hs => rule.meets_read hrule hs) hname hs
  exact (hmeets.ends_of fun _ _ _ => trivial).imp fun _ _ _ _ hgrows => hgrows.length_lt

/-- A loop goes in rounds, and has taken some text in each round that another one follows. -/
structure Loops {α σ : Type} (loop : Nat → σ → Parser α) (round : σ → Parser (σ ⊕ α)) : Prop where
  /-- It goes in these rounds. -/
  eq_iterate : ∀ rounds a, loop rounds a = iterate round rounds a
  /-- Some text has been taken in a round that another one follows. -/
  advances : Advances round

/-- Runs a rule where it is further on than a rule of a level that began where so much text was
left, and nowhere else. -/
def furtherOnly (n level : Nat) (run : Combinator → Location → Parser Node) (callee : Combinator)
    (start : Location) :
    Parser Node := fun t =>
  if FurtherOn n level t callee then run callee start t else endless t

/-- With calls that are deep enough a rule calls others only where they are further on. -/
theorem Combinator.readWith_furtherOnly {depth : Nat} {name : String} {rule : Combinator}
    {s : TokenStream} (hfind : RuleTable.standard.find? name = some rule) (hs : Reliable s)
    (hdepth : enoughDepth s ≤ depth) (start : Location) :
    rule.readWith .standard (furtherOnly s.text.length rule.level (Combinator.read .standard depth))
      start s =
      rule.read .standard (depth + 1) start s := by
  unfold enoughDepth at hdepth
  have hends : (rule.readWith .standard
      (furtherOnly s.text.length rule.level (Combinator.read .standard depth)) start).Ends (fun e =>
      e.isEndless = false) s fun _ t => name ≠ "module" → t.text.length < s.text.length := by
    refine ends_readWith (fun _ he => he) hfind hs
      (fun called callee hcalled hcallee t ht hfurther start => ?_) start
    have hlevel := (RuleTable.regular_of_find? hcallee).2.1
    have hdeep : 5 * t.text.length + callee.level < depth := by
      rcases hfurther with hlt | ⟨hle, -⟩ <;> omega
    exact (Ends.of_eq (if_pos hfurther) (.refl t) (callee.ends_read hcallee ht hdeep start)).imp
      fun _ _ _ _ htaken => htaken hcalled
  have hrefines : Refines
      (rule.readWith .standard
        (furtherOnly s.text.length rule.level (Combinator.read .standard depth)) start)
      (rule.readWith .standard (Combinator.read .standard depth) start) := by
    refine rule.refines_readWith .standard (fun callee start t => ?_) start
    unfold furtherOnly
    split_ifs
    · exact .inr rfl
    · exact Refines.endless _ t
  -- A call that is refused because it is not further on would make the whole say that the rules
  -- have no end.
  rw [read_succ]
  rcases hrefines s with ⟨e, t, herror, hendless⟩ | hsame
  · have he := hends.of_eq_error herror
    rw [hendless] at he
    cases he
  · exact hsame

/-- Reading a program never ends with the error that the rules have no end. The depth for calls is
enough, since each call leaves less text or is one to a lower rule. -/
theorem isEndless_of_parseProgram {source : String} {e : SyntaxError}
    (h : parseProgram source = .error e) :
    e.isEndless = false := by
  have hs := Reliable.ofSource source
  have hends : (RuleTable.standard.parse "module").Ends (fun e => e.isEndless = false)
      (.ofSource source) fun _ _ => True := by
    obtain ⟨start, t, hlocation, -⟩ : ∃ start t, Parser.location (.ofSource source) =
        (.ok start, t) ∧ True :=
      ⟨_, _, rfl, trivial⟩
    obtain ⟨ht, hlater, -⟩ := (Meets.location hs).of_eq_ok hlocation
    have hfind : RuleTable.standard.find? "module" = some (.root "statement" none .endOfInput) :=
      rfl
    have hlevel := (RuleTable.regular_of_find? hfind).2.1
    -- The depth that is given is enough for the text that is left and the level of the rule.
    have hlength : t.text.length < t.source.utf8ByteSize + 2 := ht.shows.length_rest_lt_limit
    refine Ends.of_eq (RuleTable.parse_apply hfind hlocation) hlater
      ((Combinator.ends_read hfind ht ?_ start).imp fun _ _ _ _ _ => trivial)
    rw [RuleTable.depthLimit_standard]
    omega
  unfold parseProgram at h
  rcases hparse : RuleTable.standard.parse "module" (.ofSource source) with ⟨e' | tree, t⟩
  · rw [hparse] at h
    cases h
    exact hends.of_eq_error hparse
  · rw [hparse] at h
    cases h

/-! ## Termination -/

/-- Reading terminates, on every source, in every mode and behind every attempt that was taken
back. -/
structure Terminates : Prop where
  /-- A program is read, or has an error; that the rules have no end is not said. -/
  returns : ∀ source e, parseProgram source = .error e → e.isEndless = false
  /-- If a rule other than the one for whole programs succeeds, the cursor has moved on, and less
  text is left. -/
  advances : ∀ name, name ≠ "module" → ∀ depth start s node t, Reliable s →
    RuleTable.standard.callFrom depth name start s = (.ok node, t) →
      s.place.offset < t.place.offset ∧ t.text.length < s.text.length
  /-- Separators are skipped in rounds. -/
  separators : Loops (fun rounds _ => skipSeparatorsWithin rounds) separatorRound
  /-- The statements of a sequence are read in rounds. -/
  statements : ∀ name, name ≠ "module" → ∀ depth closing,
    Loops (collectWithin (statement closing (RuleTable.standard.call depth name)))
      (collectRound (statement closing (RuleTable.standard.call depth name)))
  /-- The elements of a list are read in rounds. -/
  elements : ∀ name, name ≠ "module" → ∀ depth separator,
    Loops (elementsWithin separator (RuleTable.standard.call depth name))
      (elementRound separator (RuleTable.standard.call depth name))
  /-- The symbols of an alternative are read in rounds. -/
  symbols : ∀ depth, Loops (collectWithin (alternativeItem (RuleTable.standard.call depth)))
    (collectRound (alternativeItem (RuleTable.standard.call depth)))
  /-- The alternatives of a production are read in rounds. -/
  alternatives : ∀ depth, Loops (alternativesWithin (RuleTable.standard.call depth))
    (alternativeRound (RuleTable.standard.call depth))
  /-- The operations behind an operand are read in rounds. -/
  operations : ∀ name, name ≠ "module" → ∀ depth operators start,
    Loops (operationsWithin operators (RuleTable.standard.call depth name) start)
      (operationRound operators (RuleTable.standard.call depth name) start)
  /-- A rule calls others only where less text is left, or where they are at a lower one of five
  levels. So less text is left where a rule is called on the way from itself: statements in a body,
  or operands behind an operator or in parentheses. -/
  descends : ∀ name rule, RuleTable.standard.find? name = some rule → rule.level < 5 ∧
    ∀ s start depth, Reliable s → enoughDepth s ≤ depth →
      rule.readWith .standard
        (furtherOnly s.text.length rule.level (Combinator.read .standard depth)) start s =
        rule.read .standard (depth + 1) start s
  /-- Calls need not go deeper than five for each character and the end of the text: deeper ones
  change nothing, and no call is refused. -/
  depth_le : ∀ name start s depth, Reliable s → enoughDepth s ≤ depth →
    RuleTable.standard.callFrom depth name start s = RuleTable.standard.callFrom (enoughDepth s)
      name start s ∧
      ∀ e t, RuleTable.standard.callFrom depth name start s = (.error e, t) → e.isEndless = false

/-- Reading terminates, for the standard rules and on every source: the rules return, every round of
a loop takes some text, and a depth that is bounded by the length of the text is enough. -/
theorem terminates : Terminates where
  returns _ _ h := isEndless_of_parseProgram h
  advances name hname depth start s node t hs h := by
    obtain ⟨ht, hlater, hlt⟩ := RuleTable.length_lt_of_callFrom hs hname h
    exact ⟨hs.offset_lt ht hlater hlt, hlt⟩
  -- Each loop is an iteration whose rounds take text, and there are more rounds than there is text.
  separators := ⟨fun rounds _ => skipSeparatorsWithin_eq_iterate rounds,
    .of_ends fun _ _ hs => ends_separatorRound (fun _ _ => trivial) hs⟩
  statements name hname depth closing := ⟨collectWithin_eq_iterate _, .of_ends fun nodes _ hs =>
    ends_collectRound nodes (ends_statement (fun _ _ => trivial) hs closing fun _ ht _ =>
      RuleTable.ends_call hname ht)⟩
  elements name hname depth separator :=
    ⟨elementsWithin_eq_iterate separator _, .of_ends fun before _ hs =>
    ends_elementRound (fun _ _ => trivial) separator (RuleTable.ends_call hname hs) before⟩
  symbols depth := ⟨collectWithin_eq_iterate _, .of_ends fun nodes _ hs =>
    ends_collectRound nodes (ends_alternativeItem hs fun _ hname _ ht _ =>
      RuleTable.ends_call hname ht)⟩
  alternatives depth := ⟨alternativesWithin_eq_iterate _, .of_ends fun before _ hs =>
    ends_alternativeRound (fun _ _ => trivial) hs
      (fun _ hname _ ht _ => RuleTable.ends_call hname ht) before⟩
  operations name hname depth operators start :=
    ⟨operationsWithin_eq_iterate operators _ start, .of_ends fun left _ hs =>
    ends_operationRound (fun _ _ => trivial) hs operators
      (fun _ ht _ => RuleTable.ends_call hname ht) start left⟩
  descends name rule hfind := ⟨(RuleTable.regular_of_find? hfind).2.1, fun _ start _ hs hdepth =>
    Combinator.readWith_furtherOnly hfind hs hdepth start⟩
  depth_le name start s depth hs hdepth := ⟨RuleTable.callFrom_eq hs hdepth start, fun _ _ h =>
    (RuleTable.ends_callFrom hs hdepth start).of_eq_error h⟩

/-- A body is read with calls that are deep enough, the cursor has moved on, and deeper calls read
it alike. -/
theorem terminates_body : ∃ s node t, s = TokenStream.ofSource "\x7b p a -> q \x7d" ∧
    RuleTable.standard.callFrom (enoughDepth s) "body" .start s = (.ok node, t) ∧
      s.place.offset < t.place.offset ∧
    RuleTable.standard.callFrom 1000 "body" .start s = (.ok node, t) := by
  generalize hsource : TokenStream.ofSource "\x7b p a -> q \x7d" = s
  have hs : Reliable s := hsource ▸ .ofSource _
  -- One run settles that the body is read and that a depth of a thousand is enough; the rest is the
  -- theorem.
  have hok : (RuleTable.standard.callFrom (enoughDepth s) "body" .start s).1.isOk = true ∧
      enoughDepth s ≤ 1000 := by
    subst hsource
    decide +kernel
  rcases hread : RuleTable.standard.callFrom (enoughDepth s) "body" .start s with ⟨e | node, t⟩
  · rw [hread] at hok
    cases hok.1
  · refine ⟨s, node, t, rfl, hread,
      (terminates.advances "body" (by decide) _ _ _ _ _ hs hread).1, ?_⟩
    rw [(terminates.depth_le "body" .start s 1000 hs hok.2).1, hread]

end MachineLang
