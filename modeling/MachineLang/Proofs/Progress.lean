import MachineLang.Proofs.Depths
import MachineLang.Proofs.Rounds

/-!
# Progress

Every rule of the language but the one for whole programs takes some text if it succeeds, if the
rules do that it calls (`Combinator.ends_readWith`), and comes to an end if they do. A rule calls
others in two ways: behind a token that it has read, where less text is left, or in front of all its
tokens, where the rule that it calls is at a lower level (`Combinator.level`). For a rule enters no
more than a few others before a token is read: there are five levels.
-/

namespace MachineLang

namespace Parser

variable {α : Type} {allowed : SyntaxError → Prop} (hallowed : ∀ e, e.isEndless = false → allowed e)
  {s : TokenStream}
include hallowed

/-! ## Sequences of statements and lists -/

/-- A sequence of statements comes to an end if each of them does, and takes some text; behind an
opening token it takes some text itself. -/
theorem ends_statements (hs : Reliable s) {opening : Option TokenKind}
    (hopening : opening ≠ some .endOfInput) (closing : TokenKind) {item : Parser Node}
    (hitem : ∀ t, Reliable t →
      (t.text.length < s.text.length ∨ opening = none ∧ t.text.length ≤ s.text.length) →
      item.Ends allowed t (Left t.text.length)) (start : Location) :
    (statements opening closing item start).Ends allowed s fun _ t =>
      opening.isSome = true → t.text.length < s.text.length := by
  have hopened : (opened opening start).Ends allowed s fun _ t =>
      t.text.length < s.text.length ∨ opening = none ∧ t.text.length ≤ s.text.length := by
    cases opening with
    | none => exact Ends.pure hs (.inr ⟨rfl, Nat.le_refl _⟩)
    | some kind =>
      refine (Ends.expect_left hallowed hs ?_).map fun _ _ _ _ hlt => .inl hlt
      exact fun hmem => hopening (congrArg some (List.mem_singleton.1 hmem).symm)
  refine hopened.bind fun start t ht _ hleft => ?_
  have hordinary := ht.ordinary.intercept [.newline, .endOfInput]
  have htext := ht.text_apply hordinary
  -- Each statement finds less text than there was at the beginning, if an opening token was taken,
  -- and as much otherwise.
  have hcollect := ends_collect (ht.apply hordinary).1 fun r hr hle =>
    ends_statement hallowed hr closing fun q hq hle' => hitem q hq <| by
      rw [htext] at hle
      have hle'' := Nat.le_trans hle' hle
      exact hleft.imp (fun hlt => Nat.lt_of_le_of_lt hle'' hlt) fun h =>
        ⟨h.1, Nat.le_trans hle'' h.2⟩
  refine Ends.withSettings (Q := fun _ _ => True) ht hordinary ?_ fun node r hr hlater _ hsome => ?_
  · exact hcollect.bind fun nodes r hr _ _ => (Ends.spanFrom hr start).bind fun span q hq _ _ =>
      Ends.pure hq trivial
  · have hle := (ht.apply hordinary).1.length_text_le hr hlater
    rw [htext] at hle
    rw [hr.text_apply ht.ordinary]
    rcases hleft with hlt | ⟨rfl, -⟩
    · exact Nat.lt_of_le_of_lt hle hlt
    · exact absurd hsome (by decide)

/-- A list in brackets takes some text, and comes to an end if each element does, and takes some. -/
theorem ends_bracketed (hs : Reliable s) {opening : TokenKind} (hopening : opening ≠ .endOfInput)
    (closing separator : TokenKind) {item : Parser Node}
    (hitem : ∀ t, Reliable t → t.text.length < s.text.length →
      item.Ends allowed t (Left t.text.length)) (start : Location) :
    (bracketed opening closing separator item start).Ends allowed s (Left s.text.length) := by
  have hordinary : (s.settings.ignore [.newline]).Ordinary := hs.ordinary.ignore (by decide)
  refine Ends.withSettings_left hs hordinary ?_
  rw [← hs.text_apply hordinary] at hitem ⊢
  have hs' := (hs.apply hordinary).1
  generalize s.apply (s.settings.ignore [.newline]) = s at *
  have hne : .endOfInput ∉ [opening] := fun hmem => hopening (List.mem_singleton.1 hmem).symm
  refine (Ends.expect_left hallowed hs' hne).bind fun _ t ht _ hlt => ?_
  refine Ends.bind_left ht hlt (Ends.check ht closing) fun found r hr hlt' => ?_
  -- The closing bracket ends the list, with elements or without.
  have hclose : ∀ nodes q, Reliable q → q.text.length < s.text.length →
      (do let _ ← expect [closing]; return .list nodes (← spanFrom start) : Parser Node).Ends
        allowed q (Left s.text.length) := by
    intro nodes q hq hlt''
    refine Ends.left hq hlt''
      ((Ends.expect hallowed hq _).bind (R := fun _ _ => True) fun _ q' hq' _ _ => ?_)
    exact (Ends.spanFrom hq' start).bind fun span r' hr' _ _ => Ends.pure hr' trivial
  split_ifs
  · exact hclose [] r hr hlt'
  · refine (Ends.limit hr).bind fun rounds _ _ _ hlimit => ?_
    obtain ⟨rfl, hrounds⟩ := hlimit
    rw [elementsWithin_eq_iterate]
    have helements := Ends.iterate hr (fun nodes q hq hle =>
      ends_elementRound hallowed separator (hitem q hq (Nat.lt_of_le_of_lt hle hlt'))
        nodes) hrounds []
    exact Ends.bind_left hr hlt' helements fun nodes q hq hlt'' => hclose nodes q hq hlt''

/-! ## Leaves -/

section Leaves

variable {rule : String → Parser Node} {n : Nat}
variable (hrule : ∀ name, name ≠ "module" → ∀ t, Reliable t → t.text.length < n →
  (rule name).Ends allowed t (Left t.text.length))
include hrule

/-- The rest of a declaration of a machine does not run out of depth: behind the name less text is
left for the expression or the body. -/
theorem ends_declaration (hs : Reliable s) (hlt : s.text.length < n) (kind : MachineKind)
    (name : Identifier) (tapes : List Identifier) (start : Location) :
    (declaration rule kind name tapes start).Ends allowed s (Left n) := by
  refine Ends.bind_left hs hlt (Ends.accept hallowed hs _) fun found t ht hlt => ?_
  split_ifs
  · refine Ends.bind_left ht hlt (hrule _ (by decide) t ht hlt) fun value r hr hlt => ?_
    exact Ends.bind_left hr hlt (Ends.spanFrom hr start) fun span q hq hlt => Ends.pure hq hlt
  · refine Ends.bind_left ht hlt (hrule _ (by decide) t ht hlt) fun body r hr hlt => ?_
    refine Ends.bind_left hr hlt (Ends.spanFrom hr start) fun span q hq hlt => ?_
    cases kind with
    | finite => exact Ends.pure hq hlt
    | pushdown => exact Ends.pure hq hlt
    | turing => exact Ends.pure hq hlt

/-- The names behind a contextual word. -/
theorem ends_header (hs : Reliable s) (hlt : s.text.length < n) (word : String) :
    (header rule word).Ends allowed s (Left n) := by
  refine Ends.bind_left hs hlt (Ends.checkWord hs word) fun found t ht hlt => ?_
  split_ifs
  · refine Ends.bind_left ht hlt (Ends.next hallowed ht) fun _ r hr hlt => ?_
    exact Ends.bind_left hr hlt (hrule _ (by decide) r hr hlt) fun names q hq hlt =>
      Ends.pure hq hlt
  · exact Ends.pure ht hlt

/-- The symbols behind a contextual word. -/
theorem ends_symbolsAfter (hs : Reliable s) (hlt : s.text.length < n) (word : String) :
    (symbolsAfter rule word).Ends allowed s (Left n) := by
  refine Ends.bind_left hs hlt (Ends.checkWord hs word) fun found t ht hlt => ?_
  split_ifs
  · refine Ends.bind_left ht hlt (Ends.next hallowed ht) fun _ r hr hlt => ?_
    exact Ends.bind_left hr hlt (hrule _ (by decide) r hr hlt) fun symbols q hq hlt =>
      Ends.pure hq hlt
  · exact Ends.pure ht hlt

omit hrule in
/-- The declared start symbol of a grammar. -/
theorem ends_startSymbol (hs : Reliable s) (hlt : s.text.length < n) :
    startSymbol.Ends allowed s (Left n) := by
  refine Ends.bind_left hs hlt (Ends.checkWord hs _) fun found t ht hlt => ?_
  split_ifs
  · refine Ends.bind_left ht hlt (Ends.next hallowed ht) fun _ r hr hlt => ?_
    have hexpect : (withMode .grammar
        (expect [.identifier, .nonTerminal, .unclosedNonTerminal])).Ends allowed r (Left n) :=
      Ends.withMode_left hr fun q hq htext => Ends.left hq (htext ▸ hlt) (Ends.expect hallowed hq _)
    refine hexpect.bind fun token q hq _ hlt => ?_
    exact Ends.bind_left hq hlt (Ends.nonTerminalName hallowed hq token) fun id q' hq' hlt =>
      Ends.pure hq' hlt
  · exact Ends.pure ht hlt

/-- The declaration of a grammar ends well, since its name is read before its body. -/
theorem ends_grammar (hs : Reliable s) (hle : s.text.length ≤ n) (start : Location) :
    (grammar rule start).Ends allowed s (Left n) := by
  refine (Ends.identifier hallowed hs).bind fun name t ht _ hlt => ?_
  have hlt := Nat.lt_of_lt_of_le hlt hle
  refine Ends.bind_left ht hlt (ends_startSymbol hallowed ht hlt) fun startName r hr hlt => ?_
  have hbody : (withMode .grammar (rule "grammar_body")).Ends allowed r (Left n) :=
    Ends.withMode_left hr fun q hq htext =>
      Ends.left hq (htext ▸ hlt) (hrule _ (by decide) q hq (htext ▸ hlt))
  refine hbody.bind fun body q hq _ hlt => ?_
  exact Ends.bind_left hq hlt (Ends.spanFrom hq start) fun span q' hq' hlt => Ends.pure hq' hlt

/-- The productions of one head end well, since the head is read before its alternatives. -/
theorem ends_production (hs : Reliable s) (hle : s.text.length ≤ n) (start : Location) :
    (production rule start).Ends allowed s (Left n) := by
  refine (Ends.expect_left hallowed hs (by decide)).bind fun token t ht _ hlt => ?_
  have hlt := Nat.lt_of_lt_of_le hlt hle
  refine Ends.bind_left ht hlt (Ends.nonTerminalName hallowed ht token) fun head r hr hlt => ?_
  refine Ends.bind_left hr hlt (Ends.expect hallowed hr _) fun _ q hq hlt => ?_
  refine (Ends.limit hq).bind fun rounds _ _ _ hlimit => ?_
  obtain ⟨rfl, hrounds⟩ := hlimit
  rw [alternativesWithin_eq_iterate]
  -- Each round of the loop reads a symbol, so what is left is shorter than before and a smaller
  -- depth suffices for it.
  have halternatives := Ends.iterate hq (fun before r' hr' hle => ends_alternativeRound hallowed hr'
    (fun name hname q' hq' hle' => hrule name hname q' hq'
      (Nat.lt_of_le_of_lt (Nat.le_trans hle' hle) hlt)) before)
    hrounds []
  refine Ends.bind_left hq hlt halternatives fun alternatives r' hr' hlt => ?_
  exact Ends.bind_left hr' hlt (Ends.spanFrom hr' start) fun span q' hq' hlt => Ends.pure hq' hlt

/-- A transition of a finite automaton. -/
theorem ends_finiteTransition (hs : Reliable s) (hle : s.text.length ≤ n) (start : Location) :
    (finiteTransition rule start).Ends allowed s (Left n) := by
  refine (Ends.identifier hallowed hs).bind fun source t ht _ hlt => ?_
  have hlt := Nat.lt_of_lt_of_le hlt hle
  refine Ends.bind_left ht hlt (hrule _ (by decide) t ht hlt) fun condition r hr hlt => ?_
  refine Ends.bind_left hr hlt (Ends.expect hallowed hr _) fun _ q hq hlt => ?_
  refine Ends.bind_left hq hlt (Ends.identifier hallowed hq) fun target q' hq' hlt => ?_
  exact Ends.bind_left hq' hlt (Ends.spanFrom hq' start) fun span r' hr' hlt => Ends.pure hr' hlt

/-- A transition of a pushdown automaton does not run out of depth, and takes some text. An error
about missing parts is none that ends all attempts. -/
theorem ends_pushdownTransition (hs : Reliable s) (hle : s.text.length ≤ n) (start : Location) :
    (pushdownTransition rule start).Ends allowed s (Left n) := by
  -- The state is the first token read; every part behind it works on a shorter text.
  refine (Ends.identifier hallowed hs).bind fun source t ht _ hlt => ?_
  have hlt := Nat.lt_of_lt_of_le hlt hle
  refine Ends.bind_left ht hlt (hrule _ (by decide) t ht hlt) fun condition r hr hlt => ?_
  refine Ends.bind_left hr hlt (ends_symbolsAfter hallowed hrule hr hlt _) fun pop q hq hlt => ?_
  refine Ends.bind_left hq hlt (Ends.expect hallowed hq _) fun _ t' ht' hlt => ?_
  refine Ends.bind_left ht' hlt (Ends.identifier hallowed ht') fun target q' hq' hlt => ?_
  refine Ends.bind_left hq' hlt (ends_symbolsAfter hallowed hrule hq' hlt _) fun push r' hr' hlt =>
    ?_
  refine Ends.bind_left hr' hlt (Ends.spanFrom hr' start) fun span r'' hr'' hlt => ?_
  split_ifs
  · exact (Ends.throw (Q := fun _ _ => False) hr'' (hallowed _ rfl)).bind fun _ _ _ _ h => h.elim
  · exact Ends.pure hr'' hlt

/-- A transition of a Turing machine. -/
theorem ends_turingTransition (hs : Reliable s) (hle : s.text.length ≤ n) (start : Location) :
    (turingTransition rule start).Ends allowed s (Left n) := by
  refine (Ends.identifier hallowed hs).bind fun source t ht _ hlt => ?_
  have hlt := Nat.lt_of_lt_of_le hlt hle
  refine Ends.bind_left ht hlt (hrule _ (by decide) t ht hlt) fun read r hr hlt => ?_
  refine Ends.bind_left hr hlt (Ends.expect hallowed hr _) fun _ q hq hlt => ?_
  refine Ends.bind_left hq hlt (Ends.identifier hallowed hq) fun target q' hq' hlt => ?_
  refine Ends.bind_left hq' hlt (hrule _ (by decide) q' hq' hlt) fun write t' ht' hlt => ?_
  refine Ends.bind_left ht' hlt (hrule _ (by decide) t' ht' hlt) fun shift r' hr' hlt => ?_
  exact Ends.bind_left hr' hlt (Ends.spanFrom hr' start) fun span r'' hr'' hlt => Ends.pure hr'' hlt

/-- A value for the tape of a given name. -/
theorem ends_qualified (hs : Reliable s) (hle : s.text.length ≤ n) {value : String}
    (hvalue : value ≠ "module") (start : Location) :
    (qualified rule value start).Ends allowed s (Left n) := by
  refine (Ends.identifier hallowed hs).bind fun tape t ht _ hlt => ?_
  have hlt := Nat.lt_of_lt_of_le hlt hle
  refine Ends.bind_left ht hlt (Ends.expect hallowed ht _) fun _ r hr hlt => ?_
  refine Ends.bind_left hr hlt (hrule _ hvalue r hr hlt) fun node q hq hlt => ?_
  exact Ends.bind_left hq hlt (Ends.spanFrom hq start) fun span q' hq' hlt => Ends.pure hq' hlt

end Leaves

end Parser

/-- The rules that a leaf runs in front of its first token. -/
def Leaf.firstCalls : Leaf → List String
  | final => ["name_list"]
  | print => ["string"]
  | parenthesized => ["expression"]
  | _ => []

namespace Parser

variable {allowed : SyntaxError → Prop} (hallowed : ∀ e, e.isEndless = false → allowed e)
  {s : TokenStream}
include hallowed

/-- A leaf takes some text, and comes to an end if the rules do that it runs: behind its first token
where less text is left, or in front of it. -/
theorem ends_leaf {rule : String → Parser Node} (l : Leaf) (hs : Reliable s)
    (hrule : ∀ name, name ≠ "module" → ∀ t, Reliable t → t.text.length < s.text.length →
      (rule name).Ends allowed t (Left t.text.length))
    (hfirst : ∀ name ∈ l.firstCalls, (rule name).Ends allowed s (Left s.text.length))
    (start : Location) : (l.read rule start).Ends allowed s (Left s.text.length) := by
  have hle := Nat.le_refl s.text.length
  cases l with
  -- Leaves that begin with a name have taken some text before they run a rule.
  | finite =>
    refine (Ends.identifier hallowed hs).bind fun name t ht _ hlt => ?_
    exact ends_declaration hallowed hrule ht hlt _ name [] start
  | pushdown =>
    refine (Ends.identifier hallowed hs).bind fun name t ht _ hlt => ?_
    refine Ends.bind_left ht hlt (ends_header hallowed hrule ht hlt _) fun names r hr hlt => ?_
    exact ends_declaration hallowed hrule hr hlt _ name names start
  | turing =>
    refine (Ends.identifier hallowed hs).bind fun name t ht _ hlt => ?_
    refine Ends.bind_left ht hlt (ends_header hallowed hrule ht hlt _) fun names r hr hlt => ?_
    exact ends_declaration hallowed hrule hr hlt _ name names start
  | grammar => exact ends_grammar hallowed hrule hs hle start
  | production => exact ends_production hallowed hrule hs hle start
  | initial =>
    refine (Ends.identifier hallowed hs).bind fun state t ht _ hlt => ?_
    exact Ends.bind_left ht hlt (Ends.spanFrom ht start) fun span r hr hlt => Ends.pure hr hlt
  -- Some leaves begin with a rule, which takes text itself.
  | final =>
    refine (hfirst _ List.mem_cons_self).bind fun names t ht _ hlt => ?_
    exact Ends.bind_left ht hlt (Ends.spanFrom ht start) fun span r hr hlt => Ends.pure hr hlt
  | print =>
    refine (hfirst _ List.mem_cons_self).bind fun message t ht _ hlt => ?_
    exact Ends.bind_left ht hlt (Ends.spanFrom ht start) fun span r hr hlt => Ends.pure hr hlt
  | test =>
    refine (Ends.identifier hallowed hs).bind fun automaton t ht _ hlt => ?_
    refine Ends.bind_left ht hlt (hrule _ (by decide) t ht hlt) fun inputs r hr hlt => ?_
    exact Ends.bind_left hr hlt (Ends.spanFrom hr start) fun span q hq hlt => Ends.pure hq hlt
  | finiteTransition => exact ends_finiteTransition hallowed hrule hs hle start
  | pushdownTransition => exact ends_pushdownTransition hallowed hrule hs hle start
  | turingTransition => exact ends_turingTransition hallowed hrule hs hle start
  | qualifiedSymbol => exact ends_qualified hallowed hrule hs hle (by decide) start
  | qualifiedShift => exact ends_qualified hallowed hrule hs hle (by decide) start
  | shift => exact Ends.shift hallowed hs
  | parenthesized =>
    refine (hfirst _ List.mem_cons_self).bind fun expression t ht _ hlt => ?_
    exact Ends.bind_left ht hlt (Ends.expect hallowed ht _) fun _ r hr hlt => Ends.pure hr hlt
  | identifier => exact (Ends.identifier hallowed hs).map fun _ _ _ _ hlt => hlt
  | character => exact Ends.character hallowed hs
  | string => exact Ends.string hallowed hs
  | nonTerminal => exact Ends.nonTerminal hallowed hs

end Parser

end MachineLang
