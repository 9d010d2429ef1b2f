import MachineLang.Proofs.MachineReading
import MachineLang.Proofs.Placement

/-!
# Spans

Every rule of the language but the one for whole programs, run where its range begins no later than
the next token, reads a node that lies behind that place and takes some text
(`Combinator.meets_read`): by induction on how deep the calls go, with one case for each way of
putting rules together. A program may be preceded by line ends, which its rule reads as separators
although its range begins behind them, so for a sequence of statements the place is compared across
line ends (`Parser.meets_statements`). It follows that the spans of every tree that is read are
ranges of the source, nested and in order.
-/

namespace MachineLang

/-- Whether a rule reads something whenever it succeeds, and calls only such rules: no whole
programs. -/
def Combinator.isInner : Combinator → Bool
  | leaf _ => true
  | choose _ branches fallback => branches.all (·.rule != "module") && fallback.all (· != "module")
  | alternative rules => rules.all (· != "module")
  | root statement opening _ => opening.any (· != .endOfInput) && statement != "module"
  | list element brackets _ => brackets.all (·.1 != .endOfInput) && element != "module"
  | binary operand _ => operand != "module"
  | unary operand _ => operand != "module"

/-- All rules of the language but the one for whole programs read something. -/
theorem RuleTable.isInner_of_find? {name : String} {rule : Combinator} (hname : name ≠ "module")
    (hfind : standard.find? name = some rule) : rule.isInner = true := by
  have hall : ∀ entry ∈ standard.rules, entry.1 ≠ "module" → entry.2.isInner = true := by decide
  obtain ⟨before, after, hrules, -⟩ := List.lookup_eq_some_iff.1 hfind
  refine hall (name, rule) ?_ hname
  rw [hrules]
  exact List.mem_append_right _ List.mem_cons_self

namespace Parser

variable {s : TokenStream} {start : Location} {text : List Char}

/-! ## Sequences of statements -/

/-- Separators are skipped up to another token. No line end comes next afterwards, so ignoring line
ends from there on makes no difference. -/
theorem meets_skipSeparatorsWithin (hs : Reliable s) (steps : Nat) :
    (skipSeparatorsWithin steps).Meets s fun _ t =>
      s.placeAcrossLines.offset ≤ t.placeAcrossLines.offset ∧ t.nextToken.kind ≠ .newline := by
  induction steps generalizing s with
  | zero => exact Meets.endless hs
  | succ steps ih =>
    -- If no separator comes next, the next token is no line end; asking does not move the stream.
    have hseparator : (do
        if ← check .newline then return true else check .semicolon : Parser Bool).Meets s
        fun found t => (found = false → s.nextToken.kind ≠ .newline) ∧ Stays s t := by
      refine (Meets.check hs .newline).bind fun found t ht _ hfound => ?_
      obtain ⟨-, hne, hstays⟩ := hfound
      split_ifs with h
      · exact Meets.pure ht ⟨fun hfalse => absurd hfalse (by decide), hstays⟩
      · refine (Meets.check ht .semicolon).imp fun _ r _ _ hr => ⟨fun _ => ?_, hstays.trans hr.2.2⟩
        rcases hne (Bool.eq_false_of_not_eq_true h) with hne | hend
        · exact hne
        · rw [hend]
          decide
    refine hseparator.bind fun found t ht _ hfound => ?_
    obtain ⟨hne, hstays⟩ := hfound
    have hplace := hstays.placeAcrossLines_eq
    split_ifs with h
    · refine (Meets.next ht).bind fun token r hr hlater htook => ?_
      refine (ih hr).imp fun _ q _ _ hq => ⟨?_, hq.2⟩
      exact Nat.le_trans (hplace ▸ ht.placeAcrossLines_le hr hlater htook) hq.1
    · refine Meets.pure ht ⟨Nat.le_of_eq (congrArg _ hplace.symm), ?_⟩
      rw [show t.nextToken = s.nextToken from congrArg (fun u => u.skip.token) hstays.unbuffered_eq]
      exact hne (Bool.eq_false_of_not_eq_true h)

/-- The statements that have been read, the latest first: they lie behind a place one behind the
other, and the place is not ahead. -/
structure Gathered (text : List Char) (start : Location) (nodes : List Node) (t : TokenStream) :
    Prop where
  /-- The stream reads the text. -/
  source_eq : t.source.toList = text
  /-- The place is not ahead of the next token that is no line end. -/
  le : start.offset ≤ t.placeAcrossLines.offset
  /-- The statements lie behind the place. -/
  lies : ∀ n ∈ nodes, n.Lies text start t.lastEnd
  /-- They stand one behind the other. -/
  ordered : nodes.Pairwise fun b a => a.span.stop.offset ≤ b.span.start.offset

/-- A later stream that is no further back across line ends. -/
theorem Gathered.later {nodes : List Node} {t r : TokenStream} (h : Gathered text start nodes t)
    (hlater : Later t r) (hle : t.placeAcrossLines.offset ≤ r.placeAcrossLines.offset) :
    Gathered text start nodes r :=
  ⟨hlater.source_eq.symm ▸ h.source_eq, Nat.le_trans h.le hle,
    fun n hn => (h.lies n hn).mono (Nat.le_refl _) hlater.lastEnd_le, h.ordered⟩

/-- One round of a sequence of statements reads one more statement behind those that were read, or
the closing token, behind which the sequence is complete. -/
theorem meets_statement (hs : Reliable s) {nodes : List Node} (h : Gathered text start nodes s)
    {closing : TokenKind} {item : Parser Node}
    (hitem : ∀ t, Reliable t → item.Meets t (Grows t t.nextPlace)) :
    (statement closing item).Meets s fun found t =>
      match found with
      | none => Gathered text start nodes t ∧ start.offset ≤ t.lastEnd.offset ∧
          ∃ token ∈ t.tokens, token.kind = closing
      | some node => Gathered text start (node :: nodes) t := by
  refine (Meets.limit hs).bind fun steps _ _ _ hlimit => ?_
  subst hlimit
  refine (meets_skipSeparatorsWithin hs steps).bind fun _ t ht hlater hskip => ?_
  have hgathered := h.later hlater hskip.1
  refine (Meets.check ht closing).bind fun found r hr hlater' hfound => ?_
  obtain ⟨hkind, -, hstays⟩ := hfound
  -- Whether the closing token comes next is asked without moving, so the nodes so far still lie in
  -- front.
  have hbehind :=
    hgathered.later hlater' (Nat.le_of_eq (congrArg _ hstays.placeAcrossLines_eq.symm))
  have hnext : r.nextToken = t.nextToken := congrArg (fun u => u.skip.token) hstays.unbuffered_eq
  have hle := hbehind.le
  rw [hr.placeAcrossLines_eq (hnext ▸ hskip.2)] at hle
  split_ifs with hclosed
  · refine (Meets.next hr).bind fun token q hq hlater'' htook => ?_
    refine Meets.pure hq ⟨?_, ?_, token, htook.mem, ?_⟩
    · exact hbehind.later hlater'' (hr.placeAcrossLines_le hq hlater'' htook)
    · calc start.offset ≤ r.nextPlace.offset := hle
        _ = token.location.offset := congrArg _ htook.location_eq.symm
        _ ≤ token.stop.offset := htook.fits.le
        _ = q.lastEnd.offset := congrArg _ htook.lastEnd_eq.symm
    · rw [htook.token_eq, hnext]
      exact hkind hclosed
  · refine (hitem r hr).bind fun node q hq hlater'' hnode => ?_
    refine Meets.pure hq ⟨hlater''.source_eq.symm ▸ hbehind.source_eq, ?_, ?_, ?_⟩
    · calc start.offset ≤ r.nextPlace.offset := hle
        _ ≤ q.lastEnd.offset := hnode.le
        _ ≤ q.nextPlace.offset := hq.lastEnd_le_nextPlace
        _ ≤ q.placeAcrossLines.offset := hq.nextPlace_le_placeAcrossLines
    · refine List.forall_mem_cons.2 ⟨hbehind.source_eq ▸ hnode.lies.mono hle (Nat.le_refl _),
        fun n hn => ?_⟩
      exact (hbehind.lies n hn).mono (Nat.le_refl _) hlater''.lastEnd_le
    · -- Earlier nodes end where the last token did, in front of this one.
      refine List.pairwise_cons.2 ⟨fun n hn => ?_, hbehind.ordered⟩
      calc n.span.stop.offset ≤ r.lastEnd.offset := (hbehind.lies n hn).stop_le
        _ ≤ r.nextPlace.offset := hr.lastEnd_le_nextPlace
        _ ≤ node.span.start.offset := hnode.lies.start_le

/-- A sequence of statements whose range begins at a place that is not ahead of the next token that
is no line end. -/
theorem meets_rootFrom (hs : Reliable s) (hplace : IsPlace s.source.toList start)
    (hstart : start.offset ≤
      (s.apply (s.settings.intercept [.newline, .endOfInput])).placeAcrossLines.offset)
    {closing : TokenKind} {item : Parser Node} (hitem : ∀ t, Reliable t →
      item.Meets t (Grows t t.nextPlace)) :
    (withSettings (.intercept [.newline, .endOfInput]) do
      let nodes ← collect (statement closing item)
      return Node.root nodes (← spanFrom start)).Meets s fun n t =>
        n.Lies s.source.toList start t.lastEnd ∧ ∃ token ∈ t.tokens, token.kind = closing := by
  have hordinary := hs.ordinary.intercept [.newline, .endOfInput]
  have hsource := TokenStream.source_apply s (s.settings.intercept [.newline, .endOfInput])
  obtain ⟨hs', -, -⟩ := hs.apply hordinary
  have hfirst : Gathered s.source.toList start []
      (s.apply (s.settings.intercept [.newline, .endOfInput])) :=
    ⟨congrArg String.toList hsource, hstart, List.forall_mem_nil _, .nil⟩
  -- The statements that have been read, the last one first, stay in order and behind the beginning.
  have hcollect : (collect (statement closing item)).Meets
      (s.apply (s.settings.intercept [.newline, .endOfInput])) fun nodes t =>
        Gathered s.source.toList start nodes.reverse t ∧ start.offset ≤ t.lastEnd.offset ∧
          ∃ token ∈ t.tokens, token.kind = closing := by
    refine Meets.collect hs' hfirst fun nodes t ht _ hnodes => ?_
    refine (meets_statement ht hnodes hitem).imp fun found r _ _ hfound => ?_
    cases found with
    | none => exact ⟨(List.reverse_reverse nodes).symm ▸ hfound.1, hfound.2⟩
    | some node => exact hfound
  have hroot := hcollect.bind fun nodes t ht _ hnodes => (Meets.spanFrom ht start).bind
    (f := fun span => pure (Node.root nodes span))
    (R := fun n t => n.Lies s.source.toList start t.lastEnd ∧ t.source = s.source ∧
      ∃ token ∈ t.tokens, token.kind = closing) fun span _ _ _ hspan => by
        obtain ⟨rfl, rfl⟩ := hspan
        obtain ⟨hgathered, hle, htoken⟩ := hnodes
        have hrange : IsRange s.source.toList ⟨start, t.lastEnd⟩ :=
          ⟨hplace, hgathered.source_eq ▸ ht.lastEnd, hle⟩
        refine Meets.pure ht ⟨.node ⟨hrange, Nat.le_refl _, Nat.le_refl _⟩ (List.forall_mem_nil _)
          (fun n hn => hgathered.lies n (List.mem_reverse.2 hn)) ?_, ?_, htoken⟩
        · exact List.pairwise_reverse.1 hgathered.ordered
        · exact String.toList_injective hgathered.source_eq
  refine Meets.withSettings hs hordinary hroot fun n t ht hlater hn => ?_
  obtain ⟨hlies, -, token, hmem, hkind⟩ := hn
  refine ⟨?_, token, ?_, hkind⟩
  · rw [ht.lastEnd_apply hs.ordinary]
    exact hlies
  · -- The modes are the same, so the tokens ahead are kept.
    have hmodes : s.settings.modes = t.settings.modes := by
      rw [hlater.settings_eq, show (s.apply _).settings = _ from hs.shows.apply _ |>.1.settings_eq]
      rfl
    unfold TokenStream.apply
    rw [if_pos hmodes]
    exact hmem

/-- A sequence of statements behind its opening token lies between this token and the closing one,
and its statements lie within it, one behind the other. -/
theorem meets_statements (hs : Reliable s) (hstart : start.offset ≤ s.nextPlace.offset)
    {opening : TokenKind} (hopening : opening ≠ .endOfInput) {closing : TokenKind}
    {item : Parser Node} (hitem : ∀ t, Reliable t → item.Meets t (Grows t t.nextPlace)) :
    (statements (some opening) closing item start).Meets s (Grows s start) := by
  -- The opening token begins where the stream stands, and takes some text.
  have hopened : (opened (some opening) start).Meets s fun l t => l = s.nextPlace ∧
      l.offset ≤ t.lastEnd.offset ∧ t.text.length < s.text.length := by
    refine (Meets.expect hs _).map fun token t ht _ htook => ?_
    obtain ⟨htook, hkind⟩ := htook
    refine ⟨htook.location_eq, htook.lastEnd_eq ▸ htook.fits.le, htook.length_lt ?_⟩
    rw [List.mem_singleton.1 hkind]
    exact hopening
  refine hopened.bind fun l t ht hlater hl => ?_
  obtain ⟨rfl, hle, hlt⟩ := hl
  have hordinary := ht.ordinary.intercept [.newline, .endOfInput]
  obtain ⟨ht', -, -⟩ := ht.apply hordinary
  -- Ignoring line ends can only move the next token further on.
  have hacross : s.nextPlace.offset ≤
      (t.apply (t.settings.intercept [.newline, .endOfInput])).placeAcrossLines.offset :=
    calc s.nextPlace.offset ≤ t.lastEnd.offset := hle
      _ = (t.apply (t.settings.intercept [.newline, .endOfInput])).lastEnd.offset :=
        congrArg _ (ht.lastEnd_apply hordinary).symm
      _ ≤ (t.apply (t.settings.intercept [.newline, .endOfInput])).nextPlace.offset :=
        ht'.lastEnd_le_nextPlace
      _ ≤ (t.apply (t.settings.intercept [.newline, .endOfInput])).placeAcrossLines.offset :=
        ht'.nextPlace_le_placeAcrossLines
  refine (meets_rootFrom ht (hlater.source_eq.symm ▸ hs.nextPlace.1) hacross hitem).imp
    fun n r hr hlater' hn => ?_
  refine ⟨?_, Nat.lt_of_le_of_lt (ht.length_text_le hr hlater') hlt⟩
  rw [← hlater.source_eq]
  exact hn.1.mono hstart (Nat.le_refl _)

/-! ## Lists -/

/-- The elements of a list lie between its start and the last token, in order. -/
theorem meets_elementsWithin (hs : Reliable s) (hb : Behind text start s) {separator : TokenKind}
    {item : Parser Node} (hitem : ∀ t, Reliable t → item.Meets t (Grows t t.nextPlace))
    {steps : Nat} {before : List Node} (hbefore : ∀ n ∈ before, n.Lies text start s.lastEnd) :
    (elementsWithin separator item steps before).Meets s fun nodes t => ∀ n ∈ nodes,
      n.Lies text start t.lastEnd := by
  induction steps generalizing s before with
  | zero => exact Meets.endless hs
  | succ steps ih =>
    refine (hitem s hs).bind fun node t ht hlater hnode => ?_
    refine (Meets.accept ht _).bind fun found r hr hlater' _ => ?_
    -- What was read before lies in front of the place that reading has got to.
    have hall : ∀ n ∈ node :: before, n.Lies text start r.lastEnd := by
      refine List.forall_mem_cons.2 ⟨(hb.lies hs hnode).mono (Nat.le_refl _) hlater'.lastEnd_le,
        fun n hn => ?_⟩
      exact (hbefore n hn).mono (Nat.le_refl _) (hlater.trans hlater').lastEnd_le
    split_ifs
    · exact ih hr ((hb.later hlater).later hlater') hall
    · exact Meets.pure hr fun n hn => hall n (List.mem_reverse.1 hn)

/-- A list in brackets lies between its brackets, and its elements lie within it. It may be empty,
but with its opening bracket it takes some text. -/
theorem meets_bracketed (hs : Reliable s) (hplace : IsPlace s.source.toList start)
    (hstart : start.offset ≤ s.nextPlace.offset) {opening closing separator : TokenKind}
    (hopening : opening ≠ .endOfInput) {item : Parser Node}
    (hitem : ∀ t, Reliable t → item.Meets t (Grows t t.nextPlace)) :
    (bracketed opening closing separator item start).Meets s (Grows s start) := by
  have hordinary : (s.settings.ignore [.newline]).Ordinary := hs.ordinary.ignore (by decide)
  have hsource := TokenStream.source_apply s (s.settings.ignore [.newline])
  obtain ⟨hs', hunbuffered, -⟩ := hs.apply hordinary
  have hnext : start.offset ≤ (s.apply (s.settings.ignore [.newline])).nextPlace.offset := by
    refine Nat.le_trans hstart ?_
    unfold TokenStream.nextPlace
    rw [hunbuffered]
    exact hs.nextPlace_le_placeAcrossLines
  refine Meets.withSettings (Q := Grows (s.apply (s.settings.ignore [.newline])) start) hs hordinary
    ?_ fun n t ht _ hn => hn.of_apply hs ht hordinary
  rw [← hsource] at hplace
  generalize s.apply (s.settings.ignore [.newline]) = s at *
  refine (Meets.expect hs' _).bind fun token t ht hlater htook => ?_
  obtain ⟨htook, hkind⟩ := htook
  have hb := Behind.of_within hplace hnext hlater htook.within
  refine (Meets.check ht closing).bind fun found r hr hlater' _ => ?_
  have hbr := hb.later hlater'
  -- Behind the elements comes the closing bracket.
  have hclose : ∀ nodes q, Reliable q → Later r q →
      (∀ n ∈ nodes, n.Lies s.source.toList start q.lastEnd) →
      (do let _ ← expect [closing]; return .list nodes (← spanFrom start) : Parser Node).Meets q
        fun n q' => n.Lies s.source.toList start q'.lastEnd ∧ q'.text.length < s.text.length := by
    intro nodes q hq hlater'' hnodes
    refine (Meets.expect hq _).bind fun _ q' hq' hlater''' _ => ?_
    refine (Meets.spanFrom hq' start).bind fun span _ _ _ hspan => ?_
    obtain ⟨rfl, rfl⟩ := hspan
    refine Meets.pure hq'
      ⟨((hbr.later hlater'').later hlater''').node hq' rfl (List.forall_mem_nil _)
      (fun n hn => (hnodes n hn).mono (Nat.le_refl _) hlater'''.lastEnd_le) rfl, ?_⟩
    refine Nat.lt_of_le_of_lt (ht.length_text_le hq' (hlater'.trans (hlater''.trans hlater''')))
      (htook.length_lt ?_)
    rw [List.mem_singleton.1 hkind]
    exact hopening
  split_ifs
  · exact (hclose [] r hr (.refl r) (List.forall_mem_nil _)).imp fun n q _ _ hn => ⟨hn.1, hn.2⟩
  · refine (Meets.limit hr).bind fun steps _ _ _ hlimit => ?_
    subst hlimit
    refine (meets_elementsWithin hr hbr hitem (List.forall_mem_nil _)).bind
      fun nodes q hq hlater'' hnodes => ?_
    exact (hclose nodes q hq hlater'' hnodes).imp fun n q _ _ hn => ⟨hn.1, hn.2⟩

/-! ## Operators -/

/-- The operations behind a first operand lie between its beginning and the end of the last token
that was read, and each of them holds all that is in front of it. -/
theorem meets_operationsWithin (hs : Reliable s) (hb : Behind text start s)
    {operators : List (TokenKind × BinaryOp)} {operand : Parser Node}
    (hoperand : ∀ t, Reliable t → operand.Meets t (Grows t t.nextPlace)) {steps : Nat} {left : Node}
    (hleft : left.Lies text start s.lastEnd) :
    (operationsWithin operators operand start steps left).Meets s fun n t =>
      n.Lies text start t.lastEnd := by
  -- By induction on the operations that may still follow: each takes what was read so far as its
  -- left operand.
  induction steps generalizing s left with
  | zero => exact Meets.endless hs
  | succ steps ih =>
    refine (Meets.operator? hs operators).bind fun op t ht hlater _ => ?_
    have hbt := hb.later hlater
    cases op with
    | none => exact Meets.pure ht (hleft.mono (Nat.le_refl _) hlater.lastEnd_le)
    | some op =>
      refine (Meets.next ht).bind fun _ r hr hlater' _ => ?_
      refine (hoperand r hr).bind fun right q hq hlater'' hright => ?_
      refine (Meets.spanFrom hq start).bind fun span _ _ _ hspan => ?_
      obtain ⟨rfl, rfl⟩ := hspan
      have hbr := hbt.later hlater'
      have hbehind := hlater.trans (hlater'.trans hlater'')
      refine ih hq (hbr.later hlater'')
        ((hbr.later hlater'').node hq rfl (List.forall_mem_nil _) ?_ rfl)
      exact List.forall_mem_cons.2 ⟨hleft.mono (Nat.le_refl _) hbehind.lastEnd_le,
        List.forall_mem_singleton.2 (hbr.lies hr hright)⟩

/-- A choice looks at the next token, which stays where it is: what is read later begins at its
place, even if the token is cut under another mode. -/
theorem meets_choiceToken (hs : Reliable s) (mode : Option LexMode) (kinds : List TokenKind) :
    (choiceToken mode kinds).Meets s fun token t =>
      token.location = s.nextPlace ∧ IsRange s.source.toList token.span ∧ Stays s t := by
  -- Another mode may change how the token is cut, but not where it begins.
  have hpeek : (withMode? mode peek).Meets s fun token t =>
      token.location = s.nextPlace ∧ IsRange s.source.toList token.span ∧ Stays s t := by
    cases mode with
    | none =>
      refine (Meets.peek hs).imp fun token t _ _ htoken => ?_
      obtain ⟨rfl, hstays⟩ := htoken
      exact ⟨hs.nextToken.2, hs.nextToken.1.isRange, hstays⟩
    | some mode =>
      have hordinary := hs.ordinary.push mode
      obtain ⟨hs', hunbuffered, -⟩ := hs.apply hordinary
      unfold withMode? withMode
      refine Meets.withSettings hs hordinary (Meets.peek hs') fun token t ht hlater htoken => ?_
      obtain ⟨rfl, hstays⟩ := htoken
      refine ⟨hs'.nextToken.2.trans (hs.nextPlace_push mode), ?_, (ht.apply hs.ordinary).1,
        hs.later_apply hordinary ht hlater, ?_⟩
      · have hrange := hs'.nextToken.1.isRange
        rw [TokenStream.source_apply] at hrange
        exact hrange
      · rw [(ht.apply hs.ordinary).2.1, hstays.unbuffered_eq, hunbuffered]
        rfl
  refine Meets.tryCatch hpeek fun e t ht _ he => ?_
  split
  · exact Meets.throw ht he
  · exact Meets.throw ht he

end Parser

/-! ## Rules -/

section Calls

variable {depth : Nat} {s : TokenStream} {start : Location} {name : String}
  (hread : ∀ rule : Combinator, rule.isInner = true → ∀ start s, Reliable s →
    IsPlace s.source.toList start →
    start.offset ≤ s.nextPlace.offset → (rule.read .standard depth start).Meets s (Grows s start))
include hread

/-- A rule that is called by name reads what it reads. -/
theorem RuleTable.meets_callFrom (hname : name ≠ "module") (hs : Reliable s)
    (hplace : IsPlace s.source.toList start) (hstart : start.offset ≤ s.nextPlace.offset) :
    (standard.callFrom depth name start).Meets s (Grows s start) := by
  unfold callFrom
  split
  · exact Parser.Meets.throw hs (.point hplace)
  · next rule hfind => exact hread rule (isInner_of_find? hname hfind) start s hs hplace hstart

/-- A rule that is called by name reads from the next token on. -/
theorem RuleTable.meets_call (hname : name ≠ "module") (hs : Reliable s) :
    (standard.call depth name).Meets s (Grows s s.nextPlace) := by
  refine (Parser.Meets.location hs).bind fun l t ht hlater hl => ?_
  obtain ⟨rfl, hstays⟩ := hl
  refine (meets_callFrom hread hname ht (hlater.source_eq.symm ▸ hs.nextPlace.1) ?_).imp
    fun n r _ _ hn => hn.of_later hs ht hlater
  exact Nat.le_of_eq (congrArg _ hstays.nextPlace_eq.symm)

/-! One case for each kind of rule. -/

/-- A choice reads what the branch of the next token or the fallback reads, and its node lies where
theirs does: nothing but the token that selects it is in front. -/
theorem Combinator.meets_choose {mode : Option LexMode} {branches : List Branch}
    {fallback : Option String} (hrule : (choose mode branches fallback).isInner = true)
    (hs : Reliable s) (hstart : start.offset ≤ s.nextPlace.offset) :
    ((choose mode branches fallback).read .standard (depth + 1) start).Meets s (Grows s start) := by
  obtain ⟨hbranches, hfallback⟩ := Bool.and_eq_true_iff.1 hrule
  refine (Parser.meets_choiceToken hs mode _).bind fun token t ht hlater htoken => ?_
  obtain ⟨hlocation, hrange, hstays⟩ := htoken
  have hsource := hlater.source_eq
  have htoken : IsPlace t.source.toList token.location := hsource.symm ▸ hrange.start
  have hnext : token.location.offset ≤ t.nextPlace.offset := by rw [hlocation, hstays.nextPlace_eq]
  have hgrows : ∀ n r, Grows t token.location n r → Grows s start n r := fun n r hn =>
    (hn.of_later hs ht hlater).mono (hlocation ▸ hstart)
  dsimp only
  split
  · next branch hfind =>
    have hname : branch.rule ≠ "module" :=
      bne_iff_ne.1 (List.all_eq_true.1 hbranches branch (List.mem_of_find?_eq_some hfind))
    -- The branch is read under the mode of the choice, perhaps behind the token that selects it.
    have hbranch : ∀ q, Reliable q → IsPlace q.source.toList token.location →
        token.location.offset ≤ q.nextPlace.offset →
        (do
          if branch.consume then let _ ← Parser.next
          RuleTable.standard.callFrom depth branch.rule token.location : Parser Node).Meets q
          (Grows q token.location) := by
      intro q hq hplace hle
      split_ifs
      · refine (Parser.Meets.next hq).bind fun _ q' hq' hlater' htook => ?_
        have hle' : token.location.offset ≤ q'.nextPlace.offset := by
          refine Nat.le_trans (Nat.le_trans hle ?_) hq'.lastEnd_le_nextPlace
          exact Nat.le_trans (htook.within).start_le
            (Nat.le_trans (htook.within).isRange.le (htook.within).stop_le)
        refine (RuleTable.meets_callFrom hread hname hq' (hlater'.source_eq.symm ▸ hplace) hle').imp
          fun n r _ _ hn => hn.of_later hq hq' hlater'
      · exact RuleTable.meets_callFrom hread hname hq hplace hle
    cases mode with
    | none => exact (hbranch t ht htoken hnext).imp fun n r _ _ hn => hgrows n r hn
    | some mode =>
      have hordinary := ht.ordinary.push mode
      obtain ⟨ht', -, -⟩ := ht.apply hordinary
      refine Parser.Meets.withSettings ht hordinary (hbranch _ ht' ?_ ?_)
        fun n r hr _ hn => hgrows n _ (hn.of_apply ht hr hordinary)
      · rw [TokenStream.source_apply]
        exact htoken
      · rw [ht.nextPlace_push]
        exact hnext
  · split
    · next other =>
      have hname : other ≠ "module" := bne_iff_ne.1 hfallback
      exact (RuleTable.meets_callFrom hread hname ht htoken hnext).imp fun n r _ _ hn =>
        hgrows n r hn
    · exact Parser.Meets.throw ht (hsource.symm ▸ hrange)

/-- Of some rules the first one that succeeds reads the node. -/
theorem Combinator.meets_alternative {rules : List String}
    (hrule : (alternative rules).isInner = true) (hs : Reliable s)
    (hplace : IsPlace s.source.toList start) (hstart : start.offset ≤ s.nextPlace.offset) :
    ((alternative rules).read .standard (depth + 1) start).Meets s (Grows s start) := by
  refine Parser.Meets.oneOf hs (.point hplace) (List.forall_mem_map.2 fun name hname t hstays => ?_)
  have hne : name ≠ "module" := bne_iff_ne.1 (List.all_eq_true.1 hrule name hname)
  have hle : start.offset ≤ t.nextPlace.offset := hstays.nextPlace_eq.symm ▸ hstart
  exact (RuleTable.meets_callFrom hread hne hstays.reliable (hstays.later.source_eq.symm ▸ hplace)
    hle).imp fun n r _ _ hn => hn.of_later hs hstays.reliable hstays.later

/-- Statements in braces lie behind the opening one. -/
theorem Combinator.meets_root {opening : Option TokenKind} {closing : TokenKind}
    (hrule : (root name opening closing).isInner = true) (hs : Reliable s)
    (hstart : start.offset ≤ s.nextPlace.offset) :
    ((root name opening closing).read .standard (depth + 1) start).Meets s (Grows s start) := by
  obtain ⟨hopening, hname⟩ := Bool.and_eq_true_iff.1 hrule
  obtain ⟨opening, rfl, hopening⟩ := (Option.any_eq_true _ _).1 hopening
  exact Parser.meets_statements hs hstart (bne_iff_ne.1 hopening) fun _ =>
    RuleTable.meets_call hread (bne_iff_ne.1 hname)

/-- A list holds the elements in brackets, or one without any, and lies where these lie. Its range
begins at the first of its tokens. -/
theorem Combinator.meets_list {brackets : Option (TokenKind × TokenKind)} {separator : TokenKind}
    (hrule : (list name brackets separator).isInner = true) (hs : Reliable s)
    (hplace : IsPlace s.source.toList start) (hstart : start.offset ≤ s.nextPlace.offset) :
    ((list name brackets separator).read .standard (depth + 1) start).Meets s (Grows s start) := by
  obtain ⟨hopening, hname⟩ := Bool.and_eq_true_iff.1 hrule
  have hname : name ≠ "module" := bne_iff_ne.1 hname
  -- Without brackets, the list is as long as its only element.
  have hbare : ∀ t, Stays s t → (do
      let item ← RuleTable.standard.callFrom depth name start
      return .list [item] item.span : Parser Node).Meets t (Grows s start) := by
    intro t hstays
    have hle : start.offset ≤ t.nextPlace.offset := hstays.nextPlace_eq.symm ▸ hstart
    refine (RuleTable.meets_callFrom hread hname hstays.reliable
      (hstays.later.source_eq.symm ▸ hplace) hle).bind fun item r hr hlater hitem => ?_
    have hitem := hitem.of_later hs hstays.reliable hstays.later
    refine Parser.Meets.pure hr ⟨.node hitem.lies.within (List.forall_mem_nil _) ?_ .nil,
      hitem.length_lt⟩
    exact List.forall_mem_singleton.2 hitem.lies.self
  cases brackets with
  | none => exact hbare s (.refl hs)
  | some brackets =>
    obtain ⟨opening, closing⟩ := brackets
    refine (Parser.Meets.check hs opening).bind fun found t ht hlater hfound => ?_
    obtain ⟨-, -, hstays⟩ := hfound
    split_ifs
    · refine (Parser.meets_bracketed ht (hlater.source_eq.symm ▸ hplace) ?_ (bne_iff_ne.1 hopening)
        fun _ => RuleTable.meets_call hread hname).imp fun n r _ _ hn => hn.of_later hs ht hlater
      rw [hstays.nextPlace_eq]
      exact hstart
    · exact hbare t hstays

/-- Operators between operands lie behind the first operand, and the node of each holds both of its
operands. -/
theorem Combinator.meets_binary {operators : List (TokenKind × BinaryOp)}
    (hrule : (binary name operators).isInner = true) (hs : Reliable s)
    (hplace : IsPlace s.source.toList start) (hstart : start.offset ≤ s.nextPlace.offset) :
    ((binary name operators).read .standard (depth + 1) start).Meets s (Grows s start) := by
  have hname : name ≠ "module" := bne_iff_ne.1 hrule
  refine (RuleTable.meets_callFrom hread hname hs hplace hstart).bind fun left t ht hlater hleft =>
    ?_
  refine (Parser.Meets.limit ht).bind fun steps _ _ _ hlimit => ?_
  subst hlimit
  have hb : Behind s.source.toList start t := ⟨congrArg _ hlater.source_eq, hplace, hleft.le⟩
  refine (Parser.meets_operationsWithin ht hb (fun _ => RuleTable.meets_call hread hname)
    hleft.lies).imp fun n r hr hlater' hn => ?_
  exact ⟨hn, Nat.lt_of_le_of_lt (ht.length_text_le hr hlater') hleft.length_lt⟩

/-- An operator is followed by what its own rule reads again, one level deeper, and the node of the
operator holds the one of its operand. -/
theorem Combinator.meets_unary {operators : List (TokenKind × UnaryOp)}
    (hrule : (unary name operators).isInner = true) (hs : Reliable s)
    (hplace : IsPlace s.source.toList start) (hstart : start.offset ≤ s.nextPlace.offset) :
    ((unary name operators).read .standard (depth + 1) start).Meets s (Grows s start) := by
  have hname : name ≠ "module" := bne_iff_ne.1 hrule
  refine (Parser.Meets.operator? hs operators).bind fun op t ht hlater hop => ?_
  have hstays := hop.2
  cases op with
  | none =>
    refine (RuleTable.meets_callFrom hread hname ht (hlater.source_eq.symm ▸ hplace) ?_).imp
      fun n r _ _ hn => hn.of_later hs ht hlater
    rw [hstays.nextPlace_eq]
    exact hstart
  | some op =>
    refine (Parser.Meets.next ht).bind fun token r hr hlater' htook => ?_
    refine (Parser.Meets.location hr).bind fun inner q hq hlater'' hinner => ?_
    obtain ⟨rfl, hstays'⟩ := hinner
    -- The operator itself lies behind the place where the rule began.
    have hb : Behind s.source.toList start r := by
      refine ⟨congrArg _ (hlater.trans hlater').source_eq, hplace, Nat.le_trans hstart ?_⟩
      have hwithin := (htook.of_stays hstays).within
      exact Nat.le_trans hwithin.start_le (Nat.le_trans hwithin.isRange.le hwithin.stop_le)
    -- Behind it, the rule is used again, one level deeper.
    have hoperand : ((unary name operators).read .standard depth r.nextPlace).Meets q
        (Grows q q.nextPlace) := by
      rw [← hstays'.nextPlace_eq]
      exact hread _ hrule _ q hq hq.nextPlace.1 (Nat.le_refl _)
    refine hoperand.bind fun n q' hq' hlater''' hn => ?_
    refine (Parser.Meets.spanFrom hq' start).bind fun span _ _ _ hspan => ?_
    obtain ⟨rfl, rfl⟩ := hspan
    have hbq := hb.later hlater''
    refine Parser.Meets.pure hq' ⟨(hbq.later hlater''').node hq' rfl (List.forall_mem_nil _)
      (List.forall_mem_singleton.2 (hbq.lies hq hn)) rfl, ?_⟩
    exact (hn.of_later hs hq (hlater.trans (hlater'.trans hlater''))).length_lt

end Calls

/-- Every rule but the one for whole programs reads a node that lies behind the place where it
begins. -/
theorem Combinator.meets_read {depth : Nat} {rule : Combinator} (hrule : rule.isInner = true)
    {s : TokenStream} {start : Location} (hs : Reliable s)
    (hplace : IsPlace s.source.toList start) (hstart : start.offset ≤ s.nextPlace.offset) :
    (rule.read .standard depth start).Meets s (Grows s start) := by
  -- By induction on the depth of the calls: a rule that is called reads such a node already.
  induction depth generalizing rule s start with
  | zero => exact Parser.Meets.endless hs
  | succ depth ih =>
    have hread : ∀ rule : Combinator, rule.isInner = true → ∀ start s, Reliable s →
        IsPlace s.source.toList start →
        start.offset ≤ s.nextPlace.offset → (rule.read .standard depth start).Meets s
          (Grows s start) :=
      fun rule hrule start s hs hplace hstart => ih hrule hs hplace hstart
    cases rule with
    | leaf l =>
      exact Parser.meets_leaf (fun _ hname _ hs => RuleTable.meets_call hread hname hs) l hs
        hplace hstart
    | choose mode branches fallback => exact meets_choose hread hrule hs hstart
    | alternative rules => exact meets_alternative hread hrule hs hplace hstart
    | root name opening closing => exact meets_root hread hrule hs hstart
    | list element brackets separator => exact meets_list hread hrule hs hplace hstart
    | binary operand operators => exact meets_binary hread hrule hs hplace hstart
    | unary operand operators => exact meets_unary hread hrule hs hplace hstart

/-! ## Programs -/

/-- A place in front of the next token is not ahead across line ends if these are skipped anyway. -/
theorem Reliable.placeAcrossLines_intercept {s : TokenStream} (hs : Reliable s)
    (hsettings : s.settings = .initial) :
    (s.apply (s.settings.intercept [.newline, .endOfInput])).placeAcrossLines = s.nextPlace := by
  have hunbuffered := (hs.apply (hs.ordinary.intercept [.newline, .endOfInput])).2.1
  have happly : (s.apply (s.settings.intercept [.newline, .endOfInput])).settings =
      s.settings.intercept [.newline, .endOfInput] := congrArg Unbuffered.settings hunbuffered
  unfold TokenStream.placeAcrossLines TokenStream.nextPlace
  rw [happly, hunbuffered, hsettings]
  -- Both skip the same blanks, and only the end token makes a difference.
  let lines : Settings := (Settings.initial.intercept [.newline, .endOfInput]).ignore [.newline]
  obtain ⟨-, -, -, -, hskip⟩ := Unbuffered.skip_spec (u := s.unbuffered.apply lines) hs.isPlace
  have hsubset : lines.ignored ⊆ Settings.initial.ignored := by decide
  have hplace : ((s.unbuffered.apply lines).apply .initial).skip.place = _ :=
    Unbuffered.place_skip_eq_of_subset rfl hsubset ?_ hskip
  · have hsame : (s.unbuffered.apply lines).apply .initial = s.unbuffered := by
      rw [← hsettings]
      rfl
    rw [hsame] at hplace
    exact hplace.symm
  · refine (Unbuffered.kind_token_skip (s.unbuffered.apply lines)).elim .inl fun hread => ?_
    have hkinds : ∀ kind, lines.ignored.contains kind = false →
        kind = .endOfInput ∨ Settings.initial.ignored.contains kind = false := by
      intro kind
      cases kind <;> decide
    exact hkinds _ hread

/-- What is left of the stream when a program has been read: its tree lies in the source, and the
end token is in the buffer. -/
theorem meets_parse_module (source : String) :
    (RuleTable.standard.parse "module").Meets (.ofSource source) fun tree t =>
      tree.Lies source.toList .start t.lastEnd ∧ ∃ token ∈ t.tokens, token.kind = .endOfInput := by
  have hs := Reliable.ofSource source
  refine (Parser.Meets.location hs).bind fun start t ht hlater hstart => ?_
  obtain ⟨rfl, hstays⟩ := hstart
  have hget : (get : Parser TokenStream).Meets t fun value r => t = value ∧ t = r :=
    Parser.Meets.of_ok rfl ht (.refl t) ⟨rfl, rfl⟩
  refine hget.bind fun _ _ _ _ hvalue => ?_
  obtain ⟨rfl, rfl⟩ := hvalue
  have hfind : RuleTable.standard.find? "module" = some (.root "statement" none .endOfInput) := rfl
  rw [hfind]
  have hsource : t.source = source := hlater.source_eq
  rw [← hstays.nextPlace_eq]
  cases RuleTable.standard.depthLimit t.source with
  | zero => exact Parser.Meets.endless ht
  | succ depth =>
    -- The statements are read by a rule of the table, which is known to place its nodes.
    have hitem : ∀ r, Reliable r →
        (RuleTable.standard.call depth "statement").Meets r (Grows r r.nextPlace) := fun r hr =>
      RuleTable.meets_call (fun rule hrule start s hs => rule.meets_read hrule hs) (by decide) hr
    have hplace := ht.placeAcrossLines_intercept hlater.settings_eq
    refine (Parser.Meets.pure ht (Q := fun l r => l = t.nextPlace ∧ t = r) ⟨rfl, rfl⟩).bind
      fun start _ _ _ hstart => ?_
    obtain ⟨rfl, rfl⟩ := hstart
    refine (Parser.meets_rootFrom ht ht.nextPlace.1 (Nat.le_of_eq (congrArg _ hplace.symm))
      hitem).imp fun n r _ _ hn => ⟨?_, hn.2⟩
    rw [← hsource]
    exact hn.1.mono (Nat.zero_le _) (Nat.le_refl _)

/-- What has been read when a program is read. -/
theorem exists_of_parseProgram {source : String} {tree : Node} {tokens : List Token}
    (h : parseProgram source = .ok (tree, tokens)) :
    ∃ t, Reliable t ∧ t.source = source ∧ tokens = t.tokens ∧
      tree.Lies source.toList .start t.lastEnd ∧ ∃ token ∈ tokens, token.kind = .endOfInput := by
  unfold parseProgram at h
  rcases hparse : RuleTable.standard.parse "module" (.ofSource source) with ⟨_ | tree', t⟩
  · rw [hparse] at h
    cases h
  · rw [hparse] at h
    cases h
    obtain ⟨ht, hlater, hlies, htoken⟩ := (meets_parse_module source).of_eq_ok hparse
    exact ⟨t, ht, hlater.source_eq, rfl, hlies, htoken⟩

/-- The spans of a tree that is read are ranges of the source, those of the names and children of a
node lie within its own, and its statements stand one behind the other. -/
theorem placed_of_parseProgram {source : String} {tree : Node} {tokens : List Token}
    (h : parseProgram source = .ok (tree, tokens)) {n : Node} (hn : tree.Contains n) :
    n.Placed source.toList := by
  obtain ⟨t, -, -, -, hlies, -⟩ := exists_of_parseProgram h
  exact hlies.placed n hn

/-- A machine with two tapes behind a comment, and a test of it. -/
def twoTapes : String :=
  "\n// two tapes\nturing M tapes [a, b] \x7b\n  p [b: x, $blank] -> q 'y' [<, b: -]; final q\n" ++
    "\x7d\ntest M [\"x\"]"

/-- All nodes of that program are placed, down to the symbols of its transitions, which are read by
two rules in turn. -/
theorem placed_of_parseProgram_twoTapes :
    ∃ tree tokens, parseProgram twoTapes = .ok (tree, tokens) ∧ tree.statements.length = 2 ∧
      ∀ n, tree.Contains n → n.Placed twoTapes.toList := by
  have hlength : (parseProgram twoTapes).toOption.map (fun r => r.1.statements.length) =
      some 2 := by decide +kernel
  cases hread : parseProgram twoTapes with
  | error e =>
    rw [hread] at hlength
    cases hlength
  | ok result =>
    obtain ⟨tree, tokens⟩ := result
    rw [hread] at hlength
    exact ⟨tree, tokens, rfl, Option.some.inj hlength, fun n hn => placed_of_parseProgram hread hn⟩

end MachineLang
