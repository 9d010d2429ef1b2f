import MachineLang.Proofs.Carrying

/-!
# The edges of transitions

Each form of a transition begins with an `edge`: a name, what is read, an arrow and another name. An
edge that is recognized in front of one ending shows the way to the arrow, so in front of the other
ending every form finds the same edge or none (`edge_retraces`). Behind it, a list of shifts that
stands where symbols are recognized is one in front of both endings (`shifts_of_symbols`).
-/

namespace MachineLang

open Recognizer

variable {kind : TokenKind} {value rest text mid r r' t t' : List Char} {ignored : List TokenKind}
  {β β' : Type} {node : Node}

namespace Recognizer

/-- A name, what is read, an arrow and another name. -/
def edge (G : Recognizer β) : Recognizer (Identifier × β × Identifier) := do
  let source ← identifier ⟨[.base], lineBlanks⟩
  let read ← G
  let _ ← token ⟨[.base], lineBlanks⟩ [.arrow]
  let target ← identifier ⟨[.base], lineBlanks⟩
  return (source, read, target)

/-- What a pushdown automaton reads: a symbol, and perhaps symbols to take from the stacks. -/
def readAndPop : Recognizer (Node × Option (List Node)) := do
  let symbol ← condition lineBlanks
  let pop ← symbolsAfter lineBlanks "pop"
  return (symbol, pop)

/-- A name is recognized where an identifier is the next token. -/
theorem identifier_iff {settings : Settings} {id : Identifier} : identifier settings text id rest ↔
    ∃ value, Next settings .identifier value rest text ∧ id = ⟨.ofList value, .invalid⟩ := by
  constructor
  · rintro ⟨⟨kind, value⟩, _, ⟨hkind, hnext⟩, rfl, rfl⟩
    obtain rfl := List.mem_singleton.1 (List.contains_iff_mem.1 hkind)
    exact ⟨value, hnext, rfl⟩
  · rintro ⟨value, hnext, rfl⟩
    exact ⟨(.identifier, value), _, ⟨rfl, hnext⟩, rfl, rfl⟩

/-- The parts of an edge: a name, what is read between, an arrow, and another name. -/
theorem edge_iff {G : Recognizer β} {source target : Identifier} {b : β} :
    edge G text (source, b, target) rest ↔
    ∃ first a mid value c last, Next ⟨[.base], lineBlanks⟩ .identifier first a text ∧ G a b mid ∧
      Next ⟨[.base], lineBlanks⟩ .arrow value c mid ∧
        Next ⟨[.base], lineBlanks⟩ .identifier last rest c ∧
      source = ⟨.ofList first, .invalid⟩ ∧ target = ⟨.ofList last, .invalid⟩ := by
  constructor
  · rintro ⟨source', a, hsource, b', mid, hb, ⟨kind, value⟩, c, ⟨hkind, harrow⟩, target', _,
      htarget, hpair, rfl⟩
    obtain ⟨first, hfirst, rfl⟩ := identifier_iff.1 hsource
    obtain ⟨last, hlast, rfl⟩ := identifier_iff.1 htarget
    obtain rfl := List.mem_singleton.1 (List.contains_iff_mem.1 hkind)
    cases hpair
    exact ⟨first, a, mid, value, c, last, hfirst, hb, harrow, hlast, rfl, rfl⟩
  · rintro ⟨first, a, mid, value, c, last, hfirst, hb, harrow, hlast, rfl, rfl⟩
    exact ⟨_, a, identifier_iff.2 ⟨first, hfirst, rfl⟩, b, mid, hb, (.arrow, value), c,
      ⟨rfl, harrow⟩, _, rest, identifier_iff.2 ⟨last, hlast, rfl⟩, rfl, rfl⟩

/-- A transition of a finite automaton is an edge. -/
theorem finiteTransition_iff : finiteTransition lineBlanks text node rest ↔
    ∃ source symbol target, edge (condition lineBlanks) text (source, symbol, target) rest ∧
      node = .finiteTransition source symbol target .invalid := by
  constructor
  · rintro ⟨source, a, hsource, symbol, mid, hsymbol, t, c, harrow, target, _, htarget, rfl, rfl⟩
    exact ⟨source, symbol, target, ⟨_, _, hsource, _, _, hsymbol, _, _, harrow, _, _, htarget,
      rfl, rfl⟩, rfl⟩
  · rintro ⟨source, symbol, target, ⟨source', a, hsource, symbol', mid, hsymbol, t, c, harrow,
      target', _, htarget, hpair, rfl⟩, rfl⟩
    cases hpair
    exact ⟨_, _, hsource, _, _, hsymbol, _, _, harrow, _, _, htarget, rfl, rfl⟩

/-- A transition of a pushdown automaton is an edge, and perhaps symbols to put on the stacks; one
of the two parts is there. -/
theorem pushdownTransition_iff : pushdownTransition lineBlanks text node rest ↔
    ∃ source symbol pop target mid push, edge readAndPop text (source, (symbol, pop), target) mid ∧
      symbolsAfter lineBlanks "push" mid push rest ∧ (pop.isNone && push.isNone) = false ∧
      node = .pushdownTransition source symbol (pop.getD []) target (push.getD []) .invalid := by
  constructor
  · rintro ⟨source, a, hsource, symbol, b, hsymbol, pop, c, hpop, t, d, harrow, target, e, htarget,
      push, f, hpush, hnode⟩
    -- Without either part, the recognizer gives nothing.
    cases hnone : pop.isNone && push.isNone with
    | true =>
      rw [hnone, if_pos rfl] at hnode
      exact hnode.elim
    | false =>
      rw [hnone, if_neg Bool.false_ne_true] at hnode
      obtain ⟨rfl, rfl⟩ := hnode
      exact ⟨source, symbol, pop, target, e, push,
        ⟨_, _, hsource, _, _, ⟨_, _, hsymbol, _, _, hpop, rfl, rfl⟩, _, _, harrow, _, _, htarget,
          rfl, rfl⟩, hpush, hnone, rfl⟩
  · rintro ⟨source, symbol, pop, target, mid, push,
      ⟨source', a, hsource, read, b, ⟨symbol', c, hsymbol, pop', d, hpop,
      hread, rfl⟩, t, e, harrow, target', f, htarget, hpair, rfl⟩, hpush, hnone, rfl⟩
    cases hread
    cases hpair
    refine ⟨_, _, hsource, _, _, hsymbol, _, _, hpop, _, _, harrow, _, _, htarget, _, _, hpush, ?_⟩
    show (if (pop.isNone && push.isNone) = true then none else pure _ : Recognizer Node) rest _ rest
    rw [hnone, if_neg Bool.false_ne_true]
    exact ⟨rfl, rfl⟩

/-- A transition of a Turing machine is an edge, symbols and shifts. -/
theorem turingTransition_iff : turingTransition lineBlanks text node rest ↔
    ∃ source read target mid write mid' moves,
      edge (symbols lineBlanks) text (source, read, target) mid ∧
      symbols lineBlanks mid write mid' ∧ shifts lineBlanks mid' moves rest ∧
      node = .turingTransition source read.items target write.items moves.items .invalid := by
  constructor
  · rintro ⟨source, a, hsource, read, b, hread, t, c, harrow, target, d, htarget, write, e, hwrite,
      moves, f, hmoves, rfl, rfl⟩
    exact ⟨source, read, target, d, write, e, moves,
      ⟨_, _, hsource, _, _, hread, _, _, harrow, _, _, htarget, rfl, rfl⟩, hwrite, hmoves, rfl⟩
  · rintro ⟨source, read, target, mid, write, mid', moves,
      ⟨source', a, hsource, read', b, hread, t, c, harrow, target', d,
      htarget, hpair, rfl⟩, hwrite, hmoves, rfl⟩
    cases hpair
    exact ⟨_, _, hsource, _, _, hread, _, _, harrow, _, _, htarget, _, _, hwrite, _, _,
      hmoves, rfl, rfl⟩

end Recognizer

/-! ## Finding the same edge -/

/-- What is read in front of an arrow shows the way to it: a path of tokens from the name of the
source to the arrow, which is the same in front of another ending. -/
theorem path_of_edge {G : Recognizer β} {source target : Identifier} {b : β} (hseam : Seam r r')
    (hG : Leads r G) (hshort : G.Shortens) (h : edge G (t ++ r) (source, b, target) (t' ++ r)) :
    ∃ first a d value z last, source = ⟨.ofList first, .invalid⟩ ∧
      target = ⟨.ofList last, .invalid⟩ ∧
      Next ⟨[.base], lineBlanks⟩ .identifier first (a ++ r) (t ++ r) ∧ G (a ++ r) b (d ++ r) ∧
      Next ⟨[.base], lineBlanks⟩ .arrow value (z ++ r) (d ++ r) ∧
      Next ⟨[.base], lineBlanks⟩ .identifier last (t' ++ r) (z ++ r) ∧ Path r r' z a := by
  obtain ⟨first, a, mid, value, c, last, hfirst, hb, harrow, hlast, rfl, rfl⟩ := edge_iff.1 h
  obtain ⟨z, rfl⟩ := exists_between hlast.suffix
  obtain ⟨d, rfl⟩ := exists_between harrow.suffix
  obtain ⟨e, rfl⟩ := exists_between (hshort _ _ _ hb)
  have harrow' : Path r r' z d :=
    .arrow (hseam.alike_of_word .line harrow (by decide)) (harrow.ignore_newline (by decide))
  exact ⟨first, e, d, value, z, last, rfl, rfl, hfirst, hb, harrow, hlast,
    (hG _ _ _ hb).path hseam harrow'⟩

/-- Where one edge is recognized in front of the one ending, another one that is recognized in front
of the other ending ends at the same place, and is recognized in front of both. -/
theorem edge_retraces {G : Recognizer β} {G' : Recognizer β'}
    {source target source' target' : Identifier} {b : β} {b' : β'} (hseam : Seam r r')
    (hG : Leads r G) (hshort : G.Shortens) (hG' : Retraces G')
    (h : edge G (t ++ r) (source, b, target) (t' ++ r))
    (h' : edge G' (t ++ r') (source', b', target') rest) :
    rest = t' ++ r' ∧ source' = source ∧ target' = target ∧
      edge G' (t ++ r) (source', b', target') (t' ++ r) := by
  have hskips := SkipsBlanks.body
  -- The first edge is a path of tokens up to its target. The second one is followed along that
  -- path: the same source, then its own middle, then an arrow that can only be the same one.
  obtain ⟨first, a, _, _, z, last, rfl, rfl, hfirst, -, -, hlast, hpath⟩ :=
    path_of_edge hseam hG hshort h
  obtain ⟨first', a', mid, value, c, last', hfirst', hb', harrow, hlast', rfl, rfl⟩ := edge_iff.1 h'
  obtain ⟨-, rfl, rfl⟩ :=
    (hseam (by decide) hskips (by decide) hfirst).unique hskips (by decide) hfirst'
  obtain ⟨d, rfl, hpath', hb⟩ := hG' _ _ _ _ _ _ hpath.symm hb'
  obtain ⟨e, rfl, -, harrow'⟩ := hpath'.alike.next .line harrow
  obtain rfl := hpath'.of_arrow .line harrow
  obtain ⟨-, rfl, rfl⟩ :=
    (hseam (by decide) hskips (by decide) hlast).unique hskips (by decide) hlast'
  exact ⟨rfl, rfl, rfl, edge_iff.2 ⟨_, _, _, _, _, _, hfirst, hb, harrow', hlast, rfl, rfl⟩⟩

/-- An edge is recognized in front of the other ending if what it reads is. -/
theorem Carries.edge {G : Recognizer β} (hseam : Seam r r') (hshort : G.Shortens)
    (h : Carries r r' (Alike r r') G (Sees r r' lineBlanks [.arrow])) :
    Carries r r' (Sees r r' lineBlanks [.identifier]) (edge G) fun _ => True := by
  -- An edge is an identifier, what the recognizer reads, an arrow and an identifier; each is
  -- carried over by what stands behind it.
  have harrow : Carries r r' (Sees r r' lineBlanks [.arrow])
      (Recognizer.token ⟨[.base], lineBlanks⟩ [.arrow]) (Sees r r' lineBlanks [.identifier]) :=
    (token hseam .line (by decide)).mono (fun _ ht => ht) fun _ _ => trivial
  have hrest : ∀ (source : Identifier) (b : β), Shortens (do
      let target ← Recognizer.identifier ⟨[.base], lineBlanks⟩
      return (source, b, target)) := fun _ _ =>
    ((Shortens.token _ _).bind fun _ => .pure _).bind fun _ => .pure _
  refine ((identifier hseam .line).mono (fun _ ht => ht) fun (t : List Char) (_ : Alike r r' t) =>
    trivial).bind (fun source => ?_)
      fun source => hshort.bind fun b => (Shortens.token _ _).bind fun _ => hrest source b
  refine h.bind (fun b => harrow.bind (fun _ => ?_) fun _ => hrest source b)
    fun b => (Shortens.token _ _).bind fun _ => hrest source b
  exact (identifier hseam .line).bind (fun _ => pure _) fun _ => .pure _

/-! ## Shifts where symbols are -/

/-- In front of the other ending, a word where a symbol is recognized ends where the symbol does,
and is the same in front of both. -/
theorem Alike.word_of_condition (halike : Alike r r' t)
    (hsettings : Settings.OfLine ⟨[.base], ignored⟩)
    (hnext : Next ⟨[.base], ignored⟩ kind value rest (t ++ r')) (hsolid : kind.isSolid = true)
    (hcondition : condition ignored (t ++ r) node (t' ++ r)) :
    rest = t' ++ r' ∧ Next ⟨[.base], ignored⟩ kind value (t' ++ r) (t ++ r) := by
  have hskips := hsettings.skips
  obtain ⟨a, rfl, -, hnext'⟩ := halike.symm.next hsettings hnext
  obtain ⟨kind', -, hsymbol⟩ := hnext'.symbol_of_word hskips hsolid
  obtain ⟨⟨kind'', value'⟩, _, ⟨-, hsymbol'⟩, -, rfl⟩ := hcondition
  obtain ⟨-, -, heq⟩ := hsymbol.unique hskips (by decide) hsymbol'
  obtain rfl := List.append_cancel_right heq
  exact ⟨rfl, hnext'⟩

/-- The parts of a value for the tape of a given name. -/
theorem Recognizer.qualified_iff {G : Recognizer Node} : qualified ignored G text node rest ↔
    ∃ tape a colon b item, Next ⟨[.base], ignored⟩ .identifier tape a text ∧
      Next ⟨[.base], ignored⟩ .colon colon b a ∧ G b item rest ∧
      node = .qualified ⟨.ofList tape, .invalid⟩ item .invalid := by
  constructor
  · rintro ⟨_, a, hid, ⟨kind, value⟩, b, ⟨hkind, hcolon⟩, item, _, hitem, rfl, rfl⟩
    obtain ⟨tape, htape, rfl⟩ := identifier_iff.1 hid
    obtain rfl := List.mem_singleton.1 (List.contains_iff_mem.1 hkind)
    exact ⟨tape, a, value, b, item, htape, hcolon, hitem, rfl⟩
  · rintro ⟨tape, a, colon, b, item, htape, hcolon, hitem, rfl⟩
    exact ⟨_, a, identifier_iff.2 ⟨tape, htape, rfl⟩, (.colon, colon), b, ⟨rfl, hcolon⟩, item, rest,
      hitem, rfl, rfl⟩

/-- What is in brackets is either nothing, if the closing bracket comes at once, or elements with
commas between them. The first token behind the opening bracket tells these cases apart. -/
theorem Recognizer.bracketed_iff {settings : Settings} {G : Recognizer Node} :
    bracketed settings G text node rest ↔
    ∃ value mid, Next settings .leftBracket value mid text ∧
      ((∃ close, Next settings .rightBracket close rest mid ∧ node = .list [] .invalid) ∨
        ∃ kind first after nodes mid' close, Next settings kind first after mid ∧
          kind ≠ .rightBracket ∧
          Elements settings G mid nodes mid' ∧ Next settings .rightBracket close rest mid' ∧
          node = .list nodes .invalid) := by
  constructor
  · rintro ⟨⟨kind, value⟩, mid, ⟨hkind, hopen⟩, closed, _, ⟨rfl, kind', first, after, hnext, rfl⟩,
      hnodes⟩
    obtain rfl := List.mem_singleton.1 (List.contains_iff_mem.1 hkind)
    refine ⟨value, _, hopen, ?_⟩
    -- The brackets are empty if the closing one comes at once.
    by_cases hclosed : kind' = .rightBracket
    · rw [beq_iff_eq.2 hclosed, if_pos rfl] at hnodes
      obtain ⟨_, _, ⟨rfl, rfl⟩, ⟨kind'', close⟩, _, ⟨hkind'', hclose⟩, rfl, rfl⟩ := hnodes
      obtain rfl := List.mem_singleton.1 (List.contains_iff_mem.1 hkind'')
      exact .inl ⟨close, hclose, rfl⟩
    · rw [beq_eq_false_iff_ne.2 hclosed, if_neg Bool.false_ne_true] at hnodes
      obtain ⟨nodes, mid', helements, ⟨kind'', close⟩, _, ⟨hkind'', hclose⟩, rfl, rfl⟩ := hnodes
      obtain rfl := List.mem_singleton.1 (List.contains_iff_mem.1 hkind'')
      exact .inr ⟨kind', first, after, nodes, mid', close, hnext, hclosed, helements, hclose, rfl⟩
  · rintro ⟨value, mid, hopen, ⟨close, hclose, rfl⟩ |
      ⟨kind', first, after, nodes, mid', close, hnext, hclosed, helements, hclose, rfl⟩⟩
    · exact ⟨(.leftBracket, value), mid, ⟨rfl, hopen⟩, true, mid,
        ⟨rfl, _, close, rest, hclose, rfl⟩,
        [], mid, ⟨rfl, rfl⟩, (.rightBracket, close), rest, ⟨rfl, hclose⟩, rfl, rfl⟩
    · exact ⟨(.leftBracket, value), mid, ⟨rfl, hopen⟩, false, mid,
        ⟨rfl, kind', first, after, hnext, (beq_eq_false_iff_ne.2 hclosed).symm⟩,
        nodes, mid', helements, (.rightBracket, close), rest, ⟨rfl, hclose⟩, rfl, rfl⟩

/-- A movement is a token of one of three kinds. -/
theorem Recognizer.shift_iff : shift ignored text node rest ↔
    ∃ kind value, kind ∈ [TokenKind.shiftLeft, .shiftRight, .noShift] ∧
      Next ⟨[.base], ignored⟩ kind value rest text ∧
      (value.head?.bind Direction.ofChar?).map (Node.shift · .invalid) = some node := by
  constructor
  · rintro ⟨⟨kind, value⟩, _, ⟨hkind, hnext⟩, hnode, rfl⟩
    exact ⟨kind, value, List.contains_iff_mem.1 hkind, hnext, hnode⟩
  · rintro ⟨kind, value, hkind, hnext, hnode⟩
    exact ⟨(kind, value), rest, ⟨List.contains_iff_mem.2 hkind, hnext⟩, hnode, rfl⟩

/-- Where a symbol for a tape is recognized, a movement on a tape that is recognized in front of the
other ending ends where the symbol does, and is recognized in front of both. -/
theorem tapeShift_of_tapeSymbol {moved : Node} (hseam : Seam r r')
    (hsettings : Settings.OfLine ⟨[.base], ignored⟩)
    (h : tapeSymbol ignored (t ++ r) node (t' ++ r)) (hcolon : AvoidsColon r' ignored t')
    (h' : tapeShift ignored (t ++ r') moved rest) :
    rest = t' ++ r' ∧ tapeShift ignored (t ++ r) moved (t' ++ r) := by
  have hskips := hsettings.skips
  have halike := (Carries.tapeSymbol hseam hsettings _ _ _ h hcolon).1
  have hnotShift : ∀ kind ∈ [TokenKind.shiftLeft, .shiftRight, .noShift], kind.isSolid = true ∧
      kind ≠ .identifier := by
    decide
  rcases h with h | ⟨-, h⟩
  · -- The symbol is for a named tape, so the movement is as well.
    obtain ⟨tape, a, colon, b, item, htape, hcolon', hitem, rfl⟩ := qualified_iff.1 h
    obtain ⟨b, rfl⟩ := exists_between (Shortens.condition _ _ _ _ hitem)
    obtain ⟨a, rfl⟩ := exists_between hcolon'.suffix
    rcases h' with h' | ⟨-, h'⟩
    · obtain ⟨tape', _, colon', _, move, htape', hcolon'', hmove, rfl⟩ := qualified_iff.1 h'
      obtain ⟨-, rfl, rfl⟩ :=
        (hseam (by decide) hskips (by decide) htape).unique hskips (by decide) htape'
      obtain ⟨-, rfl, rfl⟩ :=
        (hseam (by decide) hskips (by decide) hcolon').unique hskips (by decide) hcolon''
      obtain ⟨kind, value, hkind, hnext, hdirection⟩ := shift_iff.1 hmove
      have halike' := (Carries.condition hseam hsettings.symbols _ _ _ hitem trivial).1
      obtain ⟨rfl, hnext'⟩ :=
        halike'.word_of_condition hsettings hnext (hnotShift kind hkind).1 hitem
      exact ⟨rfl, .inl (qualified_iff.2 ⟨_, _, _, _, _, htape, hcolon',
        shift_iff.2 ⟨kind, value, hkind, hnext', hdirection⟩, rfl⟩)⟩
    · obtain ⟨kind, value, hkind, hnext, -⟩ := shift_iff.1 h'
      obtain ⟨rfl, -⟩ :=
        hnext.unique hskips (by decide) (hseam (by decide) hskips (by decide) htape)
      exact absurd rfl (hnotShift _ hkind).2
  · rcases h' with h' | ⟨-, h'⟩
    · -- A name for the movement is the symbol, and a colon does not follow that.
      obtain ⟨tape, _, colon, _, move, htape, hcolon', -⟩ := qualified_iff.1 h'
      obtain ⟨rfl, -⟩ := halike.word_of_condition hsettings htape (by decide) h
      exact absurd hcolon' (hcolon _ _)
    · obtain ⟨kind, value, hkind, hnext, hdirection⟩ := shift_iff.1 h'
      obtain ⟨rfl, hnext'⟩ := halike.word_of_condition hsettings hnext (hnotShift kind hkind).1 h
      refine ⟨rfl, .inr ⟨?_, shift_iff.2 ⟨kind, value, hkind, hnext', hdirection⟩⟩⟩
      rintro ⟨_, _, hqualified⟩
      obtain ⟨_, _, _, _, _, htape, -⟩ := qualified_iff.1 hqualified
      obtain ⟨rfl, -⟩ := hnext'.unique hskips (by decide) htape
      exact (hnotShift _ hkind).2 rfl

/-- Where symbols for tapes are recognized as elements, and movements are in front of the other
ending, both end at the same place. So the movements are recognized in front of the first ending,
too. -/
theorem elements_of_elements {nodes moved : List Node} (hseam : Seam r r')
    (hsettings : Settings.OfLine ⟨[.base], ignored⟩)
    (h : Elements ⟨[.base], ignored⟩ (tapeSymbol ignored) (t ++ r) nodes (t' ++ r))
    (hclose : Sees r r' ignored [.rightBracket] t')
    (h' : Elements ⟨[.base], ignored⟩ (tapeShift ignored) (t ++ r') moved rest) :
    rest = t' ++ r' ∧ Elements ⟨[.base], ignored⟩ (tapeShift ignored) (t ++ r) moved (t' ++ r) := by
  have hskips := hsettings.skips
  generalize htext : t ++ r = text at h
  generalize hrest : t' ++ r = rest' at h
  -- By induction on the symbols: each movement ends where its symbol does, so the commas are the
  -- same.
  induction h generalizing t moved with
  | last hitem hnext hne =>
    subst htext hrest
    obtain ⟨_, -, -, hnext'⟩ := hclose.alike.next hsettings hnext
    cases h' with
    | last hitem' _ _ =>
      obtain ⟨rfl, hmove⟩ :=
        tapeShift_of_tapeSymbol hseam hsettings hitem
          (hclose.avoidsColon hsettings (by decide)) hitem'
      exact ⟨rfl, .last hmove hnext hne⟩
    | more hitem' hcomma' _ =>
      obtain ⟨rfl, -⟩ :=
        tapeShift_of_tapeSymbol hseam hsettings hitem
          (hclose.avoidsColon hsettings (by decide)) hitem'
      exact absurd (hnext'.unique hskips (by decide) hcomma').1 hne
  | more hitem hcomma hmore ih =>
    subst htext hrest
    obtain ⟨b, rfl⟩ := exists_between (Shortens.elements (Shortens.tapeSymbol _) _ _ _ hmore)
    obtain ⟨a, rfl⟩ := exists_between hcomma.suffix
    have hsees : Sees r r' ignored [.comma] a :=
      ⟨hseam.alike_of_word hsettings hcomma (by decide), _, List.mem_cons_self, _, _, hcomma⟩
    have hcomma' := hseam (by decide) hskips (by decide) hcomma
    cases h' with
    | last hitem' hnext' hne' =>
      obtain ⟨rfl, -⟩ :=
        tapeShift_of_tapeSymbol hseam hsettings hitem
          (hsees.avoidsColon hsettings (by decide)) hitem'
      exact absurd (hcomma'.unique hskips (by decide) hnext').1.symm hne'
    | more hitem' hcomma'' hmore' =>
      obtain ⟨rfl, hmove⟩ :=
        tapeShift_of_tapeSymbol hseam hsettings hitem
          (hsees.avoidsColon hsettings (by decide)) hitem'
      obtain ⟨-, -, rfl⟩ := hcomma'.unique hskips (by decide) hcomma''
      obtain ⟨rfl, hmoves⟩ := ih hmore' rfl rfl
      exact ⟨rfl, .more hmove hcomma hmoves⟩

/-- Where symbols for tapes are recognized in brackets, movements in brackets end where the symbols
do. -/
theorem bracketed_of_bracketed {moves : Node} (hseam : Seam r r')
    (hsettings : Settings.OfLine ⟨[.base], ignored⟩)
    (h : bracketed ⟨[.base], ignored⟩ (tapeSymbol ignored) (t ++ r) node (t' ++ r))
    (h' : bracketed ⟨[.base], ignored⟩ (tapeShift ignored) (t ++ r') moves rest) :
    rest = t' ++ r' ∧ bracketed ⟨[.base], ignored⟩ (tapeShift ignored) (t ++ r) moves
      (t' ++ r) := by
  have hskips := hsettings.skips
  obtain ⟨value, mid, hopen, hitems⟩ := bracketed_iff.1 h
  obtain ⟨value', mid', hopen', hmoves⟩ := bracketed_iff.1 h'
  -- Either both brackets are empty, or both have elements: the token behind the opening one is cut
  -- alike in front of both endings.
  rcases hitems with ⟨close, hclose, rfl⟩ | ⟨kind, first, after, nodes, end', close, hnext, hne,
    helements, hclose, rfl⟩
  · obtain ⟨a, rfl⟩ := exists_between hclose.suffix
    obtain ⟨-, rfl, rfl⟩ :=
      (hseam (by decide) hskips (by decide) hopen).unique hskips (by decide) hopen'
    have hother := hseam (by decide) hskips (by decide) hclose
    rcases hmoves with ⟨close', hclose', rfl⟩ | ⟨_, _, _, _, _, _, hnext', hne', -⟩
    · obtain ⟨-, rfl, rfl⟩ := hother.unique hskips (by decide) hclose'
      exact ⟨rfl, bracketed_iff.2 ⟨_, _, hopen, .inl ⟨_, hclose, rfl⟩⟩⟩
    · exact absurd (hother.unique hskips (by decide) hnext').1.symm hne'
  · obtain ⟨b, rfl⟩ := exists_between hclose.suffix
    obtain ⟨a, rfl⟩ := exists_between (Shortens.elements (Shortens.tapeSymbol _) _ _ _ helements)
    obtain ⟨-, rfl, rfl⟩ :=
      (hseam (by decide) hskips (by decide) hopen).unique hskips (by decide) hopen'
    have hsees : Sees r r' ignored [.rightBracket] b :=
      ⟨hseam.alike_of_word hsettings hclose (by decide), _, List.mem_cons_self, _, _, hclose⟩
    have halike :=
      (Carries.elements hseam hsettings (Carries.tapeSymbol hseam hsettings)
        (Shortens.tapeSymbol _) _ _ _ helements hsees).1
    obtain ⟨_, -, -, hother⟩ := halike.next hsettings hnext
    rcases hmoves with ⟨close', hclose', rfl⟩ |
      ⟨_, _, _, moved, _, _, -, hne', helements', hclose', rfl⟩
    · exact absurd (hother.unique hskips (by decide) hclose').1 hne
    · obtain ⟨rfl, hmoved⟩ := elements_of_elements hseam hsettings helements hsees helements'
      obtain ⟨-, rfl, rfl⟩ :=
        (hseam (by decide) hskips (by decide) hclose).unique hskips (by decide) hclose'
      exact ⟨rfl, bracketed_iff.2
        ⟨_, _, hopen, .inr ⟨_, _, _, _, _, _, hnext, hne, hmoved, hclose, rfl⟩⟩⟩

/-- Where symbols are recognized, shifts that are recognized in front of the other ending end where
the symbols do, and are recognized in front of both. -/
theorem shifts_of_symbols {moves : Node} (hseam : Seam r r')
    (h : symbols lineBlanks (t ++ r) node (t' ++ r)) (hcolon : AvoidsColon r' lineBlanks t')
    (h' : shifts lineBlanks (t ++ r') moves rest) :
    rest = t' ++ r' ∧ shifts lineBlanks (t ++ r) moves (t' ++ r) := by
  have hskips := SkipsBlanks.body
  have halike := (Carries.symbols hseam _ _ _ h hcolon).1
  obtain ⟨kind, value, after, hnext, h⟩ := listOf_iff.1 h
  obtain ⟨kind', value', after', hnext', h'⟩ := listOf_iff.1 h'
  obtain ⟨_, -, -, hother⟩ := halike.next .line hnext
  obtain ⟨rfl, -⟩ := hother.unique hskips (by decide) hnext'
  -- Both lists are in brackets or neither is, since the first token is the same.
  rcases h with ⟨rfl, h⟩ | ⟨hkind, item, hitem, rfl⟩
  · rcases h' with ⟨-, h'⟩ | ⟨hne, -⟩
    · obtain ⟨rfl, hmoves⟩ := bracketed_of_bracketed hseam .brackets h h'
      exact ⟨rfl, listOf_iff.2 ⟨_, _, _, hnext, .inl ⟨rfl, hmoves⟩⟩⟩
    · exact absurd rfl hne
  · rcases h' with ⟨hne, -⟩ | ⟨-, move, hmove, rfl⟩
    · exact absurd hne hkind
    · obtain ⟨rfl, hmove'⟩ := tapeShift_of_tapeSymbol hseam .line hitem hcolon hmove
      exact ⟨rfl, listOf_iff.2 ⟨_, _, _, hnext, .inr ⟨hkind, move, hmove', rfl⟩⟩⟩

end MachineLang
