import MachineLang.Proofs.Spans
import Mathlib.Data.List.Chain

/-!
# The tokens of a source

The buffer of a stream is one chain of tokens from the start of the source
(`TokenStream.chain_buffer`), however often tokens were dropped and cut anew under other modes. When
a program has been read, the chain ends with the end token, where no text is left, so its tokens
tile the source: they stand one behind the other from the start on, and their values joined are the
source.
-/

namespace MachineLang

/-- The tokens tile the source: one begins where the one before it ends, and they hold all of its
text. -/
structure Tiles (source : String) (tokens : List Token) : Prop where
  /-- The first one begins at the start. -/
  first : ∀ token ∈ tokens.head?, token.location = .start
  /-- Each later one begins where the one before it ends. -/
  next : tokens.IsChain fun a b => b.location = a.stop
  /-- The value of each one is the text between its places, and walking over it leads from one to
  the other. -/
  stands : ∀ token ∈ tokens, ∃ before after, source.toList = before ++ token.value.toList ++ after ∧
    token.location = Location.start.advance before ∧
      token.stop = token.location.advance token.value.toList
  /-- The last one is the only end token. -/
  last : ∃ front token, tokens = front ++ [token] ∧ token.kind = .endOfInput ∧ ∀ t ∈ front,
    t.kind ≠ .endOfInput
  /-- Their values joined are the source. -/
  join : String.join (tokens.map Token.value) = source

/-- A token that stands in a text has that text around it. -/
theorem Fits.exists_around {text : List Char} {t : Token} (h : Fits text t) :
    ∃ before after, text = before ++ t.value.toList ++ after ∧
      t.location = Location.start.advance before := by
  obtain ⟨before, rest, rfl, hlocation⟩ := h.location
  obtain ⟨after, hafter⟩ := h.value
  rw [hlocation, IsPlace.textFrom_eq] at hafter
  exact ⟨before, after, by rw [hafter, List.append_assoc], hlocation⟩

namespace Chain

variable {text : List Char} {l m : Location} {b : Buffered} {bs : List Buffered}

/-- The first token of a chain begins where the chain does, and each later one where the one before
it ends. -/
theorem isChain (h : Chain text l bs m) (hl : IsPlace text l) :
    (∀ b ∈ bs.head?, b.token.location = l) ∧
      (bs.map Buffered.token).IsChain fun a b => b.location = a.stop := by
  -- By the chain of tokens: each one is cut off where the one before it ended.
  induction h with
  | nil l => exact ⟨fun b hb => absurd hb (by simp), .nil⟩
  | @cons l m b bs hlex hrest ih =>
    have hfits := Cursor.fits_lex b.modes hl
    rw [hlex] at hfits
    obtain ⟨hfit, hlocation, -⟩ := hfits
    obtain ⟨hhead, hchain⟩ := ih hfit.stop
    refine ⟨fun b' hb' => ?_, ?_⟩
    · obtain rfl := Option.some.inj hb'
      exact hlocation
    · refine List.isChain_cons.2 ⟨fun t ht => ?_, hchain⟩
      rw [List.head?_map] at ht
      obtain ⟨b', hb', rfl⟩ := Option.map_eq_some_iff.1 ht
      exact hhead b' hb'

/-- The values of the tokens of a chain are the text between its ends. -/
theorem textFrom_eq (h : Chain text l bs m) :
    textFrom l.offset text = (bs.flatMap fun b => b.token.value.toList) ++ textFrom
      m.offset text := by
  induction h with
  | nil l => rfl
  | @cons l m b bs hlex hrest ih =>
    have hbehind := Cursor.ofLocation_lex b.modes text l
    have hvalue := Cursor.value_append_lex b.modes (Cursor.ofLocation text l)
    rw [hlex] at hbehind hvalue
    have hrest' : b.rest = textFrom b.token.stop.offset text := congrArg Cursor.rest hbehind
    have hfirst : b.token.value.toList ++ b.rest = textFrom l.offset text := hvalue
    rw [List.flatMap_cons, List.append_assoc, ← ih, ← hrest', hfirst]

/-- An end token leads nowhere, and no text is left behind it. So it can only be the last token of a
chain. -/
theorem end_of_kind (h : Chain text l [b] m) (hl : IsPlace text l)
    (hkind : b.token.kind = .endOfInput) :
    textFrom m.offset text = [] := by
  cases h with
  | cons hlex hrest =>
    have hfits := Cursor.fits_lex b.modes hl
    rw [hlex] at hfits
    obtain ⟨-, -, hend, -⟩ := hfits
    obtain ⟨hstop, -, hnil⟩ := hend hkind
    rw [hrest.eq_of_nil, hstop]
    exact hnil

/-- If the last token of a chain from the start is the only end token, the tokens tile the
source. -/
theorem tiles {source : String} {front : List Buffered}
    (h : Chain source.toList .start (front ++ [b]) m) (hkind : b.token.kind = .endOfInput)
    (hfront : ∀ b' ∈ front, b'.token.kind ≠ .endOfInput) :
    Tiles source ((front ++ [b]).map Buffered.token) := by
  have hstart := IsPlace.start source.toList
  obtain ⟨hfirst, hnext⟩ := h.isChain hstart
  obtain ⟨-, -, hfits⟩ := h.fits hstart
  refine ⟨fun token ht => ?_, hnext, fun token ht => ?_, ?_, ?_⟩
  · rw [List.head?_map] at ht
    obtain ⟨b', hb', rfl⟩ := Option.map_eq_some_iff.1 ht
    exact hfirst b' hb'
  · obtain ⟨b', hb', rfl⟩ := List.mem_map.1 ht
    obtain ⟨before, after, htext, hlocation⟩ := (hfits b' hb').exists_around
    exact ⟨before, after, htext, hlocation, (hfits b' hb').stop_eq⟩
  · refine ⟨front.map Buffered.token, b.token, List.map_append, hkind, fun token ht => ?_⟩
    obtain ⟨b', hb', rfl⟩ := List.mem_map.1 ht
    exact hfront b' hb'
  · -- Behind the end token no text is left, so the values are all of it.
    obtain ⟨p, hfirst', hlast⟩ := append_iff.1 h
    have hnil := hlast.end_of_kind (hfirst'.fits hstart).1 hkind
    have hall := h.textFrom_eq
    rw [hnil, List.append_nil] at hall
    have hwhole : textFrom Location.start.offset source.toList = source.toList :=
      congrArg Cursor.rest (Cursor.ofLocation_start source.toList)
    refine String.toList_injective ?_
    rw [String.toList_join, List.flatMap_map, List.flatMap_map, ← hwhole, hall]

end Chain

namespace Reliable

variable {s : TokenStream}

/-- The buffer is one chain of tokens from the start of the source. -/
theorem exists_chain_buffer (hs : Reliable s) :
    ∃ m, Chain s.source.toList .start s.buffer.toList m := by
  obtain ⟨m, hpending⟩ := hs.shows.pending
  rw [s.toList_buffer]
  exact ⟨m, Chain.append_iff.2 ⟨_, hs.shows.consumed, hpending⟩⟩

/-- If the end token is in the buffer, it is the last one there, and the tokens tile the source. -/
theorem tiles (hs : Reliable s) (hend : ∃ token ∈ s.tokens, token.kind = .endOfInput) :
    Tiles s.source s.tokens := by
  obtain ⟨m, hchain⟩ := hs.exists_chain_buffer
  obtain ⟨token, htoken, hkind⟩ := hend
  obtain ⟨b, hb, rfl⟩ := List.mem_map.1 htoken
  obtain ⟨front, behind, hbuffer⟩ := List.append_of_mem hb
  have hsealed : s.buffer.toList.Pairwise fun b _ => b.token.kind ≠ .endOfInput := hs.isSealed
  rw [hbuffer] at hsealed
  obtain ⟨-, hbehind, hfront⟩ := List.pairwise_append.1 hsealed
  -- A second end token behind the first one would break the seal.
  obtain rfl : behind = [] :=
    List.eq_nil_iff_forall_not_mem.2 fun b' hb' => (List.pairwise_cons.1 hbehind).1 b' hb' hkind
  rw [hbuffer] at hchain
  rw [TokenStream.tokens, hbuffer]
  exact hchain.tiles hkind fun b' hb' => hfront b' hb' b List.mem_cons_self

end Reliable

/-- The tokens of a source that is read tile it, although they were cut under changing modes and
some attempts were taken back. -/
theorem tiles_of_parseProgram {source : String} {tree : Node} {tokens : List Token}
    (h : parseProgram source = .ok (tree, tokens)) : Tiles source tokens := by
  obtain ⟨t, ht, rfl, rfl, -, hend⟩ := exists_of_parseProgram h
  exact ht.tiles hend

/-- The tokens of a program with two tapes, for whose symbols two modes and two rules are tried in
turn. -/
theorem tiles_of_parseProgram_twoTapes :
    ∃ tree tokens, parseProgram twoTapes = .ok (tree, tokens) ∧ tokens.length = 62 ∧
      Tiles twoTapes tokens := by
  have hlength : (parseProgram twoTapes).toOption.map (fun r => r.2.length) = some 62 := by
    decide +kernel
  cases hread : parseProgram twoTapes with
  | error e =>
    rw [hread] at hlength
    cases hlength
  | ok result =>
    obtain ⟨tree, tokens⟩ := result
    rw [hread] at hlength
    exact ⟨tree, tokens, rfl, Option.some.inj hlength, tiles_of_parseProgram hread⟩

end MachineLang
