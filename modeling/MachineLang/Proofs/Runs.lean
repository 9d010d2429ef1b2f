import MachineLang.Proofs.Blanks
import MachineLang.Proofs.Reading

/-!
# Reading on

A token stream is `Reliable` if it shows the unbuffered stream that stands at its place, its last
end is a place in front of it, no token stands behind an end token, and it skips only blanks.
Reading the next token (`Reliable.advance`), looking at it (`Reliable.peekExpecting`), changing the
settings (`Reliable.apply`) and coming back (`Reliable.restore`) keep the stream reliable, and leave
it `Later` than it was.
-/

namespace MachineLang

/-! ## End tokens -/

namespace TokenStream

variable {s : TokenStream}

/-- No token stands behind an end token, so the end is cut off once and for all. -/
def Sealed (s : TokenStream) : Prop :=
  s.buffer.toList.Pairwise fun b _ => b.token.kind ≠ .endOfInput

/-- Tokens may be dropped from the end of the buffer: those in front keep the seal. -/
theorem Sealed.shrink (h : s.Sealed) (n : Nat) : { s with buffer := s.buffer.shrink n }.Sealed := by
  show (s.buffer.shrink n).toList.Pairwise _
  rw [Array.toList_shrink]
  exact h.sublist (List.take_sublist n _)

/-- Dropping tokens that were cut under other modes keeps the stream sealed. -/
theorem Sealed.refresh (h : s.Sealed) (index : Nat) : (s.refresh index).Sealed := by
  unfold TokenStream.refresh
  split
  · exact h.shrink index
  · exact h

/-- Tokens are only cut behind others than the end token, so the buffer never goes on behind it.
More of them are cut only as long as some are missing. -/
theorem Sealed.cutUpTo (h : s.Sealed) (missing : Nat) : (s.cutUpTo missing).Sealed := by
  induction missing generalizing s with
  | zero => exact h
  | succ missing ih =>
    rw [TokenStream.cutUpTo]
    split
    · exact h
    · next hlast =>
      refine ih ?_
      unfold TokenStream.cut
      show (s.buffer.push _).toList.Pairwise _
      rw [Array.toList_push]
      -- One more token is cut only if the last one is not the end token, and then no earlier one
      -- is.
      refine List.pairwise_append.2 ⟨h, List.pairwise_singleton _ _, fun b hb _ _ => ?_⟩
      rw [← Array.getLast?_toList] at hlast
      obtain ⟨front, last, hfront⟩ := List.eq_nil_or_concat s.buffer.toList |>.resolve_left
        (List.ne_nil_of_mem hb)
      rw [List.concat_eq_append] at hfront
      unfold Sealed at h
      rw [hfront] at h hb hlast
      rcases List.mem_append.1 hb with hb | hb
      · exact (List.pairwise_append.1 h).2.2 b hb last List.mem_cons_self
      · obtain rfl := List.mem_singleton.1 hb
        simpa using hlast

/-- Filling the buffer keeps the stream sealed. -/
theorem Sealed.fill (h : s.Sealed) (index : Nat) : (s.fill index).Sealed :=
  (h.refresh index).cutUpTo _

/-- Reading keeps the stream sealed, by induction over the steps of the loop: each of them fills the
buffer, and none adds a token behind the end. -/
theorem Sealed.advanceWithin (h : s.Sealed) (expected : List TokenKind) (steps : Nat) :
    (s.advanceWithin expected steps).2.Sealed := by
  induction steps generalizing s with
  | zero => exact h
  | succ steps ih =>
    have hfill := h.fill s.index
    rw [TokenStream.advanceWithin]
    generalize s.fill s.index = t at *
    dsimp only
    split
    · exact hfill
    · split_ifs
      · exact hfill
      · exact hfill
      · exact ih hfill
      · exact hfill

/-- Reading more tokens keeps the stream sealed. -/
theorem Sealed.advanceMore {result : Except SyntaxError Token × TokenStream} (h : result.2.Sealed)
    (expected : List TokenKind) (n : Nat) :
    (TokenStream.advanceMore expected n result).2.Sealed := by
  induction n generalizing result with
  | zero => exact h
  | succ n ih =>
    obtain ⟨r | token, t⟩ := result
    · exact h
    · exact ih (h.advanceWithin _ _)

/-- Looking ahead keeps the stream sealed. -/
theorem Sealed.peekExpecting (h : s.Sealed) (n : Nat) (expected : List TokenKind) :
    (s.peekExpecting n expected).2.Sealed := by
  have hmore := (h.advanceWithin expected s.limit).advanceMore expected n
  unfold TokenStream.peekExpecting
  exact hmore

/-- Putting settings in force keeps the stream sealed. -/
theorem Sealed.apply (h : s.Sealed) (settings : Settings) : (s.apply settings).Sealed := by
  unfold TokenStream.apply
  split
  · exact h
  · exact h.shrink s.index

/-- A token that was read is in the buffer, where it can be found again: reading moves on over the
buffer, and takes nothing out of it. -/
theorem mem_tokens_advanceWithin {token : Token} {expected : List TokenKind} {steps : Nat}
    (h : (s.advanceWithin expected steps).1 = .ok token) :
    token ∈ (s.advanceWithin expected steps).2.tokens := by
  -- By induction on the tokens that may be skipped in front of it.
  induction steps generalizing s with
  | zero => exact absurd h (by simp [TokenStream.advanceWithin])
  | succ steps ih =>
    rw [TokenStream.advanceWithin] at h ⊢
    generalize s.fill s.index = t at *
    dsimp only at h ⊢
    cases hnext : t.buffer[min t.index (t.buffer.size - 1)]? with
    | none =>
      rw [hnext] at h
      exact absurd h (by simp)
    | some b =>
      have hmem : b.token ∈ t.tokens := by
        refine List.mem_map_of_mem ?_
        rw [Array.mem_toList_iff]
        exact Array.mem_of_getElem? hnext
      rw [hnext] at h
      dsimp only at h ⊢
      split_ifs at h ⊢
      · obtain rfl := Except.ok.inj h
        exact hmem
      · exact ih h
      · obtain rfl := Except.ok.inj h
        exact hmem

end TokenStream

/-! ## Reliable streams -/

namespace TokenStream

/-- The place of the cursor, where the last token behind it ends. -/
def place (s : TokenStream) : Location :=
  (s.consumed.getLast?.map fun b => b.token.stop).getD .start

/-- The unbuffered stream that stands at the same place. -/
def unbuffered (s : TokenStream) : Unbuffered := ⟨s.source, s.place, s.index, s.lastEnd, s.settings⟩

/-- The text ahead of the cursor, whether or not tokens of it are in the buffer. -/
def text (s : TokenStream) : List Char := s.unbuffered.cursor.rest

/-- The next token that reading does not skip. -/
def nextToken (s : TokenStream) : Token := s.unbuffered.skip.token

/-- Where the next token begins that reading does not skip. -/
def nextPlace (s : TokenStream) : Location := s.unbuffered.skip.place

end TokenStream

/-- A stream shows only the unbuffered stream that stands at its place. -/
theorem Shows.eq_unbuffered {s : TokenStream} {u : Unbuffered} (h : Shows s u) :
    u = s.unbuffered := by
  have hplace : u.place = s.place := h.consumed.eq_getLast
  obtain ⟨hsource, hindex, hlastEnd, hsettings, -⟩ := h
  unfold TokenStream.unbuffered
  rw [hsource, ← hplace, hindex, hlastEnd, hsettings]

/-- A stream that shows what it stands for, has read no further than its cursor, has nothing behind
an end token, and skips only blanks. -/
structure Reliable (s : TokenStream) : Prop where
  /-- It shows the unbuffered stream at its place. -/
  shows : Shows s s.unbuffered
  /-- The last token read ends at a place of the source. -/
  lastEnd : IsPlace s.source.toList s.lastEnd
  /-- It ends in front of the cursor. -/
  lastEnd_le : s.lastEnd.offset ≤ s.place.offset
  /-- No token stands behind an end token. -/
  isSealed : s.Sealed
  /-- Only blanks are skipped. -/
  ordinary : s.settings.Ordinary

/-- A stream further on in the same source, under the same settings. -/
structure Later (s t : TokenStream) : Prop where
  /-- The source is the same. -/
  source_eq : t.source = s.source
  /-- The settings are the same. -/
  settings_eq : t.settings = s.settings
  /-- The tokens behind the cursor are still there. -/
  kept : s.consumed <+: t.consumed
  /-- The last token read ends no earlier. -/
  lastEnd_le : s.lastEnd.offset ≤ t.lastEnd.offset

namespace Later

variable {s t r : TokenStream}

/-- A stream is later than itself. -/
theorem refl (s : TokenStream) : Later s s := ⟨rfl, rfl, List.prefix_rfl, Nat.le_refl _⟩

/-- What is later than a later stream is later. -/
theorem trans (h : Later s t) (h' : Later t r) : Later s r :=
  ⟨h'.source_eq.trans h.source_eq, h'.settings_eq.trans h.settings_eq, h.kept.trans h'.kept,
    Nat.le_trans h.lastEnd_le h'.lastEnd_le⟩

/-- As much may be read from a later stream. -/
theorem limit_eq (h : Later s t) : t.limit = s.limit := by
  unfold TokenStream.limit
  rw [h.source_eq]

end Later

namespace Reliable

variable {s t : TokenStream}

/-- A fresh stream is reliable: its buffer is empty and it stands at the start. -/
theorem ofSource (source : String) : Reliable (.ofSource source) where
  shows := Shows.ofSource source
  lastEnd := IsPlace.start _
  lastEnd_le := Nat.le_refl _
  isSealed := .nil
  ordinary := .initial

/-- The cursor stands at a place of the source. -/
theorem isPlace (h : Reliable s) : IsPlace s.source.toList s.place :=
  (h.shows.consumed.fits (IsPlace.start _)).1

/-- The next token begins at a place of the source, behind the cursor. -/
theorem nextPlace (h : Reliable s) :
    IsPlace s.source.toList s.nextPlace ∧ s.place.offset ≤ s.nextPlace.offset := by
  obtain ⟨hplace, hle, -⟩ := Unbuffered.skip_spec (u := s.unbuffered) h.isPlace
  exact ⟨hplace, hle⟩

/-- The next token stands in the source, where it begins. -/
theorem nextToken (h : Reliable s) :
    Fits s.source.toList s.nextToken ∧ s.nextToken.location = s.nextPlace := by
  obtain ⟨hplace, -, hsource, -⟩ := Unbuffered.skip_spec (u := s.unbuffered) h.isPlace
  obtain ⟨hfits, hlocation, -⟩ := Cursor.fits_lex s.unbuffered.skip.settings.modes
    (hsource ▸ hplace : IsPlace s.unbuffered.skip.source.toList s.unbuffered.skip.place)
  show Fits s.unbuffered.source.toList s.nextToken ∧ _
  rw [← hsource]
  exact ⟨hfits, hlocation⟩

/-- The last token read ends in front of the next one. -/
theorem lastEnd_le_nextPlace (h : Reliable s) : s.lastEnd.offset ≤ s.nextPlace.offset :=
  Nat.le_trans h.lastEnd_le h.nextPlace.2

/-- The tokens that were read between two streams lead from one place to the other. -/
theorem exists_chain (h : Reliable s) (ht : Reliable t) (hlater : Later s t) :
    ∃ more, t.consumed = s.consumed ++ more ∧ Chain s.source.toList s.place more t.place := by
  obtain ⟨more, hmore⟩ := hlater.kept
  have hchain : Chain t.source.toList .start t.consumed t.place := ht.shows.consumed
  rw [← hmore, hlater.source_eq] at hchain
  obtain ⟨p, hfirst, hrest⟩ := Chain.append_iff.1 hchain
  obtain rfl : p = s.place := hfirst.unique h.shows.consumed
  exact ⟨more, hmore.symm, hrest⟩

/-- The text ahead of a later stream is the end of the text. -/
theorem text_suffix (h : Reliable s) (ht : Reliable t) (hlater : Later s t) :
    t.text <:+ s.text := by
  obtain ⟨more, -, hchain⟩ := h.exists_chain ht hlater
  show textFrom t.place.offset t.source.toList <:+ textFrom s.place.offset s.source.toList
  rw [hlater.source_eq]
  exact hchain.suffix

end Reliable

/-! ## Reading a token -/

/-- A token was read: it is the next one of the stream, and the last one read of the stream behind
it. -/
structure Took (s : TokenStream) (token : Token) (t : TokenStream) : Prop where
  /-- It is the next token of the stream. -/
  token_eq : token = s.nextToken
  /-- It is in the buffer. -/
  mem : token ∈ t.tokens
  /-- The stream stands behind it, unless it is the end token. -/
  unbuffered_eq : token.kind ≠ .endOfInput →
    t.unbuffered = { s.unbuffered.skip.pass with lastEnd := token.stop }
  /-- The token stands in the source. -/
  fits : Fits s.source.toList token
  /-- It is the next token. -/
  location_eq : token.location = s.nextPlace
  /-- It is the last token read. -/
  lastEnd_eq : t.lastEnd = token.stop
  /-- It takes some text, unless it is the end token. -/
  lt : token.kind ≠ .endOfInput → token.location.offset < token.stop.offset
  /-- Less text is left behind it, unless it is the end token. -/
  length_lt : token.kind ≠ .endOfInput → t.text.length < s.text.length

namespace Reliable

variable {s t : TokenStream}

/-- A stream that an operation leaves is reliable if it is sealed and its last end is in order. -/
theorem of_agrees {α : Type} {result : α × TokenStream} {result' : α × Unbuffered}
    (h : Agrees s result result') (hlastEnd : IsPlace s.source.toList result'.2.lastEnd)
    (hle : result'.2.lastEnd.offset ≤ result'.2.place.offset) (hsealed : result.2.Sealed)
    (hordinary : s.settings.Ordinary) : Reliable result.2 := by
  have heq := h.shows.eq_unbuffered
  refine ⟨heq ▸ h.shows, ?_, ?_, hsealed, h.settings_eq ▸ hordinary⟩
  · rw [h.source_eq, h.shows.lastEnd_eq]
    exact hlastEnd
  · rw [h.shows.lastEnd_eq]
    rw [heq] at hle ⊢
    exact hle

/-- The text ahead of a stream that agrees with an unbuffered one. -/
theorem text_eq {u : Unbuffered} (h : Shows s u) : s.text = u.cursor.rest := by
  unfold TokenStream.text
  rw [← h.eq_unbuffered]

/-- Reading gives the next token, or says that the source ends, with the place of the end and what
was expected. In both cases the stream can still be relied on. -/
theorem advance (hs : Reliable s) (expected : List TokenKind) :
    Reliable (s.advance expected).2 ∧ Later s (s.advance expected).2 ∧
      match (s.advance expected).1 with
      | .ok token => Took s token (s.advance expected).2
      | .error e => e = .unexpectedEnd s.nextPlace expected ∧ s.nextToken.kind = .endOfInput := by
  have hagrees : Agrees s (s.advance expected) (s.unbuffered.advance expected) := hs.shows.advance
  have hsealed : (s.advance expected).2.Sealed := hs.isSealed.advanceWithin _ _
  have hmem : ∀ token, (s.advance expected).1 = .ok token → token ∈ (s.advance expected).2.tokens :=
    fun _ => TokenStream.mem_tokens_advanceWithin
  have htoken : s.nextToken = s.unbuffered.skip.token := rfl
  obtain ⟨hplace, hle, hsource, hlastEnd, hsettings⟩ :=
    Unbuffered.skip_spec (u := s.unbuffered) hs.isPlace
  have hsuffix : s.unbuffered.skip.cursor.rest <:+ s.text := s.unbuffered.skip_suffix
  have hnext : s.nextPlace = s.unbuffered.skip.place := rfl
  have hignored : s.unbuffered.isIgnored .endOfInput = s.isIgnored .endOfInput := rfl
  have hlater := Nat.le_trans hs.lastEnd_le hle
  rw [Unbuffered.advance_eq, hignored] at hagrees
  generalize hu : s.unbuffered.skip = u at *
  have hfits :=
    Cursor.fits_lex u.settings.modes (hsource ▸ hplace : IsPlace u.source.toList u.place)
  obtain ⟨hfit, hlocation, hend, hother⟩ : Fits u.source.toList u.token ∧
      u.token.location = u.place ∧
      (u.token.kind = .endOfInput → u.token.stop = u.place ∧ u.token.value = "" ∧ _) ∧
      (u.token.kind ≠ .endOfInput → u.place.offset < u.token.stop.offset) := hfits
  rw [hsource] at hfit
  generalize s.advance expected = result at *
  obtain ⟨r, t⟩ := result
  split_ifs at hagrees with hkind hignoredEnd
  · -- The end token is skipped: there is no token.
    have hrel := of_agrees hagrees (hlastEnd ▸ hs.lastEnd) (hlastEnd ▸ hlater) hsealed hs.ordinary
    obtain ⟨rfl, hshows, hkept, hstream, hset⟩ := hagrees
    refine ⟨hrel, ⟨hstream, hset, hkept, ?_⟩, ?_, htoken ▸ hkind⟩
    · rw [hshows.lastEnd_eq, hlastEnd]
      exact Nat.le_refl _
    · rw [hlocation, hnext]
  · -- The end token is read, and stays ahead.
    obtain ⟨hstop, -, -⟩ := hend hkind
    have hrel := of_agrees hagrees hfit.stop (Nat.le_of_eq (congrArg Location.offset hstop))
      hsealed hs.ordinary
    obtain ⟨rfl, hshows, hkept, hstream, hset⟩ := hagrees
    have hlast : t.lastEnd = u.token.stop := hshows.lastEnd_eq
    refine ⟨hrel, ⟨hstream, hset, hkept, ?_⟩, htoken.symm, hmem _ rfl,
      fun hne => absurd hkind hne, hfit,
      hlocation.trans hnext.symm, hlast, fun hne => absurd hkind hne, fun hne => absurd hkind hne⟩
    rw [hlast, hstop]
    exact hlater
  · -- Another token is read, and passed.
    have hlt := hother hkind
    have hrel := of_agrees hagrees hfit.stop (Nat.le_refl _) hsealed hs.ordinary
    obtain ⟨rfl, hshows, hkept, hstream, hset⟩ := hagrees
    have hlast : t.lastEnd = u.token.stop := hshows.lastEnd_eq
    have htext : t.text = u.pass.cursor.rest := (text_eq hshows).trans rfl
    refine ⟨hrel, ⟨hstream, hset, hkept, ?_⟩, htoken.symm, hmem _ rfl,
      fun _ => hu ▸ hshows.eq_unbuffered.symm, hfit,
      hlocation.trans hnext.symm, hlast, fun _ => hlocation ▸ hlt, fun _ => ?_⟩
    · rw [hlast]
      exact Nat.le_trans hlater (Nat.le_of_lt hlt)
    · rw [htext]
      exact Nat.lt_of_lt_of_le (Unbuffered.length_rest_pass_lt hkind) hsuffix.length_le

end Reliable

/-! ## Looking ahead -/

/-- A stream that stands where another one does. -/
structure Stays (s t : TokenStream) : Prop where
  /-- It is reliable. -/
  reliable : Reliable t
  /-- It is later, if only by the tokens in its buffer. -/
  later : Later s t
  /-- It stands for the same. -/
  unbuffered_eq : t.unbuffered = s.unbuffered

namespace Stays

variable {s t : TokenStream}

/-- The next token begins at the same place. -/
theorem nextPlace_eq (h : Stays s t) : t.nextPlace = s.nextPlace := by
  unfold TokenStream.nextPlace
  rw [h.unbuffered_eq]

/-- The same text is ahead of a stream that stands at the same place. -/
theorem text_eq (h : Stays s t) : t.text = s.text := by
  unfold TokenStream.text
  rw [h.unbuffered_eq]

/-- The last token read ends at the same place. -/
theorem lastEnd_eq (h : Stays s t) : t.lastEnd = s.lastEnd :=
  congrArg Unbuffered.lastEnd h.unbuffered_eq

/-- A stream stands where it stands. -/
theorem refl (hs : Reliable s) : Stays s s := ⟨hs, .refl s, rfl⟩

/-- What stands where a stream does that stands where another one does. -/
theorem trans {r : TokenStream} (h : Stays s t) (h' : Stays t r) : Stays s r :=
  ⟨h'.reliable, h.later.trans h'.later, h'.unbuffered_eq.trans h.unbuffered_eq⟩

/-- An operation that agrees with one that leaves the stream as it is. -/
theorem of_agrees {α : Type} {result : α × TokenStream} {a : α} (hs : Reliable s)
    (h : Agrees s result (a, s.unbuffered)) (hsealed : result.2.Sealed) : Stays s result.2 where
  reliable := .of_agrees h hs.lastEnd hs.lastEnd_le hsealed hs.ordinary
  later := ⟨h.source_eq, h.settings_eq, h.kept,
    Nat.le_of_eq (congrArg Location.offset h.shows.lastEnd_eq.symm)⟩
  unbuffered_eq := h.shows.eq_unbuffered.symm

end Stays

namespace Reliable

variable {s : TokenStream}

/-- Looking at the next token gives it, or says that the source ends; the stream stays where it
stood. -/
theorem peekExpecting (hs : Reliable s) (expected : List TokenKind) :
    ∃ t, Stays s t ∧ (s.peekExpecting 0 expected = (.ok s.nextToken, t) ∨
      s.nextToken.kind = .endOfInput ∧
        s.peekExpecting 0 expected = (.error (.unexpectedEnd s.nextPlace expected), t)) := by
  have hagrees := hs.shows.peekExpecting 0 expected
  have hstays := Stays.of_agrees hs hagrees (hs.isSealed.peekExpecting 0 expected)
  have hvalue := hagrees.value_eq
  have hlocation : s.unbuffered.skip.token.location = s.nextPlace := hs.nextToken.2
  rw [Unbuffered.ahead_zero_eq, hlocation] at hvalue
  generalize s.peekExpecting 0 expected = result at *
  obtain ⟨r, t⟩ := result
  dsimp only at hvalue
  refine ⟨t, hstays, ?_⟩
  -- Reading without a buffer answers by a case distinction on the end of the source, and the stream
  -- answers the same.
  split_ifs at hvalue with hend
  · exact .inr ⟨hend.1, by rw [hvalue]⟩
  · exact .inl (by rw [hvalue]; rfl)

end Reliable

/-- What was read where a stream stands was read on it. -/
theorem Took.of_stays {s t r : TokenStream} {token : Token} (h : Took t token r)
    (hstays : Stays s t) :
    Took s token r where
  token_eq := h.token_eq.trans (congrArg (fun u => u.skip.token) hstays.unbuffered_eq)
  mem := h.mem
  unbuffered_eq := hstays.unbuffered_eq ▸ h.unbuffered_eq
  fits := hstays.later.source_eq ▸ h.fits
  location_eq := h.location_eq.trans hstays.nextPlace_eq
  lastEnd_eq := h.lastEnd_eq
  lt := h.lt
  length_lt := hstays.text_eq ▸ h.length_lt

/-! ## Changing the settings, and coming back -/

namespace Reliable

variable {s t : TokenStream}

/-- Under other settings the stream stands where it stood. -/
theorem apply (hs : Reliable s) {settings : Settings} (hordinary : settings.Ordinary) :
    Reliable (s.apply settings) ∧ (s.apply settings).unbuffered = s.unbuffered.apply settings ∧
      (s.apply settings).consumed = s.consumed := by
  obtain ⟨hshows, hconsumed⟩ := hs.shows.apply settings
  have heq := hshows.eq_unbuffered
  have hsource := TokenStream.source_apply s settings
  have hlast : (s.apply settings).lastEnd = s.lastEnd := hshows.lastEnd_eq
  have hplace : (s.apply settings).place = s.place := congrArg Unbuffered.place heq.symm
  -- Changing the settings moves nothing: the place and the end of the last token are the old ones.
  refine ⟨⟨heq ▸ hshows, ?_, ?_, hs.isSealed.apply settings, ?_⟩, heq.symm, hconsumed⟩
  · rw [hsource, hlast]
    exact hs.lastEnd
  · rw [hlast, hplace]
    exact hs.lastEnd_le
  · rw [hshows.settings_eq]
    exact hordinary

/-- Under changed settings a later stream is later, once the settings are back. What was read under
them counts as read. -/
theorem later_apply (hs : Reliable s) {settings : Settings} (hordinary : settings.Ordinary)
    (ht : Reliable t) (hlater : Later (s.apply settings) t) : Later s (t.apply s.settings) := by
  obtain ⟨-, hunbuffered, hconsumed⟩ := hs.apply hordinary
  obtain ⟨-, hunbuffered', hconsumed'⟩ := ht.apply hs.ordinary
  have hlast : (s.apply settings).lastEnd = s.lastEnd := congrArg Unbuffered.lastEnd hunbuffered
  have hlast' : (t.apply s.settings).lastEnd = t.lastEnd := congrArg Unbuffered.lastEnd hunbuffered'
  refine ⟨?_, congrArg Unbuffered.settings hunbuffered', ?_, ?_⟩
  · rw [TokenStream.source_apply, hlater.source_eq, TokenStream.source_apply]
  · rw [hconsumed', ← hconsumed]
    exact hlater.kept
  · rw [hlast', ← hlast]
    exact hlater.lastEnd_le

/-- Coming back to a snapshot leads to where the stream stood, with the same text in front of it and
the same end of the last token. -/
theorem restore (hs : Reliable s) (ht : Reliable t) (hlater : Later s t) :
    Stays s (t.restore s.snapshot) := by
  obtain ⟨hshows, hconsumed⟩ :=
    (hs.shows.recalls.of_kept hlater.kept hlater.source_eq).restore ht.shows
  have heq := hshows.eq_unbuffered
  have hsource : (t.restore s.snapshot).source = s.source :=
    (TokenStream.source_restore t _).trans hlater.source_eq
  have hlast : (t.restore s.snapshot).lastEnd = s.lastEnd := hshows.lastEnd_eq
  have hsettings : (t.restore s.snapshot).settings = s.settings := hshows.settings_eq
  -- The tokens that were behind the snapshot are dropped, which leaves those in front of it.
  have hfirst : t.consumed.take s.snapshot.index = s.consumed := by
    have htake := List.prefix_iff_eq_take.1 hlater.kept
    rw [hs.shows.length_consumed] at htake
    exact htake.symm
  rw [hfirst] at hconsumed
  refine ⟨⟨heq ▸ hshows, ?_, ?_, ?_, hsettings ▸ hs.ordinary⟩,
    ⟨hsource, hsettings, hconsumed ▸ List.prefix_rfl, Nat.le_of_eq (congrArg _ hlast.symm)⟩,
      heq.symm⟩
  · rw [hsource, hlast]
    exact hs.lastEnd
  · have hplace : (t.restore s.snapshot).place = s.place := congrArg Unbuffered.place heq.symm
    rw [hlast, hplace]
    exact hs.lastEnd_le
  · have hback : { t with index := s.snapshot.index, lastEnd := s.snapshot.lastEnd }.Sealed :=
      ht.isSealed
    exact hback.apply _

/-- With one more mode in force the next token begins at the same place. -/
theorem nextPlace_push (hs : Reliable s) (mode : LexMode) :
    (s.apply (s.settings.push mode)).nextPlace = s.nextPlace := by
  unfold TokenStream.nextPlace
  rw [(hs.apply (hs.ordinary.push mode)).2.1]
  have hskip : (s.unbuffered.apply (s.settings.push mode)).skip = s.unbuffered.skip.apply
      (s.settings.push mode) :=
    Unbuffered.skip_eq_of_modes (u := s.unbuffered) hs.ordinary (hs.ordinary.push mode).base_mem
  rw [hskip]
  rfl

end Reliable

/-! ## Places across line ends -/

/-- Where the next token begins that is no line end, either. -/
def TokenStream.placeAcrossLines (s : TokenStream) : Location :=
  (s.unbuffered.apply (s.settings.ignore [.newline])).skip.place

/-- Moving on across line ends goes on where the next token begins. -/
theorem TokenStream.skip_ignore_newline (s : TokenStream) :
    (s.unbuffered.apply (s.settings.ignore [.newline])).skip =
      (s.unbuffered.skip.apply (s.settings.ignore [.newline])).skip :=
  Unbuffered.skip_skip_of_subset (u := s.unbuffered) rfl (List.subset_append_right _ _)

namespace Reliable

variable {s t : TokenStream} {token : Token}

/-- A token that is no line end stands where the next such one does. -/
theorem placeAcrossLines_eq (hs : Reliable s) (h : s.nextToken.kind ≠ .newline) :
    s.placeAcrossLines = s.nextPlace := by
  obtain ⟨-, -, -, -, hsettings⟩ := Unbuffered.skip_spec (u := s.unbuffered) hs.isPlace
  refine Unbuffered.place_skip_eq_of_subset rfl (List.subset_append_right _ _) ?_ hsettings
  refine (Unbuffered.kind_token_skip s.unbuffered).imp_right fun hread => ?_
  show (TokenKind.newline :: s.settings.ignored).contains s.nextToken.kind = false
  rw [List.contains_cons, beq_eq_false_iff_ne.2 h, Bool.false_or]
  exact hread

/-- Line ends only make the way to the next token longer. -/
theorem nextPlace_le_placeAcrossLines (hs : Reliable s) :
    s.nextPlace.offset ≤ s.placeAcrossLines.offset := by
  obtain ⟨hplace, -, hsource, -⟩ := Unbuffered.skip_spec (u := s.unbuffered) hs.isPlace
  unfold TokenStream.placeAcrossLines
  rw [s.skip_ignore_newline]
  have hacross := Unbuffered.skip_spec (u := s.unbuffered.skip.apply (s.settings.ignore [.newline]))
    (hsource ▸ hplace)
  exact hacross.2.1

/-- Reading a token leads no further back across line ends: the next token that is not one of these
is either the one that was read, or stands behind it. -/
theorem placeAcrossLines_le (hs : Reliable s) (ht : Reliable t) (hlater : Later s t)
    (h : Took s token t) :
    s.placeAcrossLines.offset ≤ t.placeAcrossLines.offset := by
  by_cases hkind : token.kind = .newline
  · -- A line end is moved over in either case.
    have hne : token.kind ≠ .endOfInput := hkind ▸ by decide
    obtain ⟨-, -, -, -, hsettings⟩ := Unbuffered.skip_spec (u := s.unbuffered) hs.isPlace
    have hstream := h.unbuffered_eq hne
    obtain rfl := h.token_eq
    have htoken : (s.unbuffered.skip.apply (s.settings.ignore [.newline])).token = s.nextToken := by
      unfold TokenStream.nextToken Unbuffered.token
      rw [hsettings]
      rfl
    have hpass : (s.unbuffered.skip.apply (s.settings.ignore [.newline])).pass =
        s.unbuffered.skip.pass.apply (s.settings.ignore [.newline]) := by
      unfold Unbuffered.pass
      rw [htoken]
      rfl
    have hignored : (s.unbuffered.skip.apply (s.settings.ignore [.newline])).isIgnored
        (s.unbuffered.skip.apply (s.settings.ignore [.newline])).token.kind = true := by
      rw [htoken, hkind]
      exact List.contains_iff_mem.2 List.mem_cons_self
    unfold TokenStream.placeAcrossLines
    rw [s.skip_ignore_newline, Unbuffered.skip_of_isIgnored (htoken ▸ hne) hignored, hpass, hstream,
      hlater.settings_eq]
    exact Nat.le_of_eq (congrArg Location.offset (Unbuffered.place_skip_with_lastEnd _ _).symm)
  · rw [hs.placeAcrossLines_eq (h.token_eq ▸ hkind), ← h.location_eq]
    calc token.location.offset ≤ token.stop.offset := h.fits.le
      _ = t.lastEnd.offset := by rw [h.lastEnd_eq]
      _ ≤ t.nextPlace.offset := ht.lastEnd_le_nextPlace
      _ ≤ t.placeAcrossLines.offset := ht.nextPlace_le_placeAcrossLines

end Reliable

/-- A stream that stands where another one does is as far across line ends. -/
theorem Stays.placeAcrossLines_eq {s t : TokenStream} (h : Stays s t) :
    t.placeAcrossLines = s.placeAcrossLines := by
  unfold TokenStream.placeAcrossLines
  rw [h.unbuffered_eq, h.later.settings_eq]

end MachineLang
