import MachineLang.Proofs.Unbuffered
import MachineLang.TokenStream.Script
import Mathlib.Data.List.Forall2

/-!
# Clients of a token stream

A `Client` is a program that uses a stream: a tree of calls that goes on by what each call gives,
with blocks under changed settings, attempts, and places that are remembered and come back to. It
runs on anything that offers an `Interface`, so one client runs on a token stream as well as on a
stream without a buffer. Places are come back to innermost first: coming back to one gives up those
remembered later, and an attempt, which remembers where it began, comes back only to places that
were remembered during it.

What a client does keeps the tokens in front of every place that it can still come back to
(`Tracks`). So no client can tell the two streams apart (`buffer_unobservable`): all that it is
given, errors, indices and ends included, is the same.
-/

namespace MachineLang

/-- A call to a stream, with the type of what it gives. -/
inductive Call : Type → Type
  /-- Reads the next token. -/
  | next : Call (Except SyntaxError Token)
  /-- Looks at a token ahead. -/
  | peek (ahead : Nat) : Call (Except SyntaxError Token)
  /-- Whether the next token has a kind. -/
  | check (kind : TokenKind) : Call Bool
  /-- Whether the next token is a given identifier. -/
  | checkWord (word : String) : Call Bool
  /-- Whether reading skips tokens of a kind. -/
  | isIgnored (kind : TokenKind) : Call Bool
  /-- Reads the next token if it has a kind. -/
  | accept (kind : TokenKind) : Call (Except SyntaxError (Option Token))
  /-- Reads the next token, which has to be of one of some kinds. -/
  | expect (kinds : List TokenKind) : Call (Except SyntaxError Token)
  /-- Where the next token begins. -/
  | location : Call Location
  /-- How many tokens have been passed. -/
  | index : Call Nat
  /-- Where the last token that was read and not skipped ends. -/
  | lastEnd : Call Location

/-- A program that uses a stream and gives a value of type `α` in the end. -/
inductive Client : Type → Type 1
  /-- Gives a value. -/
  | done {α : Type} (a : α) : Client α
  /-- Makes a call, and goes on with what it gives. -/
  | call {α β : Type} (c : Call β) (go : β → Client α) : Client α
  /-- Remembers the place. -/
  | snapshot {α : Type} (go : Client α) : Client α
  /-- Comes back to a remembered place, giving up the `newer` places that were remembered after
  it. -/
  | restore {α : Type} (newer : Nat) (go : Client α) : Client α
  /-- Runs a part under changed settings. -/
  | block {α β : Type} (change : Change) (body : Client β) (go : β → Client α) : Client α
  /-- Runs a part as an attempt, which may fail and says whether it has committed itself. -/
  | checkpoint {α β : Type} (body : Client (Except SyntaxError β × Bool))
      (go : Except SyntaxError (Attempt β) → Client α) : Client α

/-- What a stream with states of type `σ` offers, with places of type `τ`. -/
structure Interface (σ τ : Type) where
  /-- Makes a call. -/
  call {β : Type} : Call β → σ → β × σ
  /-- Runs a part under changed settings. -/
  withSettings {β : Type} : (Settings → Settings) → (σ → β × σ) → σ → β × σ
  /-- Runs a part as an attempt. -/
  checkpoint {β : Type} :
    (σ → (Except SyntaxError β × Bool) × σ) → σ → Except SyntaxError (Attempt β) × σ
  /-- The place to come back to. -/
  snapshot : σ → τ
  /-- Comes back to a place. -/
  restore : σ → τ → σ

/-- A stream in the course of a client. -/
structure ClientState (σ τ : Type) where
  /-- The stream. -/
  stream : σ
  /-- The places that can be come back to, the latest first. -/
  live : List τ

/-- Runs a client, which may take snapshots, go back to them and run parts of itself under other
settings. -/
def Client.run {σ τ : Type} (i : Interface σ τ) :
    {α : Type} → Client α → ClientState σ τ → α × ClientState σ τ
  | _, done a, p => (a, p)
  | _, call c go, p =>
    let (b, s) := i.call c p.stream
    (go b).run i { p with stream := s }
  | _, snapshot go, p => go.run i { p with live := i.snapshot p.stream :: p.live }
  | _, restore newer go, p =>
    match p.live.drop newer with
    | [] => go.run i p
    | target :: older => go.run i ⟨i.restore p.stream target, target :: older⟩
  | _, block change body go, p =>
    let ((b, live), s) := i.withSettings change.apply
      (fun s => let (b, q) := body.run i { p with stream := s }; ((b, q.live), q.stream)) p.stream
    (go b).run i ⟨s, live⟩
  | _, checkpoint body go, p =>
    let attempt := fun s => body.run i ⟨s, []⟩
    let (result, s) := i.checkpoint (fun s => ((attempt s).1, (attempt s).2.stream)) p.stream
    match result with
    | .ok (.rolledBack e) => (go (.ok (.rolledBack e))).run i ⟨s, p.live⟩
    | result => (go result).run i ⟨s, (attempt p.stream).2.live ++ p.live⟩

namespace Call

variable {β : Type}

/-- A call to a token stream. -/
def onBuffered : {β : Type} → Call β → TokenStream → β × TokenStream
  | _, next, s => s.next
  | _, peek ahead, s => s.peekNth ahead
  | _, check kind, s => s.check kind
  | _, checkWord word, s => s.checkWord word
  | _, isIgnored kind, s => (s.isIgnored kind, s)
  | _, accept kind, s => s.accept kind
  | _, expect kinds, s => s.expect kinds
  | _, location, s => s.location
  | _, index, s => (s.index, s)
  | _, lastEnd, s => (s.lastEnd, s)

/-- A call to a stream without a buffer. -/
def onUnbuffered : {β : Type} → Call β → Unbuffered → β × Unbuffered
  | _, next, u => u.advance []
  | _, peek ahead, u => (u.ahead ahead [], u)
  | _, check kind, u => (u.check kind, u)
  | _, checkWord word, u => (u.checkWord word, u)
  | _, isIgnored kind, u => (u.isIgnored kind, u)
  | _, accept kind, u => u.accept kind
  | _, expect kinds, u => u.expect kinds
  | _, location, u => (u.location, u)
  | _, index, u => (u.index, u)
  | _, lastEnd, u => (u.lastEnd, u)

/-- Calls agree: whatever a client asks of the two streams, it hears the same and moves both
alike. -/
theorem agrees {s : TokenStream} {u : Unbuffered} (h : Shows s u) (c : Call β) :
    Agrees s (c.onBuffered s) (c.onUnbuffered u) := by
  -- A call that reads nothing leaves both streams as they are and compares what it looks at.
  have hsame : ∀ {β : Type} (b b' : β), b = b' → Agrees s (b, s) (b', u) := by
    rintro β b _ rfl
    exact ⟨rfl, h, List.prefix_rfl, rfl, rfl⟩
  cases c with
  | next => exact h.advance
  | peek ahead => exact h.peekExpecting ahead []
  | check kind => exact h.check kind
  | checkWord word => exact h.checkWord word
  | isIgnored kind =>
    exact hsame _ _ (congrArg (fun settings => settings.ignored.contains kind) h.settings_eq)
  | accept kind => exact h.accept kind
  | expect kinds => exact h.expect kinds
  | location => exact h.location
  | index => exact hsame _ _ h.index_eq
  | lastEnd => exact hsame _ _ h.lastEnd_eq

end Call

/-- What a token stream offers to a client, with its snapshots as the places to come back to. -/
def Interface.buffered : Interface TokenStream Snapshot where
  call := Call.onBuffered
  withSettings := TokenStream.withSettings
  checkpoint := TokenStream.checkpoint
  snapshot := TokenStream.snapshot
  restore := TokenStream.restore

/-- What a stream without a buffer offers: a place is the stream that stands there. -/
def Interface.unbuffered : Interface Unbuffered Unbuffered where
  call := Call.onUnbuffered
  withSettings := Unbuffered.withSettings
  checkpoint := Unbuffered.checkpoint
  snapshot u := u
  restore _ u := u

/-! ## Places that can be come back to -/

/-- A place can still be come back to after coming back to one that is not in front of it. -/
theorem Recalls.of_restore {s : TokenStream} {u v w : Unbuffered} {target earlier : Snapshot}
    (h : Recalls s earlier u) (htarget : Recalls s target v) (hs : Shows s w)
    (hle : earlier.index ≤ target.index) : Recalls (s.restore target) earlier u := by
  obtain ⟨-, hconsumed⟩ := htarget.restore hs
  have hsource := s.source_restore target
  have htake : (s.restore target).consumed.take earlier.index = s.consumed.take earlier.index := by
    rw [hconsumed, List.take_take, Nat.min_eq_left hle]
  refine ⟨hsource.trans h.source_eq, h.index_eq, h.lastEnd_eq, h.settings_eq, ?_, ?_⟩
  · rw [hconsumed, List.length_take]
    exact Nat.le_min.2 ⟨hle, h.index_le⟩
  · rw [htake, hsource]
    exact h.consumed

/-- A client has come equally far on a token stream and on a stream without a buffer. The places
that can be come back to are the same, in order, and none is in front of the tokens `base`. -/
structure Tracks (source : String) (base : List Buffered) (p : ClientState TokenStream Snapshot)
    (q : ClientState Unbuffered Unbuffered) : Prop where
  /-- The streams stand at the same place. -/
  shows : Shows p.stream q.stream
  /-- It is a place in the source. -/
  source_eq : p.stream.source = source
  /-- The tokens `base` are behind the cursor. -/
  kept : base <+: p.stream.consumed
  /-- The remembered places are the same. -/
  live : List.Forall₂ (Recalls p.stream) p.live q.live
  /-- Places that were remembered earlier are not ahead of later ones. -/
  sorted : p.live.Pairwise fun newer older => older.index ≤ newer.index
  /-- No place is in front of the tokens `base`. -/
  above : ∀ target ∈ p.live, base.length ≤ target.index

namespace Tracks

variable {source : String} {base : List Buffered} {p : ClientState TokenStream Snapshot}
  {q : ClientState Unbuffered Unbuffered}

/-- Moving on keeps track, as long as nothing behind the cursor is given up. -/
theorem move (h : Tracks source base p q) {t : TokenStream} {v : Unbuffered} (hshows : Shows t v)
    (hkept : p.stream.consumed <+: t.consumed) (hsource : t.source = p.stream.source) :
    Tracks source base { p with stream := t } { q with stream := v } where
  shows := hshows
  source_eq := hsource.trans h.source_eq
  kept := h.kept.trans hkept
  live := h.live.imp fun _ _ hrecalls => hrecalls.of_kept hkept hsource
  sorted := h.sorted
  above := h.above

/-- No place that can be come back to is ahead of the cursor. -/
theorem index_le (h : Tracks source base p q) {target : Snapshot} (htarget : target ∈ p.live) :
    target.index ≤ p.stream.index := by
  obtain ⟨i, hi, rfl⟩ := List.mem_iff_getElem.1 htarget
  have hrecalls := h.live.get hi (h.live.length_eq ▸ hi)
  rw [← h.shows.length_consumed]
  exact hrecalls.index_le

/-- Remembering a place keeps track: both sides remember the same one, so coming back to it later
leads both to the same place. -/
theorem snapshot (h : Tracks source base p q) :
    Tracks source base { p with live := p.stream.snapshot :: p.live }
      { q with live := q.stream :: q.live } where
  shows := h.shows
  source_eq := h.source_eq
  kept := h.kept
  live := .cons h.shows.recalls h.live
  sorted := List.pairwise_cons.2 ⟨fun _ htarget => h.index_le htarget, h.sorted⟩
  above := by
    have hle := h.kept.length_le
    rw [h.shows.length_consumed] at hle
    exact List.forall_mem_cons.2 ⟨hle, h.above⟩

/-- Giving up the places that were remembered last keeps track. -/
theorem drop (h : Tracks source base p q) (newer : Nat) :
    Tracks source base { p with live := p.live.drop newer }
      { q with live := q.live.drop newer } where
  shows := h.shows
  source_eq := h.source_eq
  kept := h.kept
  live := List.forall₂_drop newer h.live
  sorted := h.sorted.drop
  above target htarget := h.above target (List.mem_of_mem_drop htarget)

/-- Coming back to the place that was remembered last keeps track: both sides stand there again, and
the earlier places are still the same. -/
theorem restore {s : TokenStream} {u v : Unbuffered} {target : Snapshot} {older : List Snapshot}
    {older' : List Unbuffered} (h : Tracks source base ⟨s, target :: older⟩ ⟨u, v :: older'⟩) :
    Tracks source base ⟨s.restore target, target :: older⟩ ⟨v, v :: older'⟩ := by
  obtain ⟨hshows, hsource, hkept, hlive, hsorted, habove⟩ := h
  obtain ⟨htarget, hrest⟩ := List.forall₂_cons.1 hlive
  obtain ⟨hrestored, hconsumed⟩ := htarget.restore hshows
  refine ⟨hrestored, (s.source_restore target).trans hsource, ?_, ?_, hsorted, habove⟩
  · show base <+: (s.restore target).consumed
    rw [hconsumed, List.prefix_take_iff]
    exact ⟨hkept, habove target List.mem_cons_self⟩
  · refine List.forall₂_cons.2 ⟨htarget.of_restore htarget hshows (Nat.le_refl _), ?_⟩
    -- The earlier places are not ahead of the one that is come back to.
    have hle := (List.forall₂_and_left _ _).2 ⟨(List.pairwise_cons.1 hsorted).1, hrest⟩
    exact hle.imp fun _ _ hearlier => hearlier.2.of_restore htarget hshows hearlier.1

/-- Changing the settings keeps track, since both sides change them alike. -/
theorem apply (h : Tracks source base p q) (settings : Settings) :
    Tracks source base { p with stream := p.stream.apply settings }
      { q with stream := q.stream.apply settings } := by
  obtain ⟨hshows, hconsumed⟩ := h.shows.apply settings
  exact h.move hshows (hconsumed ▸ List.prefix_rfl) (p.stream.source_apply settings)

/-- An attempt begins with no place to come back to. -/
theorem begin (h : Tracks source base p q) :
    Tracks source p.stream.consumed ⟨p.stream, []⟩ ⟨q.stream, []⟩ where
  shows := h.shows
  source_eq := h.source_eq
  kept := List.prefix_rfl
  live := .nil
  sorted := .nil
  above _ htarget := absurd htarget List.not_mem_nil

variable {p' : ClientState TokenStream Snapshot} {q' : ClientState Unbuffered Unbuffered}

/-- After an attempt that is not taken back its places can be come back to before those from in
front of it. -/
theorem finish (h : Tracks source base p q) (h' : Tracks source p.stream.consumed p' q') :
    Tracks source base ⟨p'.stream, p'.live ++ p.live⟩ ⟨q'.stream, q'.live ++ q.live⟩ := by
  have hmove := h.move h'.shows h'.kept (h'.source_eq.trans h.source_eq.symm)
  refine ⟨h'.shows, h'.source_eq, hmove.kept, List.rel_append h'.live hmove.live, ?_, ?_⟩
  · refine List.pairwise_append.2 ⟨h'.sorted, h.sorted, fun newer hnewer older holder => ?_⟩
    have hnewer' := h'.above newer hnewer
    rw [h.shows.length_consumed] at hnewer'
    exact Nat.le_trans (h.index_le holder) hnewer'
  · intro target htarget
    rcases List.mem_append.1 htarget with htarget | htarget
    · exact Nat.le_trans h.kept.length_le (h'.above target htarget)
    · exact h.above target htarget

/-- After an attempt that is taken back the stream is what it was. -/
theorem rollBack (h : Tracks source base p q) (h' : Tracks source p.stream.consumed p' q') :
    Tracks source base { p with stream := p'.stream.restore p.stream.snapshot } q := by
  have hsource : p'.stream.source = p.stream.source := h'.source_eq.trans h.source_eq.symm
  obtain ⟨hshows, hconsumed⟩ := (h.shows.recalls.of_kept h'.kept hsource).restore h'.shows
  have hfirst : p'.stream.consumed.take p.stream.snapshot.index = p.stream.consumed := by
    have htake := List.prefix_iff_eq_take.1 h'.kept
    rw [h.shows.length_consumed] at htake
    exact htake.symm
  rw [hfirst] at hconsumed
  exact h.move hshows (hconsumed ▸ List.prefix_rfl) ((p'.stream.source_restore _).trans hsource)

end Tracks

namespace Client

variable {α β : Type}

/-- A block on a token stream. -/
theorem run_block_buffered (change : Change) (body : Client β) (go : β → Client α)
    (p : ClientState TokenStream Snapshot) :
    (block change body go).run .buffered p =
      match body.run .buffered
        { p with stream := p.stream.apply (change.apply p.stream.settings) } with
      | (b, p') => (go b).run .buffered ⟨p'.stream.apply p.stream.settings, p'.live⟩ := by
  rw [run]
  rfl

/-- A block on a stream without a buffer. -/
theorem run_block_unbuffered (change : Change) (body : Client β) (go : β → Client α)
    (q : ClientState Unbuffered Unbuffered) :
    (block change body go).run .unbuffered q =
      match body.run .unbuffered
        { q with stream := q.stream.apply (change.apply q.stream.settings) } with
      | (b, q') => (go b).run .unbuffered ⟨q'.stream.apply q.stream.settings, q'.live⟩ := by
  rw [run]
  rfl

/-- How an attempt runs on a token stream: if the body fails, the stream is restored from the
snapshot that was taken in front of it, unless the body has committed or can never end. -/
theorem run_checkpoint_buffered (body : Client (Except SyntaxError β × Bool))
    (go : Except SyntaxError (Attempt β) → Client α) (p : ClientState TokenStream Snapshot) :
    (checkpoint body go).run .buffered p =
      match body.run .buffered ⟨p.stream, []⟩ with
      | ((.ok b, _), p') => (go (.ok (.done b))).run .buffered ⟨p'.stream, p'.live ++ p.live⟩
      | ((.error e, committed), p') =>
        if committed || e.isEndless then
          (go (.error e)).run .buffered ⟨p'.stream, p'.live ++ p.live⟩
        else
          (go (.ok (.rolledBack e))).run .buffered ⟨p'.stream.restore p.stream.snapshot,
            p.live⟩ := by
  rw [run]
  simp only [Interface.buffered, TokenStream.checkpoint]
  generalize body.run _ _ = attempt
  obtain ⟨⟨result, committed⟩, p'⟩ := attempt
  cases result with
  | ok b => rfl
  | error e =>
    by_cases hkeeps : (committed || e.isEndless) = true
    · simp only [if_pos hkeeps]
    · simp only [if_neg hkeeps]

/-- How an attempt runs on a stream without a buffer: if the body fails, everything goes on from the
state in front of it, unless the body has committed or can never end. -/
theorem run_checkpoint_unbuffered (body : Client (Except SyntaxError β × Bool))
    (go : Except SyntaxError (Attempt β) → Client α) (q : ClientState Unbuffered Unbuffered) :
    (checkpoint body go).run .unbuffered q =
      match body.run .unbuffered ⟨q.stream, []⟩ with
      | ((.ok b, _), q') => (go (.ok (.done b))).run .unbuffered ⟨q'.stream, q'.live ++ q.live⟩
      | ((.error e, committed), q') =>
        if committed || e.isEndless then
          (go (.error e)).run .unbuffered ⟨q'.stream, q'.live ++ q.live⟩
        else (go (.ok (.rolledBack e))).run .unbuffered q := by
  rw [run]
  simp only [Interface.unbuffered, Unbuffered.checkpoint]
  generalize body.run _ _ = attempt
  obtain ⟨⟨result, committed⟩, q'⟩ := attempt
  cases result with
  | ok b => rfl
  | error e =>
    by_cases hkeeps : (committed || e.isEndless) = true
    · simp only [if_pos hkeeps]
    · simp only [if_neg hkeeps]

/-- A client is given the same by a token stream as by a stream without a buffer. -/
theorem run_eq (client : Client α) {source : String} {base : List Buffered}
    {p : ClientState TokenStream Snapshot} {q : ClientState Unbuffered Unbuffered}
    (h : Tracks source base p q) :
    (client.run .buffered p).1 = (client.run .unbuffered q).1 ∧
      Tracks source base (client.run .buffered p).2 (client.run .unbuffered q).2 := by
  -- By induction on the client: every action leaves both sides in step, with snapshots that match.
  induction client generalizing base p q with
  | done a => exact ⟨rfl, h⟩
  | call c go ih =>
    have hcall := c.agrees h.shows
    have hmove := h.move hcall.shows hcall.kept hcall.source_eq
    rw [run, run]
    show ((go (c.onBuffered p.stream).1).run _ _).1 = ((go (c.onUnbuffered q.stream).1).run _ _).1 ∧
      Tracks source base ((go (c.onBuffered p.stream).1).run _ _).2
        ((go (c.onUnbuffered q.stream).1).run _ _).2
    rw [← hcall.value_eq]
    exact ih _ hmove
  | snapshot go ih => exact ih h.snapshot
  | restore newer go ih =>
    have hdrop := h.drop newer
    rw [run, run]
    generalize p.live.drop newer = live at *
    generalize q.live.drop newer = live' at *
    cases hdrop.live with
    | nil => exact ih h
    | cons htarget hrest => exact ih hdrop.restore
  | block change body go ihbody ihgo =>
    have hsettings := h.shows.settings_eq
    obtain ⟨hvalue, hend⟩ := ihbody (h.apply (change.apply p.stream.settings))
    have hafter := hend.apply p.stream.settings
    rw [run_block_buffered, run_block_unbuffered]
    rw [hsettings] at hvalue hafter ⊢
    generalize body.run .buffered
      { p with stream := p.stream.apply (change.apply q.stream.settings) } = result at *
    generalize body.run .unbuffered
      { q with stream := q.stream.apply (change.apply q.stream.settings) } = result' at *
    obtain ⟨b, p'⟩ := result
    obtain ⟨b', q'⟩ := result'
    obtain rfl : b = b' := hvalue
    exact ihgo b hafter
  | checkpoint body go ihbody ihgo =>
    -- The attempt begins without snapshots of its own; those around it are still there if it fails.
    obtain ⟨hvalue, hend⟩ := ihbody h.begin
    rw [run_checkpoint_buffered, run_checkpoint_unbuffered]
    generalize body.run .buffered ⟨p.stream, []⟩ = attempt at *
    generalize body.run .unbuffered ⟨q.stream, []⟩ = attempt' at *
    obtain ⟨⟨result, committed⟩, p'⟩ := attempt
    obtain ⟨outcome, q'⟩ := attempt'
    obtain rfl : (result, committed) = outcome := hvalue
    cases result with
    | ok b => exact ihgo _ (h.finish hend)
    | error e =>
      dsimp only
      split
      · exact ihgo _ (h.finish hend)
      · exact ihgo _ (h.rollBack hend)

end Client

/-- No place can be come back to at the start of the source. -/
theorem Tracks.ofSource (source : String) :
    Tracks source [] ⟨.ofSource source, []⟩ ⟨.ofSource source, []⟩ where
  shows := Shows.ofSource source
  source_eq := rfl
  kept := List.nil_prefix
  live := .nil
  sorted := .nil
  above _ htarget := absurd htarget List.not_mem_nil

/-- No client can tell whether a stream has a buffer. Whatever it calls, under whatever settings, in
attempts that are taken back or not, and however it comes back to places it remembered, a token
stream gives it what a stream gives that cuts every token off the source anew. -/
theorem buffer_unobservable {α : Type} (client : Client α) (source : String) :
    (client.run .buffered ⟨.ofSource source, []⟩).1 =
      (client.run .unbuffered ⟨.ofSource source, []⟩).1 :=
  (client.run_eq (Tracks.ofSource source)).1

end MachineLang
