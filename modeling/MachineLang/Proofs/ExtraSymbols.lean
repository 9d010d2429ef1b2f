import MachineLang.Proofs.Transitions
import MachineLang.Proofs.Verdict

/-!
# Symbols that no transition reads

A step begins with the width of the longest symbol of the alphabet, so a symbol that no transition
reads matters if it is longer than all others. With a width beyond them only such transitions match
that read nothing or, on a bounded tape, all that is left, and each larger width makes no difference
(`WellFormed.mem_stepAt_of_lt`). These transitions now come first and overtake the others that leave
the same state (`Overtaken`); otherwise the machine moves as before (`move_withAlphabet_iff`). So it
accepts nothing new, and it behaves as before if no state reads both nothing and one of the longest
symbols from the same tape (`SeparatesReads`, `testWithin_withSymbol`). Without this it may lose a
word (`withSymbol_loses_word`).
-/

namespace MachineLang

variable {k : MachineKind} {x y : Symbol} {width width' n i : Nat}

/-! ## Reads with different widths -/

/-- Fewer characters than asked for are all that is left on a bounded tape, so every width that is
not smaller reads them. -/
theorem Tape.eq_read_of_lt {t : Tape} (hx : x = t.read width) (hlt : x.length < width)
    (hle : x.length ≤ width') : x = t.read width' := by
  subst hx
  unfold Tape.read at hlt hle ⊢
  dsimp only at hlt hle ⊢
  split at hlt
  · next hb =>
    rw [if_pos hb] at hle ⊢
    rw [if_pos hb]
    rw [List.length_take] at hlt hle
    rw [List.take_of_length_le (by omega), List.take_of_length_le (by omega)]
  · -- An unbounded tape has as many characters as asked for.
    rw [List.length_append, List.length_replicate] at hlt
    omega

/-- A symbol that is read with a width beyond its length is read with every width that is not
smaller. -/
theorem eq_read_widthAt {t : Tape} (hx : x = t.read (k.widthAt width i)) (hshort : x.length ≤ n)
    (hlt : n < width) (hle : n ≤ width') : x = t.read (k.widthAt width' i) := by
  unfold MachineKind.widthAt at hx ⊢
  split_ifs at hx ⊢
  · exact hx
  · exact Tape.eq_read_of_lt hx (by omega) (by omega)

/-- A symbol that is read with some width is read with the next larger one if another symbol is that
is not longer than the width, or if it is itself shorter than the width or on a stack. -/
theorem eq_read_widthAt_succ {t : Tape} (hx : x = t.read (k.widthAt n i)) (hxn : x.length ≤ n)
    (hy : y = t.read (k.widthAt (n + 1) i) ∨ y = epsilon) (hyn : y.length ≤ n)
    (hne : (k = .pushdown → i = 0) → y = epsilon → x.length ≠ n) :
    x = t.read (k.widthAt (n + 1) i) := by
  rcases hy with hy | hempty
  · -- The other symbol is all that is left, and so is this one.
    have hsame : y = t.read (k.widthAt n i) :=
      eq_read_widthAt hy hyn (Nat.lt_succ_self n) (Nat.le_refl n)
    rw [hx, ← hsame]
    exact hy
  · unfold MachineKind.widthAt at hx ⊢
    split_ifs at hx ⊢ with hstack
    · exact hx
    · have hlong : x.length ≠ n := hne (by tauto) hempty
      exact Tape.eq_read_of_lt hx (by omega) (by omega)

/-- A definition with one more symbol. -/
def Definition.withSymbol (d : Definition k) (x : Symbol) : Definition k :=
  { d with alphabet := d.alphabet.insert x }

namespace Machine

variable {m m' : Machine k} {symbols : SortedSet Symbol} {c e : Configuration}

/-! ## Steps with a larger width -/

/-- Some transition matches with one character more than the longest symbol has, but none of those
that do leads to the second configuration. -/
def Overtaken (m : Machine k) (c e : Configuration) : Prop :=
  m.stepAt c (m.width + 1) ≠ [] ∧ e ∉ m.stepAt c (m.width + 1)

/-- No two transitions that leave the same state read from the same tape the one nothing and the
other one of the longest symbols. What is popped from stacks does not count, since stacks are always
read with width one. -/
def SeparatesReads (m : Machine k) : Prop :=
  ∀ t ∈ m.transitions, ∀ u ∈ m.transitions, t.source = u.source →
    ∀ i, (k = .pushdown → i = 0) → t.read[i]? = some epsilon →
      ∀ x, u.read[i]? = some x → x.length ≠ m.width

/-- The machine with other symbols in its alphabet. -/
def withAlphabet (m : Machine k) (symbols : SortedSet Symbol) : Machine k :=
  { m with alphabet := symbols }

/-- A successor for a width beyond the longest symbol is one for every width that is not smaller
than the longest symbol. -/
theorem WellFormed.mem_stepAt_of_lt (h : m.WellFormed) (hlt : m.width < width)
    (hle : m.width ≤ width') (he : e ∈ m.stepAt c width) : e ∈ m.stepAt c width' := by
  obtain ⟨t, ht, hsource, hmatch, rfl⟩ := mem_stepAt.1 he
  obtain ⟨hlength, hsymbols⟩ := matchesRead_read_iff.1 hmatch
  refine mem_stepAt.2 ⟨t, ht, hsource, matchesRead_read_iff.2 ⟨hlength, ?_⟩, rfl⟩
  intro i x tape hx htape
  rcases hsymbols i x tape hx htape with hread | hempty
  · have hshort : x.length ≤ m.width := h.length_read_le ht (List.mem_of_getElem? hx)
    exact .inl (eq_read_widthAt hread hshort hlt hle)
  · exact .inr hempty

/-- If nothing matches with one character more than the longest symbol has, nothing matches with
more. -/
theorem WellFormed.stepAt_eq_nil_of_lt (h : m.WellFormed) (hnone : m.stepAt c (m.width + 1) = [])
    (hlt : m.width < width) : m.stepAt c width = [] := by
  rw [List.eq_nil_iff_forall_not_mem]
  intro e he
  have hnext : e ∈ m.stepAt c (m.width + 1) := h.mem_stepAt_of_lt hlt (by omega) he
  rw [hnone] at hnext
  exact List.not_mem_nil hnext

/-- If reads are separated, no move is overtaken: where wider reads match at all, the move reads as
much as the longest symbol has, and its transition matches the wider reads as well. -/
theorem SeparatesReads.not_overtaken (hseparate : m.SeparatesReads) (h : m.WellFormed)
    (hmove : m.Move c e) : ¬ m.Overtaken c e := by
  rintro ⟨hsome, hno⟩
  apply hno
  obtain ⟨f, hf⟩ := List.exists_mem_of_ne_nil _ hsome
  -- What matches beyond the longest symbol also matches with its width, so the move has this width.
  have hlongest : f ∈ m.stepAt c m.width :=
    h.mem_stepAt_of_lt (Nat.lt_succ_self m.width) (Nat.le_refl m.width) hf
  obtain ⟨width, -, hwidth, he, hwider⟩ := mem_step.1 hmove
  obtain rfl : width = m.width := by
    by_contra hne
    rw [hwider m.width (by omega) (Nat.le_refl _)] at hlongest
    exact List.not_mem_nil hlongest
  obtain ⟨t, ht, htsource, htmatch, -⟩ := mem_stepAt.1 hf
  obtain ⟨u, hu, husource, humatch, rfl⟩ := mem_stepAt.1 he
  obtain ⟨htlength, htsymbols⟩ := matchesRead_read_iff.1 htmatch
  obtain ⟨hulength, husymbols⟩ := matchesRead_read_iff.1 humatch
  refine mem_stepAt.2 ⟨u, hu, husource, matchesRead_read_iff.2 ⟨hulength, ?_⟩, rfl⟩
  intro i x tape hx htape
  rcases husymbols i x tape hx htape with hread | hempty
  · obtain ⟨y, hy⟩ : ∃ y, t.read[i]? = some y := by
      obtain ⟨hi, -⟩ := List.getElem?_eq_some_iff.1 htape
      exact ⟨_, List.getElem?_eq_getElem (by omega)⟩
    have hxshort : x.length ≤ m.width := h.length_read_le hu (List.mem_of_getElem? hx)
    have hyshort : y.length ≤ m.width := h.length_read_le ht (List.mem_of_getElem? hy)
    refine .inl (eq_read_widthAt_succ hread hxshort (htsymbols i y tape hy htape) hyshort ?_)
    rintro hi rfl
    exact hseparate t ht u hu (htsource.trans husource.symm) i hi hy x hx
  · exact .inr hempty

/-- With a longer symbol in its alphabet a machine makes the moves that are not overtaken. -/
theorem move_withAlphabet_iff (h : m.WellFormed)
    (hwider : m.width < (m.withAlphabet symbols).width) :
    (m.withAlphabet symbols).Move c e ↔ m.Move c e ∧ ¬ m.Overtaken c e := by
  have hat : ∀ width, (m.withAlphabet symbols).stepAt c width = m.stepAt c width := fun _ => rfl
  have hbeyond : m.width < m.width + 1 := Nat.lt_succ_self m.width
  constructor
  · intro hmove
    obtain ⟨width, hpos, hwidth, he, hempty⟩ := mem_step.1 hmove
    simp only [hat] at he hempty
    -- A match beyond the longest symbol is one with its width; another match is found as before.
    rcases Nat.lt_or_ge m.width width with hlt | hle
    · refine ⟨?_, fun hovertaken => hovertaken.2 (h.mem_stepAt_of_lt hlt (by omega) he)⟩
      have hlongest := h.mem_stepAt_of_lt hlt (Nat.le_refl m.width) he
      exact mem_step.2 ⟨m.width, m.width_pos, Nat.le_refl _, hlongest, fun wider _ _ => by omega⟩
    · refine ⟨mem_step.2 ⟨width, hpos, hle, he, fun wider hlt hw => ?_⟩, ?_⟩
      · exact hempty wider hlt (by omega)
      · exact fun hovertaken => hovertaken.1 (hempty (m.width + 1) (by omega) hwider)
  · rintro ⟨hmove, hfirst⟩
    by_cases hsome : m.stepAt c (m.width + 1) = []
    · -- Nothing matches beyond the longest symbol, so the first width with a match is the same.
      obtain ⟨width, hpos, hwidth, he, hempty⟩ := mem_step.1 hmove
      refine mem_step.2 ⟨width, hpos, by omega, he, fun wider hlt _ => ?_⟩
      rcases Nat.lt_or_ge m.width wider with hw | hw
      · exact h.stepAt_eq_nil_of_lt hsome hw
      · exact hempty wider hlt hw
    · -- What matches beyond the longest symbol matches with every width from there on.
      have he : e ∈ m.stepAt c (m.width + 1) := by
        by_contra hno
        exact hfirst ⟨hsome, hno⟩
      refine mem_step_of_stays (Nat.succ_pos _) hwider he fun wider hle _ _ => ?_
      exact h.mem_stepAt_of_lt hbeyond (by omega) he

/-- A machine with other symbols of the same width makes the same moves. -/
theorem move_withAlphabet_iff_of_width_eq (hw : (m.withAlphabet symbols).width = m.width) :
    (m.withAlphabet symbols).Move c e ↔ m.Move c e := by
  unfold Move
  rw [mem_step, mem_step, hw]
  rfl

/-! ## Tests with a larger width -/

/-- The search of a machine whose moves are not overtaken finds the same with a longer symbol. -/
theorem openMoves_withAlphabet {limit : Nat} (h : m.WellFormed)
    (hwider : m.width < (m.withAlphabet symbols).width)
    (hfirst : ∀ n < limit, ∀ a b, Moves m.OpenMove n c a → m.OpenMove a b → ¬ m.Overtaken a b) :
    ∀ n ≤ limit, ∀ e, Moves m.OpenMove n c e → Moves (m.withAlphabet symbols).OpenMove n c e := by
  have hrest : ∀ n i, i + n ≤ limit → ∀ a e, Moves m.OpenMove i c a → Moves m.OpenMove n a e →
      Moves (m.withAlphabet symbols).OpenMove n a e := by
    -- The induction is on the moves that are left; those that were made lead to where they begin.
    intro n
    induction n with
    | zero =>
      rintro i - a e - hmoves
      obtain rfl := Moves.zero_iff.1 hmoves
      exact .refl a
    | succ n ih =>
      intro i hi a e hmade hmoves
      obtain ⟨b, hab, hbe⟩ := Moves.succ_iff.1 hmoves
      have hmove : (m.withAlphabet symbols).OpenMove a b :=
        ⟨hab.1, (move_withAlphabet_iff h hwider).2 ⟨hab.2, hfirst i (by omega) a b hmade hab⟩⟩
      have hmade' : Moves m.OpenMove (i + 1) c b := hmade.trans (.step hab (.refl b))
      exact .step hmove (ih (i + 1) (by omega) b e hmade' hbe)
  exact fun n hn e hmoves => hrest n 0 (by omega) c e (.refl c) hmoves

/-- With a longer symbol in its alphabet a machine accepts nothing new and rejects whatever it
rejected, and if no move that its search makes is overtaken, it answers as before. -/
theorem testWithin_withAlphabet (h : m.WellFormed)
    (hwider : m.width < (m.withAlphabet symbols).width) (inputs : List Word) (limit : Nat) :
    ((m.withAlphabet symbols).testWithin inputs limit = .ok (some true) →
      m.testWithin inputs limit = .ok (some true)) ∧
    (m.testWithin inputs limit = .ok (some false) →
      (m.withAlphabet symbols).testWithin inputs limit = .ok (some false)) ∧
    ((∀ n < limit, ∀ a b, Moves m.OpenMove n (m.start inputs) a → m.OpenMove a b →
        ¬ m.Overtaken a b) →
      (m.withAlphabet symbols).testWithin inputs limit = m.testWithin inputs limit) := by
  have hcount : (m.withAlphabet symbols).tapeCount = m.tapeCount := rfl
  have hstart : (m.withAlphabet symbols).start inputs = m.start inputs := rfl
  -- Reading a longer word first can only hide moves, never add one.
  have hmoves : ∀ a b, (m.withAlphabet symbols).Move a b → m.Move a b :=
    fun a b hmove => ((move_withAlphabet_iff h hwider).1 hmove).1
  by_cases hle : inputs.length ≤ m.tapeCount
  · rw [testWithin_eq hle, testWithin_eq (hcount ▸ hle), hstart]
    simp only [Except.ok.injEq]
    refine ⟨fun haccept => ?_, verdict_eq_false_of_moves hmoves, fun hfirst => ?_⟩
    · rw [verdict_eq_true_iff] at haccept ⊢
      exact haccept.of_moves hmoves
    · exact verdict_eq_of_open_moves hmoves (openMoves_withAlphabet h hwider hfirst)
  · rw [testWithin_of_lt (by omega), testWithin_of_lt (by omega), hcount]
    exact ⟨id, id, fun _ => rfl⟩

/-- With other symbols of the same width in its alphabet a machine answers as before. -/
theorem testWithin_withAlphabet_of_width_eq (hw : (m.withAlphabet symbols).width = m.width)
    (inputs : List Word) (limit : Nat) :
    (m.withAlphabet symbols).testWithin inputs limit = m.testWithin inputs limit := by
  have hcount : (m.withAlphabet symbols).tapeCount = m.tapeCount := rfl
  have hstart : (m.withAlphabet symbols).start inputs = m.start inputs := rfl
  have hmoves : ∀ a b, (m.withAlphabet symbols).Move a b ↔ m.Move a b :=
    fun a b => move_withAlphabet_iff_of_width_eq hw
  by_cases hle : inputs.length ≤ m.tapeCount
  · rw [testWithin_eq hle, testWithin_eq (hcount ▸ hle), hstart]
    rw [verdict_eq_of_open_moves (fun a b => (hmoves a b).1)]
    exact fun n _ d hd => hd.mono fun a b hab => ⟨hab.1, (hmoves a b).2 hab.2⟩
  · rw [testWithin_of_lt (by omega), testWithin_of_lt (by omega), hcount]

/-! ## Definitions with one more symbol -/

/-- One more symbol in the alphabet counts for the width like those of the transitions. It widens
the reads of the machine only if it is longer than all of them. -/
theorem width_build_withSymbol (d : Definition k) (x : Symbol) :
    (build (d.withSymbol x)).width = max (build d).width x.length := by
  have hmem : ∀ y, y ∈ (build (d.withSymbol x)).alphabet ↔
      (y = x ∧ y ≠ epsilon ∧ y ≠ blank) ∨ y ∈ (build d).alphabet := by
    intro y
    have hinsert : y ∈ (d.withSymbol x).alphabet ↔ y = x ∨ y ∈ d.alphabet := SortedSet.mem_insert
    have htransitions : (d.withSymbol x).transitions = d.transitions := rfl
    rw [mem_alphabet_build, mem_alphabet_build, hinsert, htransitions, or_assoc, or_and_right]
  refine eq_of_forall_ge_iff fun n => ?_
  rw [Nat.max_le]
  simp only [width_le_iff, hmem, or_imp, forall_and]
  constructor
  · rintro ⟨hn, hx, hall⟩
    refine ⟨⟨hn, hall⟩, ?_⟩
    -- The empty symbol and the blank do not get into the alphabet, but they are short enough.
    by_cases hepsilon : x = epsilon
    · rw [hepsilon]
      exact Nat.zero_le n
    · by_cases hblank : x = blank
      · rw [hblank]
        exact hn
      · exact hx x ⟨rfl, hepsilon, hblank⟩
  · rintro ⟨⟨hn, hall⟩, hx⟩
    refine ⟨hn, ?_, hall⟩
    rintro y ⟨rfl, -⟩
    exact hx

/-- One more symbol that is not longer than all others changes no answer of a machine. A longer one
keeps exactly those moves that are overtaken from being made. So the machine accepts nothing new and
rejects whatever it rejected, and it answers as before if no move that its search makes is
overtaken; in particular, if reads are separated. -/
theorem testWithin_withSymbol (d : Definition k) (x : Symbol) (m : Machine k) (h : new d = .ok m) :
    ∃ m', new (d.withSymbol x) = .ok m' ∧
      (x.length ≤ m.width → ∀ inputs limit,
        m'.testWithin inputs limit = m.testWithin inputs limit) ∧
      (m.width < x.length →
        (∀ c e, m'.Move c e ↔ m.Move c e ∧ ¬ m.Overtaken c e) ∧
        (∀ inputs limit,
          (m'.testWithin inputs limit = .ok (some true) →
            m.testWithin inputs limit = .ok (some true)) ∧
          (m.testWithin inputs limit = .ok (some false) →
            m'.testWithin inputs limit = .ok (some false)) ∧
          ((∀ n < limit, ∀ c e, Moves m.OpenMove n (m.start inputs) c → m.OpenMove c e →
              ¬ m.Overtaken c e) →
            m'.testWithin inputs limit = m.testWithin inputs limit)) ∧
        (m.SeparatesReads → ∀ inputs limit,
          m'.testWithin inputs limit = m.testWithin inputs limit)) := by
  have hm : m.WellFormed := IsBuilt.wellFormed ⟨d, h⟩
  obtain ⟨rfl, hfits⟩ := of_new_eq_ok h
  have hnew : new (d.withSymbol x) = .ok (build (d.withSymbol x)) := new_eq_ok hfits
  have hwidth : (build (d.withSymbol x)).width = max (build d).width x.length :=
    width_build_withSymbol d x
  -- The definition describes the same machine but for the alphabet.
  obtain ⟨symbols, hsame⟩ : ∃ symbols, build (d.withSymbol x) = (build d).withAlphabet symbols :=
    ⟨_, rfl⟩
  rw [hsame] at hnew hwidth
  refine ⟨(build d).withAlphabet symbols, hnew, ?_, ?_⟩
  · intro hshort
    rw [Nat.max_eq_left hshort] at hwidth
    exact testWithin_withAlphabet_of_width_eq hwidth
  · intro hlong
    have hwider : (build d).width < ((build d).withAlphabet symbols).width := by omega
    have htests := testWithin_withAlphabet hm hwider
    refine ⟨fun c e => move_withAlphabet_iff hm hwider, htests, fun hseparate inputs limit => ?_⟩
    obtain ⟨-, -, hanswers⟩ := htests inputs limit
    exact hanswers fun n _ a b _ hmove => hseparate.not_overtaken hm hmove.2

/-- A pushdown automaton for nested brackets. -/
def brackets : Definition .pushdown where
  transitions := [⟨"read", [['('], epsilon], "read", StackAction.mk [['(']]⟩,
    ⟨"read", [[')'], ['(']], "read", StackAction.mk [epsilon]⟩]
  initial := "read"
  finals := .single "read"
  tapes := ["input", "stack"]
  bounded := true

/-- With the symbol "begin" in its alphabet the automaton goes on accepting "(())" and rejecting
")": it always reads a bracket from its input. -/
theorem withSymbol_brackets :
    new brackets = .ok (build brackets) ∧ (build brackets).SeparatesReads ∧
      ∃ m', new (brackets.withSymbol ['b', 'e', 'g', 'i', 'n']) = .ok m' ∧
        m'.testWithin [['(', '(', ')', ')']] 5 = .ok (some true) ∧
        m'.testWithin [[')']] 5 = .ok (some false) := by
  have hnew : new brackets = .ok (build brackets) := new_eq_ok (by decide)
  -- Both transitions read a bracket from the input, so neither has an empty pattern.
  have hseparate : (build brackets).SeparatesReads := by
    intro t ht u hu _ i hi hempty
    obtain rfl := hi rfl
    rcases List.mem_pair.1 (mem_transitions_build.1 ht) with rfl | rfl
    · exact absurd hempty (by decide)
    · exact absurd hempty (by decide)
  have hwidth : (build brackets).width = 1 := by decide +kernel
  obtain ⟨m', hm', -, hlong⟩ :=
    testWithin_withSymbol brackets ['b', 'e', 'g', 'i', 'n'] (build brackets) hnew
  obtain ⟨-, -, hsame⟩ := hlong (by rw [hwidth]; decide)
  refine ⟨hnew, hseparate, m', hm', ?_, ?_⟩
  · rw [hsame hseparate]
    decide +kernel
  · rw [hsame hseparate]
    decide +kernel

/-- An automaton that may give up without reading anything, or read "ab". -/
def asking : Definition .finite where
  transitions := [⟨"ask", [epsilon], "idle", ()⟩, ⟨"ask", [['a']], "heard", ()⟩,
    ⟨"heard", [['b']], "done", ()⟩]
  initial := "ask"
  finals := .single "done"
  bounded := true

/-- The symbol "zz" is read nowhere, but with it in the alphabet the automaton first tries to read
two characters. Then it can only give up, so it rejects the word "ab" that it accepts otherwise. -/
theorem withSymbol_loses_word :
    asking.bounded = MachineKind.finite.bounded ∧
      (∀ t ∈ asking.transitions, ['z', 'z'] ∉ t.read) ∧
      ∃ m m', new asking = .ok m ∧ new (asking.withSymbol ['z', 'z']) = .ok m' ∧
        m.testWithin [['a', 'b']] 3 = .ok (some true) ∧
        m'.testWithin [['a', 'b']] 3 = .ok (some false) := by
  refine ⟨rfl, by decide, build asking, build (asking.withSymbol ['z', 'z']), ?_, ?_, ?_, ?_⟩
  · exact new_eq_ok (by decide)
  · exact new_eq_ok (by decide)
  · decide +kernel
  · decide +kernel

end Machine

end MachineLang
