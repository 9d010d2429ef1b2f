import MachineLang.Evaluation.Declaration
import MachineLang.Proofs.Transitions
import MachineLang.Tree.Shapes

/-!
# Declarations that are well formed

Evaluation can fail in two ways: a program may ask for what is not there
(`EvaluationError.OfProgram`), or the evaluator may be given what it is not made for. What trees of
programs contain is read without failures of the second sort (`yields_declaredTransitionOf`), and so
are machines built from declarations with a tape: their values are put on tapes one by one, so that
transitions address every tape (`Declaration.yields_machine`).
-/

namespace MachineLang

/-- The program is to blame for the error: neither a machine nor a handler was given what it is not
made for. -/
def EvaluationError.OfProgram : EvaluationError → Prop
  | .machine _ => False
  | .dispatch _ => False
  | .endless _ => False
  | _ => True

/-- What is computed is as described, and only the program is to blame if nothing is. -/
def Yields {α : Type} (P : α → Prop) : Except EvaluationError α → Prop
  | .ok a => P a
  | .error e => e.OfProgram

namespace Yields

variable {α β : Type} {P : α → Prop} {Q : β → Prop} {x : Except EvaluationError α}

/-- What is described one way is described by what follows from it. -/
theorem mono {P' : α → Prop} (h : Yields P x) (hP : ∀ a, P a → P' a) : Yields P' x := by
  cases x with
  | error e => exact h
  | ok a => exact hP a h

/-- One computation behind another is as described if the second one is for every value of the
first. -/
theorem bind {f : α → Except EvaluationError β} (h : Yields P x) (hf : ∀ a, P a → Yields Q (f a)) :
    Yields Q (x >>= f) := by
  cases x with
  | error e => exact h
  | ok a => exact hf a h

/-- The same computation for each of some values. -/
theorem mapM {f : α → Except EvaluationError β} {as : List α} (h : ∀ a ∈ as, Yields Q (f a)) :
    Yields (fun bs => ∀ b ∈ bs, Q b) (as.mapM f) := by
  induction as with
  | nil => exact List.forall_mem_nil Q
  | cons a as ih =>
    obtain ⟨ha, has⟩ := List.forall_mem_cons.1 h
    rw [List.mapM_cons]
    refine ha.bind fun b hb => (ih has).bind fun bs hbs => ?_
    exact List.forall_mem_cons.2 ⟨hb, hbs⟩

end Yields

/-! ## What nodes stand for -/

/-- A condition stands for a symbol. -/
theorem yields_symbolOf {node : Node} (h : node.IsCondition) :
    Yields (fun _ => True) (symbolOf node) := by
  cases h <;> trivial

/-- A symbol for a tape is read off its node, which has the form of one. -/
theorem yields_tapeSymbolOf {node : Node} (h : node.IsTapeSymbol) :
    Yields (fun _ => True) (tapeSymbolOf node) := by
  cases h with
  | bare h => cases h <;> trivial
  | qualified tape h => exact (yields_symbolOf h).bind fun _ _ => trivial

/-- A move of a head is read off its node, which has the form of one. -/
theorem yields_tapeShiftOf {node : Node} (h : node.IsTapeShift) :
    Yields (fun _ => True) (tapeShiftOf node) := by
  cases h <;> trivial

/-- A transition is read off its node, whatever kind of machine it is written for. -/
theorem yields_declaredTransitionOf {node : Node} (h : node.IsTransition) :
    Yields (fun _ => True) (declaredTransitionOf node) := by
  cases h with
  | finite source hcondition => exact (yields_symbolOf hcondition).bind fun _ _ => trivial
  | pushdown source hcondition hpop target hpush =>
    refine (yields_symbolOf hcondition).bind fun read _ => ?_
    refine (Yields.mapM fun n hn => yields_tapeSymbolOf (hpop n hn)).bind fun pop _ => ?_
    exact (Yields.mapM fun n hn => yields_tapeSymbolOf (hpush n hn)).bind fun push _ => trivial
  | turing source hread target hwrite hshift =>
    refine (Yields.mapM fun n hn => yields_tapeSymbolOf (hread n hn)).bind fun read _ => ?_
    refine (Yields.mapM fun n hn => yields_tapeSymbolOf (hwrite n hn)).bind fun write _ => ?_
    exact (Yields.mapM fun n hn => yields_tapeShiftOf (hshift n hn)).bind fun shift _ => trivial

/-- The symbols of an alternative of a production. -/
theorem yields_productionBody {items : List Node} (h : ∀ n ∈ items, n.IsItem) :
    Yields (fun _ => True) (productionBody items) := by
  induction items with
  | nil => trivial
  | cons item items ih =>
    obtain ⟨hitem, hitems⟩ := List.forall_mem_cons.1 h
    cases hitem with
    | string value span => exact (ih hitems).bind fun _ _ => trivial
    | nonTerminal name span => exact (ih hitems).bind fun _ _ => trivial

/-! ## Values on tapes -/

section

variable {α : Type} {automaton : String} {tapes : List String} {found : Nat} {span : Span}

/-- Putting values on tapes keeps the number of places, since a value only replaces another one. So
what is arranged has one value for each tape. -/
theorem yields_arrangeFrom {position : Nat} {values : List (TapeValue α)} {arranged : List α} :
    Yields (fun result => result.length = arranged.length)
      (arrangeFrom automaton tapes found span position values arranged) := by
  induction values generalizing position arranged with
  | nil => exact rfl
  | cons value values ih =>
    obtain ⟨_ | tape, value⟩ := value
    · unfold arrangeFrom
      split_ifs
      · exact ih.mono fun result h => h.trans List.length_set
      · trivial
    · unfold arrangeFrom
      split
      · exact ih.mono fun result h => h.trans List.length_set
      · trivial

/-- There is one value for each tape. -/
theorem yields_arrange {neutral : α} {values : List (TapeValue α)} :
    Yields (fun result => result.length = tapes.length)
      (arrange automaton tapes span neutral values) :=
  yields_arrangeFrom.mono fun _ h => h.trans List.length_replicate

end

/-- A machine has a tape, and a finite automaton has just one. -/
def FitsKind (kind : MachineKind) (tapes : Nat) : Prop := 0 < tapes ∧ (kind = .finite → tapes = 1)

namespace Declaration

variable {d : Declaration} {kind : MachineKind}

/-- Transitions address every tape once their values are put on tapes, whichever kind the machine
has. For a pushdown automaton the symbol that is read counts as the value for its input tape. -/
theorem yields_transition (h : FitsKind kind d.tapes.length) (t : DeclaredTransition) :
    Yields (fun t => Machine.fits d.tapes.length t = true) (d.transition kind t) := by
  obtain ⟨source, target, form, span⟩ := t
  cases kind with
  | finite =>
    cases form with
    | finite read =>
      -- A finite automaton has one tape, and its transitions read one symbol.
      have hone := h.2 rfl
      show Machine.fits d.tapes.length _ = true
      rw [hone]
      rfl
    | _ => trivial
  | pushdown =>
    cases form with
    | pushdown read pop push =>
      refine yields_arrange.bind fun pop hpop => yields_arrange.bind fun push hpush => ?_
      -- The input tape is in front of the stacks, which the values are arranged on.
      rw [List.length_drop] at hpop hpush
      have hpos := h.1
      have hpop : (read :: pop).length = d.tapes.length := by
        rw [List.length_cons]
        omega
      have hpush : push.length + 1 = d.tapes.length := by omega
      exact Bool.and_eq_true_iff.2 ⟨beq_iff_eq.2 hpop, beq_iff_eq.2 hpush⟩
    | _ => trivial
  | turing =>
    cases form with
    | turing read write shift =>
      refine yields_arrange.bind fun read hread => yields_arrange.bind fun write hwrite => ?_
      refine yields_arrange.bind fun shift hshift => ?_
      refine Bool.and_eq_true_iff.2 ⟨beq_iff_eq.2 hread, ?_⟩
      exact Bool.and_eq_true_iff.2 ⟨beq_iff_eq.2 hwrite, beq_iff_eq.2 hshift⟩
    | _ => trivial

/-- The machine that is declared has the tapes of the declaration. -/
theorem yields_machine (h : FitsKind kind d.tapes.length) :
    Yields (fun m => FitsKind kind m.tapeCount) (d.machine kind) := by
  refine (Yields.mapM fun t _ => yields_transition h t).bind fun transitions hfits => ?_
  have hmax : max 1 d.tapes.length = d.tapes.length := Nat.max_eq_right h.1
  dsimp only
  rw [Machine.new_eq_ok (by rw [hmax]; exact hfits)]
  show FitsKind kind (Machine.build _).tapeCount
  rw [Machine.tapeCount_build, hmax]
  exact h

end Declaration

end MachineLang
