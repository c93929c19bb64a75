import Mathlib.Data.List.Forall2
import QueryNotation.Proofs.RelatedRuns

/-!
# Calls on one reader

A reader is asked for expressions, items and queries, one after the other,
and also after a failure: every call starts in the state that the one
before it left. What two runs have in common after one call they have
after all of them.
-/

namespace QueryNotation

/-- What a reader comes to, and the state that it leaves. -/
def Reader.outcome {α : Type} (x : Reader α) (s : ReaderState) :
    Except ReadError α × ReaderState :=
  match x s with
  | .ok a s' => (.ok a, s')
  | .error e s' => (.error e, s')

theorem Reader.eq_ok_of_outcome {α : Type} {x : Reader α} {s s' : ReaderState} {a : α}
    (h : x.outcome s = (.ok a, s')) : x s = .ok a s' := by
  unfold Reader.outcome at h
  generalize x s = r at h ⊢
  cases r <;> cases h
  rfl

theorem Reader.eq_error_of_outcome {α : Type} {x : Reader α} {s s' : ReaderState}
    {e : ReadError} (h : x.outcome s = (.error e, s')) : x s = .error e s' := by
  unfold Reader.outcome at h
  generalize x s = r at h ⊢
  cases r <;> cases h
  rfl

theorem Query.parse_of_start {text : String} {s : ReaderState}
    (h : Reader.start text.toList = .ok s) :
    Query.parse text = (Reader.query.outcome s).1 := by
  rw [Query.parse, h, Reader.outcome]
  dsimp only
  cases Reader.query s <;> rfl

theorem Directive.parse_of_start {text : String} {s : ReaderState}
    (h : Reader.start text.toList = .ok s) :
    Directive.parse text = (Reader.directive.outcome s).1 := by
  rw [Directive.parse, h, Reader.outcome]
  dsimp only
  cases Reader.directive s <;> rfl

/-! ## Calls -/

inductive Call where
  | expression
  | directive
  | query
  deriving DecidableEq, Repr

inductive Reply where
  | directive (directive : Directive)
  | query (query : Query)

namespace Call

def reader : Call → Reader Reply
  | expression => do pure (.directive (← Reader.expression))
  | directive => do pure (.directive (← Reader.directive))
  | query => do pure (.query (← Reader.query))

/-- What calls come to one after the other, and the state that they leave. -/
def runAll : List Call → ReaderState → List (Except ReadError Reply) × ReaderState
  | [], s => ([], s)
  | call :: calls, s =>
    let (reply, s) := call.reader.outcome s
    let (replies, s) := runAll calls s
    (reply :: replies, s)

end Call

namespace Comparison

variable (C : Comparison) {α : Type}

/-- Both runs give the same, or errors that say the same. -/
inductive Outcomes : Except ReadError α → Except ReadError α → Prop where
  | ok (a : α) : Outcomes (.ok a) (.ok a)
  | error {e₁ e₂ : ReadError} (h : C.Errors e₁ e₂) : Outcomes (.error e₁) (.error e₂)

/-- The runs are compared to their ends. -/
structure IsTotal : Prop where
  not_beyond : ∀ s, ¬ C.beyond s
  not_excused : ∀ e, ¬ C.excused e

variable {C} {s₁ s₂ : ReaderState}

theorem IsTotal.not_left (h : C.IsTotal) (r : EStateM.Result ReadError ReaderState α) :
    ¬ C.Left r := by
  intro hleft
  cases r with
  | ok a s => exact h.not_beyond s hleft
  | error e s =>
      rcases hleft with hbeyond | ⟨fault, -, hexcused⟩
      · exact h.not_beyond s hbeyond
      · exact h.not_excused fault hexcused

theorem Compares.outcomes {x : Reader α} (hx : C.Respects x) (htotal : C.IsTotal)
    (h : C.states s₁ s₂) :
    C.Outcomes (x.outcome s₁).1 (x.outcome s₂).1 ∧ C.states (x.outcome s₁).2 (x.outcome s₂).2 := by
  have hresults := hx.states h
  unfold Reader.outcome
  generalize x s₁ = r₁ at hresults
  generalize x s₂ = r₂ at hresults
  cases hresults with
  | ok a h => exact ⟨.ok a, h⟩
  | error he h => exact ⟨.error he, h⟩
  | left hleft => exact (htotal.not_left r₁ hleft).elim

theorem Compares.call (hC : C.IsLawful) (call : Call) : C.Respects call.reader := by
  cases call with
  | expression => exact (expression hC).bind fun d => pure (Reply.directive d)
  | directive => exact (directive hC).bind fun d => pure (Reply.directive d)
  | query => exact (query hC).bind fun q => pure (Reply.query q)

/-- Runs that start in step answer all calls alike. -/
theorem outcomes_runAll (hC : C.IsLawful) (htotal : C.IsTotal) (h : C.states s₁ s₂)
    (calls : List Call) :
    List.Forall₂ C.Outcomes (Call.runAll calls s₁).1 (Call.runAll calls s₂).1 ∧
      C.states (Call.runAll calls s₁).2 (Call.runAll calls s₂).2 := by
  induction calls generalizing s₁ s₂ with
  | nil => exact ⟨.nil, h⟩
  | cons call calls ih =>
      obtain ⟨hcall, hs⟩ := (Compares.call hC call).outcomes htotal h
      obtain ⟨hcalls, hend⟩ := ih hs
      exact ⟨.cons hcall hcalls, hend⟩

end Comparison

end QueryNotation
