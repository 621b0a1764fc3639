import YeBlock.Lib.Trace

/-!
# Abstract machines behind runs

An abstract machine says what an object is for: in which states it accepts a call, and what
an accepted call changes, with nothing in its state that is only there to decide faster.  An
object implements the machine if, from related states, its call returns exactly when the
machine accepts, and what is left on both sides is related again.  Then the two agree on every
call of every run.

## Main definitions

* `verdicts next t calls`, `specFinish next t calls` — a run of the machine.
* `Implements step next R` — one call of the object is one of the machine.
* `Implements.run` — so is a whole run.
-/

namespace Lib

universe u v w

variable {ε σ α : Type u} {Call : Type v} {τ : Type w}

section Machine
variable (next : τ → Call → Option τ)

/-- The state after a call: a rejected one changes nothing. -/
def specStep (t : τ) (c : Call) : τ := (next t c).getD t

/-- The state at the end of a run. -/
def specFinish (t : τ) (cs : List Call) : τ := cs.foldl (specStep next) t

/-- Which calls of a run are accepted. -/
def verdicts : τ → List Call → List Bool
  | _, [] => []
  | t, c :: cs => (next t c).isSome :: verdicts (specStep next t c) cs

end Machine

/-- From related states the object returns exactly when the machine accepts, and the states
left are related. -/
structure Implements (step : Call → EStateM ε σ α) (next : τ → Call → Option τ)
    (R : σ → τ → Prop) : Prop where
  returns : ∀ s t c a s', R s t → (step c).run s = .ok a s' → ∃ t', next t c = some t' ∧ R s' t'
  raises : ∀ s t c e s', R s t → (step c).run s = .error e s' → next t c = none ∧ R s' t

namespace Implements
variable {step : Call → EStateM ε σ α} {next : τ → Call → Option τ} {R : σ → τ → Prop}

/-- One call of the object is one call of the machine. -/
theorem event (h : Implements step next R) {s : σ} {t : τ} (hR : R s t) (c : Call) :
    (event step s c).accepted = (next t c).isSome ∧
      R (event step s c).after (specStep next t c) := by
  cases hc : (step c).run s with
  | ok a s' =>
      obtain ⟨t', hnext, hR'⟩ := h.returns s t c a s' hR hc
      rw [(event_of_ok hc).1, (event_of_ok hc).2, specStep, hnext]
      exact ⟨rfl, hR'⟩
  | error e s' =>
      obtain ⟨hnext, hR'⟩ := h.raises s t c e s' hR hc
      rw [(event_of_error hc).1, (event_of_error hc).2, specStep, hnext]
      exact ⟨rfl, hR'⟩

/-- **A run of the object is a run of the machine**: the same calls are accepted, and the
last states are related. -/
theorem run (h : Implements step next R) (cs : List Call) : ∀ s t, R s t →
    (trace step s cs).map Event.accepted = verdicts next t cs ∧
      R (finish step s cs) (specFinish next t cs) := by
  induction cs with
  | nil =>
      intro s t hR
      exact ⟨rfl, hR⟩
  | cons c cs ih =>
      intro s t hR
      obtain ⟨haccepted, hR'⟩ := h.event hR c
      obtain ⟨hverdicts, hfinish⟩ := ih _ _ hR'
      rw [trace, List.map_cons, haccepted, hverdicts]
      exact ⟨rfl, hfinish⟩

end Implements
end Lib
