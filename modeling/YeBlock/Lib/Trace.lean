import YeBlock.Lib.Raise

/-!
# Runs of calls on one object

A run is a list of calls made one after the other on an object, each of which
may return or raise.  A raising call is not the end of the run: the next call
starts in whatever state was left.

The trace of a run keeps, for every call, the state before it and its outcome,
so that a property "right after every accepted call" is a property of the events
of the trace.  `run_induction` is the rule every whole-run result goes through:
an invariant that relates the state to the calls accepted so far, kept by
accepted calls and by rejected ones.

## Main definitions

* `Event` — one call of a run, with the state before it and its outcome.
* `trace step s calls`, `finish step s calls` — the events and the last state.
* `accepted step s calls`, `returned step s calls` — the calls that returned, in order, and
  what they returned.
* `run_induction`, `trace_induction` — invariants of the last state, and of
  every event.
* `trace_of_kept` — invariants that only the calls made need to keep.
-/

namespace Lib

universe u v

variable {ε σ α : Type u} {Call : Type v}

/-- One call of a run: the state it was made in and what came of it. -/
structure Event (ε σ α : Type u) (Call : Type v) where
  before : σ
  call : Call
  outcome : EStateM.Result ε σ α

namespace Event

/-- The state after the call, whether it returned or raised. -/
def after (e : Event ε σ α Call) : σ := leftState e.outcome

/-- The call returned. -/
def accepted (e : Event ε σ α Call) : Bool :=
  match e.outcome with
  | .ok _ _ => true
  | .error _ _ => false

/-- What the call returned, if it did. -/
def returned (e : Event ε σ α Call) : Option α :=
  match e.outcome with
  | .ok a _ => some a
  | .error _ _ => none

end Event

variable (step : Call → EStateM ε σ α)

/-- The event of one call made in the state `s`. -/
def event (s : σ) (c : Call) : Event ε σ α Call := ⟨s, c, (step c).run s⟩

/-- The events of a run, in order. -/
def trace : σ → List Call → List (Event ε σ α Call)
  | _, [] => []
  | s, c :: cs => event step s c :: trace (event step s c).after cs

/-- The state at the end of a run. -/
def finish : σ → List Call → σ
  | s, [] => s
  | s, c :: cs => finish (event step s c).after cs

/-- The calls of a run that returned, in order. -/
def accepted (s : σ) (cs : List Call) : List Call :=
  ((trace step s cs).filter Event.accepted).map Event.call

/-- What the calls of a run returned, in order. -/
def returned (s : σ) (cs : List Call) : List α := (trace step s cs).filterMap Event.returned

variable {step}

@[simp] theorem accepted_nil (s : σ) : accepted step s [] = [] := rfl

theorem event_of_ok {s s' : σ} {c : Call} {a : α} (h : (step c).run s = .ok a s') :
    (event step s c).accepted = true ∧ (event step s c).after = s' := by
  simp [event, Event.accepted, Event.after, h]

theorem event_of_error {s s' : σ} {c : Call} {e : ε} (h : (step c).run s = .error e s') :
    (event step s c).accepted = false ∧ (event step s c).after = s' := by
  simp [event, Event.accepted, Event.after, h]

theorem accepted_cons_of_ok {s s' : σ} {c : Call} {a : α} (h : (step c).run s = .ok a s')
    (cs : List Call) : accepted step s (c :: cs) = c :: accepted step s' cs := by
  rw [accepted, trace, (event_of_ok h).2, List.filter_cons_of_pos (event_of_ok h).1]
  rfl

theorem accepted_cons_of_error {s s' : σ} {c : Call} {e : ε} (h : (step c).run s = .error e s')
    (cs : List Call) : accepted step s (c :: cs) = accepted step s' cs := by
  rw [accepted, trace, (event_of_error h).2, List.filter_cons_of_neg (by simp [event_of_error h])]
  rfl

theorem returned_cons_of_ok {s s' : σ} {c : Call} {a : α} (h : (step c).run s = .ok a s')
    (cs : List Call) : returned step s (c :: cs) = a :: returned step s' cs := by
  have hreturned : (event step s c).returned = some a := by simp [event, Event.returned, h]
  rw [returned, trace, (event_of_ok h).2, List.filterMap_cons_some hreturned]
  rfl

theorem returned_cons_of_error {s s' : σ} {c : Call} {e : ε} (h : (step c).run s = .error e s')
    (cs : List Call) : returned step s (c :: cs) = returned step s' cs := by
  have hreturned : (event step s c).returned = none := by simp [event, Event.returned, h]
  rw [returned, trace, (event_of_error h).2, List.filterMap_cons_none hreturned]
  rfl

/-! ## Invariants of runs -/

section Induction
variable (step) {P : σ → List Call → Prop}
  (hok : ∀ s log c a s', P s log → (step c).run s = .ok a s' → P s' (log ++ [c]))
  (herr : ∀ s log c e s', P s log → (step c).run s = .error e s' → P s' log)

include hok herr

/-- **Induction along a run.**  A relation between the state and the accepted
calls that every call keeps holds at the end. -/
theorem run_induction (cs : List Call) :
    ∀ s log, P s log → P (finish step s cs) (log ++ accepted step s cs) := by
  induction cs with
  | nil => intro s log h; simpa [finish] using h
  | cons c cs ih =>
      intro s log h
      cases hc : (step c).run s with
      | ok a s' =>
          have hnext := ih s' (log ++ [c]) (hok s log c a s' h hc)
          rw [accepted_cons_of_ok hc, finish, (event_of_ok hc).2]
          simpa using hnext
      | error e s' =>
          rw [accepted_cons_of_error hc, finish, (event_of_error hc).2]
          exact ih s' log (herr s log c e s' h hc)

/-- **Induction along a run, for its events.**  What the invariant gives about
one call holds of every event of the trace. -/
theorem trace_induction {Q : Event ε σ α Call → Prop}
    (hQ : ∀ s log c, P s log → Q (event step s c)) (cs : List Call) :
    ∀ s log, P s log → ∀ e ∈ trace step s cs, Q e := by
  induction cs with
  | nil => intro s log _ e he; simp [trace] at he
  | cons c cs ih =>
      intro s log h e he
      rcases List.mem_cons.mp he with rfl | he
      · exact hQ s log c h
      · cases hc : (step c).run s with
        | ok a s' =>
            rw [(event_of_ok hc).2] at he
            exact ih s' (log ++ [c]) (hok s log c a s' h hc) e he
        | error e' s' =>
            rw [(event_of_error hc).2] at he
            exact ih s' log (herr s log c e' s' h hc) e he

end Induction

/-- **Induction over the calls made.**  What each of these calls keeps of the state
gives what it says about every one of their events. -/
theorem trace_of_kept {I : σ → Prop} {Q : Event ε σ α Call → Prop} (cs : List Call)
    (hkeep : ∀ s, ∀ c ∈ cs, I s → I (event step s c).after)
    (hQ : ∀ s, ∀ c ∈ cs, I s → Q (event step s c)) :
    ∀ s, I s → ∀ e ∈ trace step s cs, Q e := by
  induction cs with
  | nil =>
      intro s _ e he
      cases he
  | cons c cs ih =>
      intro s hs e he
      rcases List.mem_cons.mp he with rfl | he
      · exact hQ s c List.mem_cons_self hs
      · exact ih (fun s c hc => hkeep s c (List.mem_cons_of_mem _ hc))
          (fun s c hc => hQ s c (List.mem_cons_of_mem _ hc)) _
          (hkeep s c List.mem_cons_self hs) e he

@[simp] theorem length_trace (s : σ) (cs : List Call) : (trace step s cs).length = cs.length := by
  induction cs generalizing s with
  | nil => rfl
  | cons c cs ih => rw [trace, List.length_cons, List.length_cons, ih]

theorem finish_append (s : σ) (cs cs' : List Call) :
    finish step s (cs ++ cs') = finish step (finish step s cs) cs' := by
  induction cs generalizing s with
  | nil => rfl
  | cons c cs ih => exact ih _

/-- A run goes on where its first part ended. -/
theorem trace_append (s : σ) (cs cs' : List Call) :
    trace step s (cs ++ cs') = trace step s cs ++ trace step (finish step s cs) cs' := by
  induction cs generalizing s with
  | nil => rfl
  | cons c cs ih => rw [List.cons_append, trace, ih, trace, finish, List.cons_append]

/-- Every event of a trace is one call made in some state. -/
theorem exists_event_of_mem_trace {s : σ} {cs : List Call} {e : Event ε σ α Call}
    (he : e ∈ trace step s cs) : e = event step e.before e.call :=
  trace_induction step (P := fun _ _ => True) (Q := fun e => e = event step e.before e.call)
    (fun _ _ _ _ _ _ _ => trivial) (fun _ _ _ _ _ _ _ => trivial) (fun _ _ _ _ => rfl)
    cs s [] trivial e he

end Lib
