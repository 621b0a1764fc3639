import YeBlock.Lib.Trace

/-!
# Many parties on one object

The calls of several parties on one object are made in some order.  What one of them sees of
a run are its own calls with what each returned or raised.  Two states look the same to it if
a relation holds between them that its own calls keep, answering alike, and that the calls of
the others never break on the one side.  Then a run looks to the party as if it had been
alone, wherever its calls stand between those of the others.

## Main definitions

* `Alike x s t R` — called in two states, `x` answers the same and leaves related states.
* `Alike.bind`, `Alike.foldlM`, `Alike.forM` — the rules.
* `seenBy step own s cs` — what a party sees of a run.
* `Unwinds`, `Unwinds.run` — a party that cannot tell a run from its own part of it.
-/

namespace Lib

universe u v

variable {ε σ α β : Type u} {s t : σ} {R : σ → σ → Prop}

/-! ## One call in two states -/

/-- Called in `s` and in `t`, `x` returns the same value or raises the same exception, and
leaves related states. -/
inductive Alike (x : EStateM ε σ α) (s t : σ) (R : σ → σ → Prop) : Prop
  | returns {a : α} {s' t' : σ} (hs : x.run s = .ok a s') (ht : x.run t = .ok a t')
      (h : R s' t')
  | raises {e : ε} {s' t' : σ} (hs : x.run s = .error e s') (ht : x.run t = .error e t')
      (h : R s' t')

namespace Alike
variable {x : EStateM ε σ α}

/-- One call after another. -/
theorem bind {f : α → EStateM ε σ β} (h : Alike x s t R)
    (hf : ∀ a s' t', R s' t' → Alike (f a) s' t' R) : Alike (x >>= f) s t R := by
  cases h with
  | returns hs ht h =>
      cases hf _ _ _ h with
      | returns hs' ht' h' =>
          exact .returns ((run_bind_of_ok hs f).trans hs') ((run_bind_of_ok ht f).trans ht') h'
      | raises hs' ht' h' =>
          exact .raises ((run_bind_of_ok hs f).trans hs') ((run_bind_of_ok ht f).trans ht') h'
  | raises hs ht h => exact .raises (run_bind_of_error hs f) (run_bind_of_error ht f) h

/-- A loop that accumulates. -/
theorem foldlM {γ : Type v} {f : β → γ → EStateM ε σ β} (l : List γ)
    (hf : ∀ c ∈ l, ∀ b s t, R s t → Alike (f b c) s t R) :
    ∀ b s t, R s t → Alike (l.foldlM f b) s t R := by
  induction l with
  | nil =>
      intro b s t h
      exact .returns rfl rfl h
  | cons c l ih =>
      intro b s t h
      rw [List.foldlM_cons]
      refine (hf c List.mem_cons_self b s t h).bind fun b' s' t' h' => ?_
      exact ih (fun c' hc' => hf c' (List.mem_cons_of_mem c hc')) b' s' t' h'

/-- A loop of calls. -/
theorem forM {γ : Type v} {f : γ → EStateM ε σ PUnit} (l : List γ)
    (hf : ∀ c ∈ l, ∀ s t, R s t → Alike (f c) s t R) :
    ∀ s t, R s t → Alike (l.forM f) s t R := by
  induction l with
  | nil =>
      intro s t h
      exact .returns rfl rfl h
  | cons c l ih =>
      intro s t h
      refine (hf c List.mem_cons_self s t h).bind fun _ s' t' h' => ?_
      exact ih (fun c' hc' => hf c' (List.mem_cons_of_mem c hc')) s' t' h'

end Alike

/-! ## What a party sees -/

variable {Call : Type v} {step : Call → EStateM ε σ α}

/-- What the caller got: the value returned, or the exception raised. -/
def Event.answer (e : Event ε σ α Call) : Except ε α :=
  match e.outcome with
  | .ok a _ => .ok a
  | .error x _ => .error x

theorem Alike.answer {c : Call} (h : Alike (step c) s t R) :
    (event step s c).answer = (event step t c).answer ∧
      R (event step s c).after (event step t c).after := by
  cases h with
  | returns hs ht h =>
      rw [(event_of_ok hs).2, (event_of_ok ht).2]
      exact ⟨by simp only [Event.answer, event, hs, ht], h⟩
  | raises hs ht h =>
      rw [(event_of_error hs).2, (event_of_error ht).2]
      exact ⟨by simp only [Event.answer, event, hs, ht], h⟩

/-- The calls of a party in a run, each with its answer. -/
def seenBy (step : Call → EStateM ε σ α) (own : Call → Bool) (s : σ) (cs : List Call) :
    List (Call × Except ε α) :=
  ((trace step s cs).filter fun e => own e.call).map fun e => (e.call, e.answer)

section SeenBy
variable {own : Call → Bool} {c : Call} (cs : List Call)

theorem seenBy_cons_own (hc : own c = true) (s : σ) :
    seenBy step own s (c :: cs) =
      (c, (event step s c).answer) :: seenBy step own (event step s c).after cs := by
  rw [seenBy, trace, List.filter_cons_of_pos (by simpa [event] using hc)]
  rfl

theorem seenBy_cons_other (hc : own c = false) (s : σ) :
    seenBy step own s (c :: cs) = seenBy step own (event step s c).after cs := by
  rw [seenBy, trace, List.filter_cons_of_neg (by simpa [event] using hc)]
  rfl

end SeenBy

/-- The party's own calls among `cs` answer alike in related states and leave related states,
and a call of another leaves a state that is still related to what it was related to. -/
structure Unwinds (step : Call → EStateM ε σ α) (own : Call → Bool) (cs : List Call)
    (R : σ → σ → Prop) : Prop where
  alike : ∀ c ∈ cs, own c = true → ∀ s t, R s t → Alike (step c) s t R
  kept : ∀ c ∈ cs, own c = false → ∀ s t, R s t → R (event step s c).after t

/-- **A party that the others leave alone** sees of a run what it would see of its own calls,
and the last states look the same to it. -/
theorem Unwinds.run {own : Call → Bool} {cs : List Call} (h : Unwinds step own cs R) :
    ∀ s t, R s t → seenBy step own s cs = seenBy step own t (cs.filter own) ∧
      R (finish step s cs) (finish step t (cs.filter own)) := by
  induction cs with
  | nil =>
      intro s t hR
      exact ⟨rfl, hR⟩
  | cons c cs ih =>
      intro s t hR
      have hrest : Unwinds step own cs R :=
        ⟨fun c' hc' => h.alike c' (List.mem_cons_of_mem c hc'),
          fun c' hc' => h.kept c' (List.mem_cons_of_mem c hc')⟩
      cases hc : own c with
      | true =>
          obtain ⟨hanswer, hafter⟩ := (h.alike c List.mem_cons_self hc s t hR).answer
          obtain ⟨hseen, hlast⟩ := ih hrest _ _ hafter
          rw [List.filter_cons_of_pos hc, seenBy_cons_own cs hc, seenBy_cons_own _ hc, hanswer,
            hseen]
          exact ⟨rfl, hlast⟩
      | false =>
          obtain ⟨hseen, hlast⟩ := ih hrest _ _ (h.kept c List.mem_cons_self hc s t hR)
          rw [List.filter_cons_of_neg (by simp [hc]), seenBy_cons_other cs hc]
          exact ⟨hseen, hlast⟩

end Lib
