import YeBlock.Lib.Trace

/-!
# What a call that may raise ends in

A postcondition of a call has two parts: one for what it returns with the state it leaves,
and one for the state a raise leaves.  The rules below follow the construction of a call:
sequencing, a loop that accumulates, and a consequence rule.  A run of calls is bounded by
what each call ends in, in the order of the calls.

## Main definitions

* `Ends x s Q E` — called in `s`, `x` returns with `Q` or raises with `E`.
* `Ends.bind`, `Ends.foldlM`, `Ends.mono` — the rules.
* `finish_of_ends` — an invariant that follows the calls made.
-/

namespace Lib

universe u v

variable {ε σ α β : Type u} {s : σ}

/-- Called in `s`, `x` returns a value and a state with `Q`, or raises and leaves a state
with `E`. -/
def Ends (x : EStateM ε σ α) (s : σ) (Q : α → σ → Prop) (E : σ → Prop) : Prop :=
  match x.run s with
  | .ok a s' => Q a s'
  | .error _ s' => E s'

namespace Ends
variable {x : EStateM ε σ α} {Q Q' : α → σ → Prop} {E E' : σ → Prop}

theorem of_ok {a : α} {s' : σ} (hrun : x.run s = .ok a s') (h : Q a s') : Ends x s Q E := by
  rw [Ends, hrun]
  exact h

theorem of_error {e : ε} {s' : σ} (hrun : x.run s = .error e s') (h : E s') : Ends x s Q E := by
  rw [Ends, hrun]
  exact h

/-- The consequence rule. -/
theorem mono (h : Ends x s Q E) (hQ : ∀ a s', Q a s' → Q' a s') (hE : ∀ s', E s' → E' s') :
    Ends x s Q' E' := by
  rw [Ends] at h ⊢
  cases hrun : x.run s with
  | ok a s' =>
      rw [hrun] at h
      exact hQ a s' h
  | error e s' =>
      rw [hrun] at h
      exact hE s' h

/-- One call after another. -/
theorem bind {R : β → σ → Prop} {f : α → EStateM ε σ β} (h : Ends x s Q E)
    (hf : ∀ a s', Q a s' → Ends (f a) s' R E) : Ends (x >>= f) s R E := by
  rw [Ends] at h
  cases hrun : x.run s with
  | ok a s' =>
      rw [hrun] at h
      rw [Ends, run_bind_of_ok hrun]
      exact hf a s' h
  | error e s' =>
      rw [hrun] at h
      exact of_error (run_bind_of_error hrun f) h

/-- A loop that accumulates, by an invariant over the part of the list that is done. -/
theorem foldlM {γ : Type v} {f : β → γ → EStateM ε σ β} {I : List γ → β → σ → Prop}
    (l : List γ) (hf : ∀ done c b s, c ∈ l → I done b s → Ends (f b c) s (I (done ++ [c])) E) :
    ∀ done b s, I done b s → Ends (l.foldlM f b) s (I (done ++ l)) E := by
  induction l with
  | nil =>
      intro done b s h
      rw [List.append_nil]
      exact of_ok rfl h
  | cons c l ih =>
      intro done b s h
      rw [List.foldlM_cons]
      refine (hf done c b s List.mem_cons_self h).bind fun b' s' h' => ?_
      have hrest := ih (fun done c' b s hc' => hf done c' b s (List.mem_cons_of_mem c hc'))
        (done ++ [c]) b' s' h'
      rwa [List.append_assoc] at hrest

/-- What holds however the call ends holds of the state it leaves. -/
theorem leftState {P : σ → Prop} (h : Ends x s (fun _ => P) P) : P (leftState (x.run s)) := by
  rw [Ends] at h
  cases hrun : x.run s with
  | ok a s' =>
      rw [hrun] at h
      exact h
  | error e s' =>
      rw [hrun] at h
      exact h

end Ends

/-- **An invariant that follows the calls made**: what every call keeps, given the calls
before it, holds after all of them. -/
theorem finish_of_ends {Call : Type v} {step : Call → EStateM ε σ α} {I : List Call → σ → Prop}
    (calls : List Call) (hstep : ∀ done c rest s, calls = done ++ c :: rest → I done s →
      Ends (step c) s (fun _ => I (done ++ [c])) (I (done ++ [c]))) (s : σ) (h : I [] s) :
    I calls (finish step s calls) := by
  have hfrom : ∀ rest done s, calls = done ++ rest → I done s → I calls (finish step s rest) := by
    intro rest
    induction rest with
    | nil =>
        intro done s heq h
        rwa [heq, List.append_nil]
    | cons c rest ih =>
        intro done s heq h
        have hafter : I (done ++ [c]) (event step s c).after :=
          (hstep done c rest s heq h).leftState
        exact ih (done ++ [c]) _ (by simpa using heq) hafter
  exact hfrom calls [] s rfl h

end Lib
