import YeBlock.Lib.Trace

/-!
# Calls delivered more than once

A sender that gets no answer sends its call again, so an object may be handed a call any
number of times after the first.  This is harmless if a call, once made, is spent: it changes
nothing when made again, in the state it left and in every state that later calls leave.

## Main definitions

* `Delivery sent delivered` — the calls sent, in order, with repetitions.
* `SpentOnce` — a call that was made is spent.
* `SpentOnce.finish_eq` — repetitions change nothing.
-/

namespace Lib

universe u v

variable {ε σ α : Type u} {Call : Type v} {step : Call → EStateM ε σ α}

/-- The calls `sent` are delivered in order, and a call that was delivered may be delivered
again at any time. -/
inductive Delivery : List Call → List Call → Prop
  | nil : Delivery [] []
  | first {sent delivered : List Call} (h : Delivery sent delivered) (c : Call) :
      Delivery (sent ++ [c]) (delivered ++ [c])
  | again {sent delivered : List Call} (h : Delivery sent delivered) {c : Call} (hc : c ∈ sent) :
      Delivery sent (delivered ++ [c])

/-- Calls with `P` are spent by being made: `Spent s c` says that `c` has no effect in the
state `s`, and calls with `P` never change that. -/
structure SpentOnce (step : Call → EStateM ε σ α) (P : Call → Prop) (Spent : σ → Call → Prop) :
    Prop where
  idle : ∀ s c, Spent s c → (event step s c).after = s
  made : ∀ s c, P c → Spent (event step s c).after c
  kept : ∀ s c c', P c' → Spent s c → Spent (event step s c').after c

namespace SpentOnce
variable {P : Call → Prop} {Spent : σ → Call → Prop} (h : SpentOnce step P Spent)
include h

theorem spent_finish {cs : List Call} (hP : ∀ c ∈ cs, P c) {c : Call} :
    ∀ s, Spent s c → Spent (finish step s cs) c := by
  induction cs with
  | nil =>
      intro s hs
      exact hs
  | cons c' cs ih =>
      intro s hs
      refine ih (fun c hc => hP c (List.mem_cons_of_mem c' hc)) _ ?_
      exact h.kept s c c' (hP c' List.mem_cons_self) hs

/-- After a run every call of the run is spent. -/
theorem spent_of_mem {cs : List Call} (hP : ∀ c ∈ cs, P c) {c : Call} (hc : c ∈ cs) :
    ∀ s, Spent (finish step s cs) c := by
  intro s
  obtain ⟨before, after, rfl⟩ := List.append_of_mem hc
  rw [finish_append, finish]
  refine h.spent_finish (fun c' hc' => hP c' (by simp [hc'])) _ ?_
  exact h.made _ c (hP c hc)

/-- **Repetitions change nothing.** -/
theorem finish_eq {sent delivered : List Call} (hdelivery : Delivery sent delivered)
    (hP : ∀ c ∈ sent, P c) (s : σ) : finish step s delivered = finish step s sent := by
  induction hdelivery with
  | nil => rfl
  | first hd c ih =>
      rw [finish_append, finish_append, ih fun c' hc' => hP c' (List.mem_append_left [c] hc')]
  | again hd hc ih =>
      rw [finish_append, ih hP]
      exact h.idle _ _ (h.spent_of_mem hP hc s)

end SpentOnce
end Lib
