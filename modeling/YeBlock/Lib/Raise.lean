import Mathlib.Algebra.BigOperators.Group.List.Basic

/-!
# Calls that may raise

A method that changes an object and may raise is an `EStateM` computation: a
raise keeps whatever had been written by then.  `leftState` is the state such a
call leaves, and a sequence of calls is run one call at a time, by the rule for
the outcome of the first.

The loop rules say that a loop whose body always returns is a plain fold: of the
state for a loop of calls, of the accumulator for a loop that only computes.

## Main definitions

* `leftState r` — the state a call leaves, whether it returned or raised.
* `run_forM_eq_foldl`, `foldlM_eq_foldl` — the loop rules.
-/

namespace Lib

universe u v w

variable {ε σ α β : Type u}

/-- The state a call leaves behind, whether it returned or raised. -/
def leftState : EStateM.Result ε σ α → σ
  | .ok _ s => s
  | .error _ s => s

@[simp] theorem leftState_ok (a : α) (s : σ) :
    leftState (.ok a s : EStateM.Result ε σ α) = s := rfl

@[simp] theorem leftState_error (e : ε) (s : σ) :
    leftState (.error e s : EStateM.Result ε σ α) = s := rfl

/-! ## Sequencing -/

theorem run_bind_of_ok {x : EStateM ε σ α} {s s' : σ} {a : α} (h : x.run s = .ok a s')
    (f : α → EStateM ε σ β) : (x >>= f).run s = (f a).run s' := by
  rw [EStateM.run_bind, h]

theorem run_bind_of_error {x : EStateM ε σ α} {s s' : σ} {e : ε} (h : x.run s = .error e s')
    (f : α → EStateM ε σ β) : (x >>= f).run s = .error e s' := by
  rw [EStateM.run_bind, h]

/-! ## Loops that return -/

/-- A loop whose body returns, in a state that is a function of the old one, is
a fold of that function. -/
theorem run_forM_eq_foldl {γ : Type v} {f : γ → EStateM ε σ PUnit} {g : σ → γ → σ}
    (h : ∀ s c, (f c).run s = .ok ⟨⟩ (g s c)) (l : List γ) :
    ∀ s, (l.forM f).run s = .ok ⟨⟩ (l.foldl g s) := by
  induction l with
  | nil => intro s; rfl
  | cons c l ih =>
      intro s
      change (f c >>= fun _ => l.forM f).run s = _
      rw [run_bind_of_ok (h s c), ih, List.foldl_cons]

/-- A loop whose body always returns, with a value that is a function of the
accumulator and the element, is a fold of that function, in every monad. -/
theorem foldlM_eq_foldl {m : Type w → Type u} [Monad m] [LawfulMonad m] {β : Type w} {γ : Type v}
    {f : β → γ → m β} {g : β → γ → β} (l : List γ) (h : ∀ c ∈ l, ∀ b, f b c = pure (g b c)) :
    ∀ b, l.foldlM f b = pure (l.foldl g b) := by
  induction l with
  | nil => intro b; rfl
  | cons c l ih =>
      intro b
      rw [List.foldlM_cons, h c List.mem_cons_self b, pure_bind]
      exact ih (fun c' hc' => h c' (List.mem_cons_of_mem c hc')) (g b c)

end Lib
