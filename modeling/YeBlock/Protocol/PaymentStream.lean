import YeBlock.Basic
import YeBlock.Lib.Trace
import Mathlib.Algebra.Ring.Int.Defs

/-!
# Payment streams

A stream settles the units consumed since its last checkpoint against a receipt;
closing it is a last checkpoint and the end of the stream in one call.  The stream
remembers its settled total and the receipt of its last checkpoint, and no other
receipt.

A call is accepted exactly while the stream is open and the units are not negative.
The receipt plays no part in that, so a run settles no receipt twice exactly when its
caller sends none twice.

## Main definitions

* `PaymentStream.checkpoint`, `PaymentStream.close` — the methods.
* `StreamCall` — one call; `StreamCall.perform` runs it.
* `StreamCall.untilClose calls` — the calls of a run made while the stream is open.
* `accepted_stream` — the accepted calls of a run.
* `receipts_nodup_iff` — when a run settles no receipt twice.
-/

namespace YeBlock

open Lib

/-- What a stream is metered in. -/
inductive StreamUnit
  | tokens
  | seconds
  | joules
  deriving DecidableEq, Repr

/-- A continuously settled channel: value owed is units consumed times the rate. -/
structure PaymentStream where
  streamId : ContentId
  payer : Identity
  payee : Identity
  ratePerUnit : ℤ
  unit : StreamUnit
  isOpen : Bool := true
  settledTotal : ℤ := 0
  lastCheckpointReceipt : Option ContentId := none
  deriving DecidableEq

namespace PaymentStream

/-- A method of a stream. -/
abbrev StreamM := EStateM PyError PaymentStream

/-- Settle the units consumed since the last checkpoint; returns the amount. -/
def checkpoint (unitsConsumed : ℤ) (receipt : ContentId) : StreamM ℤ := do
  let self ← get
  if !self.isOpen then
    throw (.paymentError s!"stream {self.streamId} is closed")
  if unitsConsumed < 0 then
    throw (.paymentError "units consumed cannot be negative")
  let amount := unitsConsumed * self.ratePerUnit
  modify fun self => { self with
    settledTotal := self.settledTotal + amount
    lastCheckpointReceipt := some receipt }
  return amount

/-- Final checkpoint and close in one act. -/
def close (finalUnits : ℤ) (finalReceipt : ContentId) : StreamM ℤ := do
  let amount ← checkpoint finalUnits finalReceipt
  modify fun self => { self with isOpen := false }
  return amount

/-- `checkpoint` is accepted exactly while the stream is open and the units are not
negative; otherwise it raises a `PaymentError` and changes nothing. -/
theorem run_checkpoint (s : PaymentStream) (units : ℤ) (receipt : ContentId) :
    (s.isOpen = true ∧ 0 ≤ units ∧ (checkpoint units receipt).run s =
        .ok (units * s.ratePerUnit) { s with
          settledTotal := s.settledTotal + units * s.ratePerUnit
          lastCheckpointReceipt := some receipt }) ∨
      (¬ (s.isOpen = true ∧ 0 ≤ units) ∧
        ∃ msg, (checkpoint units receipt).run s = .error (.paymentError msg) s) := by
  by_cases hopen : s.isOpen = true
  · have hguard : (!s.isOpen) = false := by simp [hopen]
    by_cases hunits : units < 0
    · refine .inr ⟨by omega, "units consumed cannot be negative", ?_⟩
      simp only [checkpoint, EStateM.run_bind, EStateM.run_get, hguard, hunits]
      rfl
    · refine .inl ⟨hopen, by omega, ?_⟩
      simp only [checkpoint, EStateM.run_bind, EStateM.run_get, hguard, hunits, if_false]
      rfl
  · have hguard : (!s.isOpen) = true := by simp [hopen]
    refine .inr ⟨fun h => hopen h.1, s!"stream {s.streamId} is closed", ?_⟩
    simp only [checkpoint, EStateM.run_bind, EStateM.run_get, hguard]
    rfl

end PaymentStream

open PaymentStream

/-- One call on a stream. -/
structure StreamCall where
  units : ℤ
  receipt : ContentId
  /-- The call is a `close`. -/
  closes : Bool
  deriving DecidableEq

namespace StreamCall

/-- Make the call. -/
def perform (c : StreamCall) : StreamM ℤ :=
  if c.closes then close c.units c.receipt else checkpoint c.units c.receipt

/-- The stream after an accepted call. -/
def settled (c : StreamCall) (s : PaymentStream) : PaymentStream :=
  { s with
    settledTotal := s.settledTotal + c.units * s.ratePerUnit
    lastCheckpointReceipt := some c.receipt
    isOpen := !c.closes }

/-- **What a call can do**: settle its units while the stream is open, or raise a
`PaymentError` and change nothing. -/
theorem perform_cases (c : StreamCall) (s : PaymentStream) :
    (s.isOpen = true ∧ 0 ≤ c.units ∧
        c.perform.run s = .ok (c.units * s.ratePerUnit) (c.settled s)) ∨
      (¬ (s.isOpen = true ∧ 0 ≤ c.units) ∧
        ∃ msg, c.perform.run s = .error (.paymentError msg) s) := by
  rcases run_checkpoint s c.units c.receipt with ⟨hopen, hunits, h⟩ | ⟨hnot, msg, h⟩
  · refine .inl ⟨hopen, hunits, ?_⟩
    cases hclose : c.closes with
    | true =>
        simp only [perform, hclose, if_true, close, settled]
        rw [run_bind_of_ok h]
        rfl
    | false =>
        simp only [perform, hclose, Bool.false_eq_true, if_false, settled]
        rw [h, hopen]
        rfl
  · refine .inr ⟨hnot, msg, ?_⟩
    cases hclose : c.closes with
    | true =>
        simp only [perform, hclose, if_true, close]
        rw [run_bind_of_error h]
    | false => simpa only [perform, hclose, Bool.false_eq_true, if_false] using h

/-- The calls up to and including the first `close` whose units are not negative. -/
def untilClose : List StreamCall → List StreamCall
  | [] => []
  | c :: cs => if c.closes ∧ 0 ≤ c.units then [c] else c :: untilClose cs

end StreamCall

open StreamCall

/-- A closed stream accepts nothing. -/
theorem accepted_closed {s : PaymentStream} (hclosed : s.isOpen = false)
    (calls : List StreamCall) : accepted perform s calls = [] := by
  induction calls with
  | nil => rfl
  | cons c cs ih =>
      rcases c.perform_cases s with ⟨hopen, _⟩ | ⟨_, msg, h⟩
      · rw [hclosed] at hopen
        cases hopen
      · rw [accepted_cons_of_error h, ih]

/-- **The accepted calls of a run** on an open stream are those with non-negative
units, up to the first such `close`. -/
theorem accepted_stream {s : PaymentStream} (hopen : s.isOpen = true) (calls : List StreamCall) :
    accepted perform s calls = (untilClose calls).filter fun c => 0 ≤ c.units := by
  induction calls generalizing s with
  | nil => rfl
  | cons c cs ih =>
      rcases c.perform_cases s with ⟨_, hunits, h⟩ | ⟨hnot, msg, h⟩
      · rw [accepted_cons_of_ok h]
        cases hclose : c.closes with
        | true =>
            rw [accepted_closed (by simp [settled, hclose])]
            simp [untilClose, hclose, hunits]
        | false =>
            rw [ih (by simp [settled, hclose])]
            simp [untilClose, hclose, hunits]
      · have hunits : ¬ 0 ≤ c.units := fun hle => hnot ⟨hopen, hle⟩
        rw [accepted_cons_of_error h, ih hopen]
        simp [untilClose, hunits]

/-- **When a run settles no receipt twice**: exactly when any two calls that are made
while the stream is open, and have non-negative units, carry different receipts. -/
theorem receipts_nodup_iff (s : PaymentStream) (calls : List StreamCall) :
    ((accepted perform s calls).map StreamCall.receipt).Nodup ↔
      (s.isOpen = true → (untilClose calls).Pairwise fun c d =>
        0 ≤ c.units → 0 ≤ d.units → c.receipt ≠ d.receipt) := by
  cases hopen : s.isOpen with
  | false => simp [accepted_closed hopen]
  | true =>
      rw [accepted_stream hopen, List.Nodup, List.pairwise_map, List.pairwise_filter]
      simp

/-- The stream of the walkthrough: 3 units per token. -/
def tokenStream : PaymentStream :=
  { streamId := "stream-1", payer := "agent-buyer", payee := "op-a", ratePerUnit := 3,
    unit := .tokens }

/-- Two checkpoints on one receipt are both accepted. -/
theorem receipt_settled_twice :
    ¬ ∀ (s : PaymentStream) (calls : List StreamCall),
      ((accepted perform s calls).map StreamCall.receipt).Nodup := by
  intro h
  exact absurd (h tokenStream [⟨12000, "rcpt-chunk-1", false⟩, ⟨12000, "rcpt-chunk-1", false⟩])
    (by decide)

end YeBlock
