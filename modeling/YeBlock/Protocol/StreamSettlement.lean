import Mathlib.Algebra.BigOperators.Ring.List
import YeBlock.Protocol.PaymentStream

/-!
# What a payment stream settles

A stream settles every accepted call at its rate, so what it has settled is the rate times
the units it accepted, in however many calls they came.  A rejected call leaves the stream
as it is, open or not, and a closed stream rejects every call.

## Main definitions

* `perform_of_ok`, `perform_of_error` — what a call did, from its outcome.
* `settledTotal_finish`, `returned_stream` — the settled total, and the amounts returned.
* `trace_closed` — the end of a stream.
* `SettlesExactly`, `stream_settlement` — the law of a stream over whole runs.
-/

namespace YeBlock

open Lib PaymentStream StreamCall

/-- A call that returned settled its units. -/
theorem perform_of_ok {c : StreamCall} {s s' : PaymentStream} {amount : ℤ}
    (h : c.perform.run s = .ok amount s') :
    amount = c.units * s.ratePerUnit ∧ s' = c.settled s := by
  rcases c.perform_cases s with ⟨_, _, hok⟩ | ⟨_, msg, herr⟩
  · rw [hok] at h
    cases h
    exact ⟨rfl, rfl⟩
  · rw [herr] at h
    cases h

/-- A call that raised changed nothing. -/
theorem perform_of_error {c : StreamCall} {s s' : PaymentStream} {e : PyError}
    (h : c.perform.run s = .error e s') : s' = s := by
  rcases c.perform_cases s with ⟨_, _, hok⟩ | ⟨_, msg, herr⟩
  · rw [hok] at h
    cases h
  · rw [herr] at h
    cases h
    rfl

/-! ## Totals -/

/-- The books of a run: the rate stays, and the settled total grows by the rate for every
unit accepted. -/
theorem settledTotal_finish (s : PaymentStream) (calls : List StreamCall) :
    (finish perform s calls).ratePerUnit = s.ratePerUnit ∧
      (finish perform s calls).settledTotal =
        s.settledTotal + s.ratePerUnit * ((accepted perform s calls).map StreamCall.units).sum := by
  refine run_induction perform
    (P := fun s' log => s'.ratePerUnit = s.ratePerUnit ∧
      s'.settledTotal = s.settledTotal + s.ratePerUnit * (log.map StreamCall.units).sum)
    ?hok ?herr calls s [] ?hstart
  case hok =>
    intro s' log c amount s'' hs h
    obtain ⟨_, rfl⟩ := perform_of_ok h
    obtain ⟨hrate, htotal⟩ := hs
    refine ⟨hrate, ?_⟩
    simp only [settled, htotal, hrate, List.map_append, List.sum_append, List.map_singleton,
      List.sum_singleton]
    rw [mul_add, add_assoc, mul_comm c.units]
  case herr =>
    intro s' log c e s'' hs h
    rwa [perform_of_error h]
  case hstart => simp

/-- The amounts a run returns are those of its accepted calls. -/
theorem returned_stream (s : PaymentStream) (calls : List StreamCall) :
    returned perform s calls =
      (accepted perform s calls).map fun c => c.units * s.ratePerUnit := by
  induction calls generalizing s with
  | nil => rfl
  | cons c cs ih =>
      cases h : c.perform.run s with
      | ok amount s' =>
          obtain ⟨rfl, rfl⟩ := perform_of_ok h
          rw [returned_cons_of_ok h, accepted_cons_of_ok h, ih, List.map_cons]
          rfl
      | error e s' =>
          obtain rfl := perform_of_error h
          rw [returned_cons_of_error h, accepted_cons_of_error h, ih]

/-! ## Rejected calls, and the end of a stream -/

/-- A rejected call leaves the stream as it is. -/
theorem unchanged_of_rejected {s : PaymentStream} {c : StreamCall}
    (h : (event perform s c).accepted = false) : (event perform s c).after = s := by
  cases hc : c.perform.run s with
  | ok amount s' =>
      rw [(event_of_ok hc).1] at h
      cases h
  | error e s' => rw [(event_of_error hc).2, perform_of_error hc]

/-- An accepted `close` leaves a closed stream. -/
theorem closed_of_accepted {s : PaymentStream} {c : StreamCall} (hcloses : c.closes = true)
    (h : (event perform s c).accepted = true) : (event perform s c).after.isOpen = false := by
  cases hc : c.perform.run s with
  | ok amount s' =>
      rw [(event_of_ok hc).2, (perform_of_ok hc).2]
      simp [settled, hcloses]
  | error e s' =>
      rw [(event_of_error hc).1] at h
      cases h

/-- A closed stream rejects every call. -/
theorem rejected_of_closed {s : PaymentStream} (hclosed : s.isOpen = false) (c : StreamCall) :
    (event perform s c).accepted = false := by
  cases hc : c.perform.run s with
  | ok amount s' =>
      rcases c.perform_cases s with ⟨hopen, _⟩ | ⟨_, msg, herr⟩
      · rw [hclosed] at hopen
        cases hopen
      · rw [herr] at hc
        cases hc
  | error e s' => exact (event_of_error hc).1

/-- **The end of a stream**: once it is closed, every call of a run is rejected and the
stream stays what it was. -/
theorem trace_closed {s : PaymentStream} (hclosed : s.isOpen = false) (calls : List StreamCall) :
    finish perform s calls = s ∧ ∀ e ∈ trace perform s calls, e.accepted = false ∧ e.after = s := by
  induction calls with
  | nil => exact ⟨rfl, by simp [trace]⟩
  | cons c cs ih =>
      have hrejected := rejected_of_closed hclosed c
      have hsame := unchanged_of_rejected hrejected
      rw [finish, trace, hsame, List.forall_mem_cons]
      exact ⟨ih.1, ⟨hrejected, hsame⟩, ih.2⟩

/-! ## The law of a stream -/

/-- What a run on a stream does to it. -/
structure SettlesExactly (s : PaymentStream) (calls : List StreamCall) : Prop where
  settled_eq : (finish perform s calls).settledTotal =
    s.ratePerUnit * ((accepted perform s calls).map StreamCall.units).sum
  returned_eq : (finish perform s calls).settledTotal = (returned perform s calls).sum
  chunking : ∀ calls', ((accepted perform s calls').map StreamCall.units).sum =
      ((accepted perform s calls).map StreamCall.units).sum →
    (finish perform s calls').settledTotal = (finish perform s calls).settledTotal
  rejected_same : ∀ e ∈ trace perform s calls, e.accepted = false → e.after = e.before
  final : ∀ earlier c later, calls = earlier ++ c :: later → c.closes = true →
    (event perform (finish perform s earlier) c).accepted = true →
    finish perform s calls = finish perform s (earlier ++ [c]) ∧
      ∀ e ∈ trace perform (finish perform s (earlier ++ [c])) later,
        e.accepted = false ∧ e.after = finish perform s (earlier ++ [c])

/-- **A stream settles exactly, in any chunks, and for good.**  After every run from a
stream with nothing settled, the settled total is the rate times the units accepted, and
the sum of the amounts returned, so runs that accept as many units settle as much.  A
rejected call changes nothing.  After an accepted `close` every call is rejected, and the
stream stays as the `close` left it. -/
theorem stream_settlement {s : PaymentStream} (hzero : s.settledTotal = 0)
    (calls : List StreamCall) : SettlesExactly s calls := by
  have htotal : ∀ calls, (finish perform s calls).settledTotal =
      s.ratePerUnit * ((accepted perform s calls).map StreamCall.units).sum := by
    intro calls
    rw [(settledTotal_finish s calls).2, hzero, zero_add]
  constructor
  case settled_eq => exact htotal calls
  case returned_eq =>
    rw [htotal, returned_stream, List.sum_map_mul_right, mul_comm]
  case chunking =>
    intro calls' hunits
    rw [htotal, htotal, hunits]
  case rejected_same =>
    intro e he hrejected
    rw [exists_event_of_mem_trace he] at hrejected ⊢
    exact unchanged_of_rejected hrejected
  case final =>
    intro earlier c later hcalls hcloses haccepted
    have hlast : finish perform s (earlier ++ [c]) =
        (event perform (finish perform s earlier) c).after := finish_append s earlier [c]
    have hclosed : (finish perform s (earlier ++ [c])).isOpen = false := by
      rw [hlast]
      exact closed_of_accepted hcloses haccepted
    have hrun : calls = (earlier ++ [c]) ++ later := by simp [hcalls]
    rw [hrun, finish_append]
    exact trace_closed hclosed later

/-- A chunk, the `close` of the walkthrough, and a call that comes too late. -/
theorem stream_settlement_tokens :
    SettlesExactly tokenStream
      [⟨12000, "rcpt-chunk-1", false⟩, ⟨8000, "rcpt-chunk-2", true⟩, ⟨1, "rcpt-late", false⟩] :=
  stream_settlement rfl _

end YeBlock
