import YeBlock.Lib.Dict
import YeBlock.Lib.Raise
import YeBlock.Protocol.LargestRemainder
import Mathlib.Data.Finset.Basic
import Mathlib.Data.Finset.Dedup
import Mathlib.Data.Finset.Lattice.Lemmas

/-!
# The payment rail: agent wallets and receipt-anchored clearing

A rail clears payments between agents.  Each payment names the receipt that
justifies it, a receipt is good for one payment, and a payer with an owner-set
wallet policy pays within it.  A cleared amount goes to the payee less a fee;
part of the fee is burned and the rest goes to the treasury.

A method of the rail is a call that may raise and keeps whatever it had written
by then.  The methods are translated first; after them comes one description of
each: `_validate` never writes and succeeds exactly on valid payments, and
`_apply` always returns, in the state `Rail.applied`.

## Main definitions

* `WalletPolicy.check` — the violation a payment commits, if any.
* `Rail.validate`, `Rail.apply`, `Rail.clear`, `Rail.clearBatch`, `Rail.setPolicy`
  — the methods.
* `Rail.Valid`, `Rail.BatchValid` — what the validation passes check.
* `Rail.applied`, `Rail.appliedAll` — the state after one leg, or several.
* `Rail.run_validate`, `Rail.run_apply`, `Rail.run_clear`, `Rail.run_clearBatch`
  — what each method does.
-/

namespace YeBlock

open Lib

/-! ## Data -/

/-- Owner-set spending policy for an agent-held wallet.  An empty allowlist
admits any payee. -/
structure WalletPolicy where
  owner : Identity
  agent : Identity
  perCallLimit : ℤ
  dailyLimit : ℤ
  allowlist : Finset Identity := ∅
  revoked : Bool := false
  deriving DecidableEq

/-- An amount to clear and the receipt that justifies it. -/
structure Payment where
  payer : Identity
  payee : Identity
  amount : ℤ
  receipt : ContentId
  deriving DecidableEq

/-- The rail's parameters, policies and books. -/
structure Rail where
  feeBps : ℤ := 30
  burnShareBps : ℤ := 5000
  policies : Dict Identity WalletPolicy := ∅
  spentToday : Dict Identity ℤ := ∅
  usedReceipts : Finset ContentId := ∅
  balances : Dict Identity ℤ := ∅
  burned : ℤ := 0
  treasury : ℤ := 0
  deriving DecidableEq

/-- `none` if the payment is within policy, else the violation. -/
def WalletPolicy.check (self : WalletPolicy) (payee : Identity) (amount spentToday : ℤ) :
    Option String :=
  if self.revoked then
    some "policy-revoked"
  else if amount > self.perCallLimit then
    some "per-call-limit-exceeded"
  else if spentToday + amount > self.dailyLimit then
    some "daily-limit-exceeded"
  else if self.allowlist ≠ ∅ ∧ payee ∉ self.allowlist then
    some "payee-not-allowlisted"
  else
    none

theorem WalletPolicy.check_eq_none_iff (self : WalletPolicy) (payee : Identity)
    (amount spentToday : ℤ) :
    self.check payee amount spentToday = none ↔
      self.revoked = false ∧ amount ≤ self.perCallLimit ∧
        spentToday + amount ≤ self.dailyLimit ∧
        (self.allowlist = ∅ ∨ payee ∈ self.allowlist) := by
  rw [check]
  split_ifs with h₁ h₂ h₃ h₄
  · simp [h₁]
  · simp [h₂]
  · simp [h₃]
  · simp only [false_iff]
    tauto
  · simp only [true_iff]
    exact ⟨by simpa using h₁, not_lt.mp h₂, not_lt.mp h₃, by tauto⟩

namespace Rail

/-! ## The methods -/

/-- A method of the rail: it may raise, and what it wrote before stays written. -/
abbrev RailM := EStateM PyError Rail

def setPolicy (policy : WalletPolicy) : RailM Unit :=
  modify fun self => { self with policies := self.policies.set policy.agent policy }

def validate (p : Payment) : RailM Unit := do
  let self ← get
  if p.amount ≤ 0 then
    throw (.paymentError "amount must be positive")
  if p.receipt ∈ self.usedReceipts then
    throw (.paymentError s!"receipt {p.receipt} already cleared")
  match self.policies.get? p.payer with
  | none => pure ()
  | some policy =>
    match policy.check p.payee p.amount (self.spentToday.getD p.payer 0) with
    | none => pure ()
    | some violation => throw (.paymentError s!"policy violation by {p.payer}: {violation}")

def apply (p : Payment) : RailM Unit := do
  let self ← get
  let (fee, _netCheck) ← MonadExcept.ofExcept
    (largestRemainder p.amount [self.feeBps, basisPoints - self.feeBps] >>= unpackPair)
  let (burn, toTreasury) ← MonadExcept.ofExcept
    (largestRemainder fee [self.burnShareBps, basisPoints - self.burnShareBps] >>= unpackPair)
  let net := p.amount - fee
  modify fun self => { self with
    usedReceipts := insert p.receipt self.usedReceipts
    spentToday := self.spentToday.set p.payer (self.spentToday.getD p.payer 0 + p.amount)
    balances := self.balances.set p.payee (self.balances.getD p.payee 0 + net)
    burned := self.burned + burn
    treasury := self.treasury + toTreasury }

/-- Single payment: validate, then apply. -/
def clear (p : Payment) : RailM Unit := do
  validate p
  apply p

/-- One turn of the pre-validation pass; `seen` holds the receipts of the legs before. -/
def validateLeg (seen : Finset ContentId) (p : Payment) : RailM (Finset ContentId) := do
  validate p
  if p.receipt ∈ seen then
    throw (.paymentError s!"receipt {p.receipt} duplicated within batch")
  return insert p.receipt seen

/-- Multi-leg clearing: every leg validates before any leg applies. -/
def clearBatch (payments : List Payment) : RailM Unit := do
  let _ ← payments.foldlM validateLeg ∅
  payments.forM apply

/-- Every cleared unit is a payee balance, burned, or in the treasury. -/
def conservationCheck (self : Rail) (grossCleared : ℤ) : Bool :=
  self.balances.sum + self.burned + self.treasury = grossCleared

/-! ## What validation checks -/

/-- The payment is positive, its receipt is unused, and it is within the payer's
policy, if the payer has one. -/
structure Valid (r : Rail) (p : Payment) : Prop where
  amount_pos : 0 < p.amount
  receipt_unused : p.receipt ∉ r.usedReceipts
  within_policy : ∀ policy, r.policies.get? p.payer = some policy →
    policy.check p.payee p.amount (r.spentToday.getD p.payer 0) = none

/-- Every leg alone is valid, and the receipts are distinct. -/
structure BatchValid (r : Rail) (payments : List Payment) : Prop where
  legs : ∀ p ∈ payments, r.Valid p
  receipts_nodup : (payments.map Payment.receipt).Nodup

/-- `_validate` never writes; it returns exactly on valid payments and otherwise
raises a `PaymentError`. -/
theorem run_validate (r : Rail) (p : Payment) :
    (r.Valid p ∧ (validate p).run r = .ok () r) ∨
      (¬ r.Valid p ∧ ∃ msg, (validate p).run r = .error (.paymentError msg) r) := by
  by_cases hpos : p.amount ≤ 0
  · exact .inr ⟨fun h => absurd h.amount_pos (not_lt.mpr hpos), _, by simp [validate, hpos]; rfl⟩
  by_cases hused : p.receipt ∈ r.usedReceipts
  · exact .inr ⟨fun h => h.receipt_unused hused, _, by simp [validate, hpos, hused]; rfl⟩
  cases hpol : r.policies.get? p.payer with
  | none =>
      refine .inl ⟨⟨not_le.mp hpos, hused, by simp [hpol]⟩, ?_⟩
      simp [validate, hpos, hused, hpol]
  | some policy =>
      cases hcheck : policy.check p.payee p.amount (r.spentToday.getD p.payer 0) with
      | none =>
          refine .inl ⟨⟨not_le.mp hpos, hused, ?_⟩, ?_⟩
          · rintro _ h
            rwa [← Option.some.inj (hpol.symm.trans h)]
          · simp [validate, hpos, hused, hpol, hcheck]
      | some violation =>
          refine .inr ⟨fun h => ?_, _, by simp [validate, hpos, hused, hpol, hcheck]; rfl⟩
          rw [h.within_policy policy hpol] at hcheck
          cases hcheck

/-! ## What applying does -/

/-- The fee on an amount: `feeBps` of it, rounded half up. -/
def fee (r : Rail) (amount : ℤ) : ℤ := roundHalfUp (amount * r.feeBps) basisPoints

/-- The burned part of the fee on an amount, rounded half up. -/
def burnOf (r : Rail) (amount : ℤ) : ℤ :=
  roundHalfUp (r.fee amount * r.burnShareBps) basisPoints

/-- The rail after one leg. -/
def applied (r : Rail) (p : Payment) : Rail :=
  { r with
    usedReceipts := insert p.receipt r.usedReceipts
    spentToday := r.spentToday.add p.payer p.amount
    balances := r.balances.add p.payee (p.amount - r.fee p.amount)
    burned := r.burned + r.burnOf p.amount
    treasury := r.treasury + (r.fee p.amount - r.burnOf p.amount) }

/-- The rail after several legs, in order. -/
def appliedAll (r : Rail) (payments : List Payment) : Rail := payments.foldl applied r

/-- **`_apply` never raises**, whatever the amount and the parameters. -/
theorem run_apply (r : Rail) (p : Payment) : (apply p).run r = .ok () (r.applied p) := by
  simp only [apply, EStateM.run_bind, EStateM.run_get, largestRemainder_pair]
  rfl

theorem run_forM_apply (r : Rail) (payments : List Payment) :
    (payments.forM apply).run r = .ok () (r.appliedAll payments) :=
  run_forM_eq_foldl run_apply payments r

/-- The legs touch each book separately, and the parameters and policies not at all. -/
theorem appliedAll_eq (r : Rail) (payments : List Payment) :
    r.appliedAll payments =
      { r with
        usedReceipts := r.usedReceipts ∪ (payments.map Payment.receipt).toFinset
        spentToday := r.spentToday.tally (payments.map fun p => (p.payer, p.amount))
        balances := r.balances.tally (payments.map fun p => (p.payee, p.amount - r.fee p.amount))
        burned := r.burned + (payments.map fun p => r.burnOf p.amount).sum
        treasury := r.treasury +
          (payments.map fun p => r.fee p.amount - r.burnOf p.amount).sum } := by
  induction payments generalizing r with
  | nil => simp [appliedAll]
  | cons p ps ih =>
      have hstep : r.appliedAll (p :: ps) = (r.applied p).appliedAll ps := rfl
      rw [hstep, ih]
      simp [applied, fee, burnOf, add_assoc]

section Fields
variable (r : Rail) (payments : List Payment)

@[simp] theorem feeBps_appliedAll : (r.appliedAll payments).feeBps = r.feeBps := by
  rw [appliedAll_eq]

@[simp] theorem burnShareBps_appliedAll :
    (r.appliedAll payments).burnShareBps = r.burnShareBps := by
  rw [appliedAll_eq]

@[simp] theorem policies_appliedAll : (r.appliedAll payments).policies = r.policies := by
  rw [appliedAll_eq]

theorem spentToday_appliedAll : (r.appliedAll payments).spentToday =
    r.spentToday.tally (payments.map fun p => (p.payer, p.amount)) := by
  rw [appliedAll_eq]

theorem usedReceipts_appliedAll : (r.appliedAll payments).usedReceipts =
    r.usedReceipts ∪ (payments.map Payment.receipt).toFinset := by
  rw [appliedAll_eq]

theorem balances_appliedAll : (r.appliedAll payments).balances =
    r.balances.tally (payments.map fun p => (p.payee, p.amount - r.fee p.amount)) := by
  rw [appliedAll_eq]

theorem burned_appliedAll : (r.appliedAll payments).burned =
    r.burned + (payments.map fun p => r.burnOf p.amount).sum := by
  rw [appliedAll_eq]

theorem treasury_appliedAll : (r.appliedAll payments).treasury =
    r.treasury + (payments.map fun p => r.fee p.amount - r.burnOf p.amount).sum := by
  rw [appliedAll_eq]

end Fields

/-! ## The calls -/

/-- **`clear`** either raises a `PaymentError` and changes nothing, or the payment
was valid and is applied. -/
theorem run_clear (r : Rail) (p : Payment) :
    (r.Valid p ∧ (clear p).run r = .ok () (r.applied p)) ∨
      (¬ r.Valid p ∧ ∃ msg, (clear p).run r = .error (.paymentError msg) r) := by
  rcases r.run_validate p with ⟨hv, h⟩ | ⟨hv, msg, h⟩
  · exact .inl ⟨hv, by rw [clear, run_bind_of_ok h, run_apply]⟩
  · exact .inr ⟨hv, msg, by rw [clear, run_bind_of_error h]⟩

/-- One turn of the pre-validation pass. -/
theorem run_validateLeg (r : Rail) (seen : Finset ContentId) (p : Payment) :
    (r.Valid p ∧ p.receipt ∉ seen ∧
        (validateLeg seen p).run r = .ok (insert p.receipt seen) r) ∨
      (¬ (r.Valid p ∧ p.receipt ∉ seen) ∧
        ∃ msg, (validateLeg seen p).run r = .error (.paymentError msg) r) := by
  rcases r.run_validate p with ⟨hv, h⟩ | ⟨hv, msg, h⟩
  · by_cases hseen : p.receipt ∈ seen
    · refine .inr ⟨fun hp => hp.2 hseen, s!"receipt {p.receipt} duplicated within batch", ?_⟩
      rw [validateLeg, run_bind_of_ok h, if_pos hseen]
      rfl
    · refine .inl ⟨hv, hseen, ?_⟩
      rw [validateLeg, run_bind_of_ok h, if_neg hseen]
      rfl
  · exact .inr ⟨fun hp => hv hp.1, msg, by rw [validateLeg, run_bind_of_error h]⟩

/-- A batch leg by leg: the first leg is valid and unseen, and the rest is a valid
batch on receipts that neither were seen before nor are the first leg's. -/
theorem batchValid_cons_iff (r : Rail) (seen : Finset ContentId) (p : Payment)
    (ps : List Payment) :
    (r.BatchValid (p :: ps) ∧ ∀ q ∈ p :: ps, q.receipt ∉ seen) ↔
      (r.Valid p ∧ p.receipt ∉ seen) ∧
        (r.BatchValid ps ∧ ∀ q ∈ ps, q.receipt ∉ insert p.receipt seen) := by
  constructor
  · rintro ⟨⟨hlegs, hnodup⟩, hseen⟩
    rw [List.map_cons, List.nodup_cons] at hnodup
    have hps : ∀ q ∈ ps, q.receipt ∉ insert p.receipt seen := by
      intro q hq
      have hne : q.receipt ≠ p.receipt := by
        intro h
        exact hnodup.1 (h ▸ List.mem_map_of_mem hq)
      simpa [hne] using hseen q (by simp [hq])
    exact ⟨⟨hlegs p (by simp), hseen p (by simp)⟩,
      ⟨fun q hq => hlegs q (by simp [hq]), hnodup.2⟩, hps⟩
  · rintro ⟨⟨hp, hpseen⟩, ⟨hlegs, hnodup⟩, hseen⟩
    have hfresh : p.receipt ∉ ps.map Payment.receipt := by
      intro h
      obtain ⟨q, hq, hqp⟩ := List.mem_map.mp h
      exact hseen q hq (by simp [hqp])
    refine ⟨⟨List.forall_mem_cons.mpr ⟨hp, hlegs⟩, ?_⟩, List.forall_mem_cons.mpr ⟨hpseen, ?_⟩⟩
    · exact List.nodup_cons.mpr ⟨hfresh, hnodup⟩
    · intro q hq h
      exact hseen q hq (by simp [h])

/-- The pre-validation pass: the receipts seen are those of the legs before, so it
returns exactly when every leg is valid and no receipt repeats. -/
theorem run_validateLegs (r : Rail) (payments : List Payment) (seen : Finset ContentId) :
    ((r.BatchValid payments ∧ ∀ p ∈ payments, p.receipt ∉ seen) ∧
        ∃ seen', (payments.foldlM validateLeg seen).run r = .ok seen' r) ∨
      (¬ (r.BatchValid payments ∧ ∀ p ∈ payments, p.receipt ∉ seen) ∧
        ∃ msg, (payments.foldlM validateLeg seen).run r = .error (.paymentError msg) r) := by
  induction payments generalizing seen with
  | nil => exact .inl ⟨⟨⟨by simp, by simp⟩, by simp⟩, seen, rfl⟩
  | cons p ps ih =>
      rw [batchValid_cons_iff, List.foldlM_cons]
      rcases r.run_validateLeg seen p with ⟨hv, hfresh, h⟩ | ⟨hv, msg, h⟩
      · rw [run_bind_of_ok h]
        rcases ih (insert p.receipt seen) with ⟨hps, hrun⟩ | ⟨hps, hrun⟩
        · exact .inl ⟨⟨⟨hv, hfresh⟩, hps⟩, hrun⟩
        · exact .inr ⟨fun hall => hps hall.2, hrun⟩
      · exact .inr ⟨fun hall => hv hall.1, msg, run_bind_of_error h _⟩

/-- **`clear_batch`** either raises a `PaymentError` and changes nothing, or every
leg was valid, the receipts were distinct, and every leg is applied. -/
theorem run_clearBatch (r : Rail) (payments : List Payment) :
    (r.BatchValid payments ∧ (clearBatch payments).run r = .ok () (r.appliedAll payments)) ∨
      (¬ r.BatchValid payments ∧
        ∃ msg, (clearBatch payments).run r = .error (.paymentError msg) r) := by
  rcases r.run_validateLegs payments ∅ with ⟨hv, seen, h⟩ | ⟨hv, msg, h⟩
  · exact .inl ⟨hv.1, by rw [clearBatch, run_bind_of_ok h, run_forM_apply]⟩
  · refine .inr ⟨fun hb => hv ⟨hb, by simp⟩, msg, ?_⟩
    rw [clearBatch, run_bind_of_error h]

end Rail
end YeBlock
