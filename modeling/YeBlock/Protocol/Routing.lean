import Mathlib.Data.String.Basic
import YeBlock.Lib.Dict
import YeBlock.Lib.Raise
import YeBlock.Lib.Rescale
import YeBlock.Protocol.EconomicSecurity

/-!
# Reputation-weighted, latency-aware routing

A request is routed to a shard of operators.  Eligibility filters the offered list, the
eligible pool is scored, with price and latency normalized within the pool, and the
best operators form the shard, as many as the workload's economics recommend.

The source normalizes by a minimum and a maximum that raise on an empty list, and
divides by their difference.  `scoreOperators_eq` shows that neither can go wrong: the
scores are a function `poolScore` of the pool and the operator, and the result is the
scored pool in its order.

## Main definitions

* `Operator`, `RoutingRequest`, `RoutingWeights`, `RoutingDecision` — the source's types.
* `eligible`, `normalize`, `scoreOperators`, `route` — the routing algorithm.
* `eligiblePool`, `poolScore` — what the scores are a function of.
* `scoreOperators_eq`, `route_eq` — what the algorithm returns.
-/

namespace YeBlock

open Lib

structure Operator where
  identity : Identity
  reputation : ℚ
  pricePer1kTokens : ℚ
  estLatencyMs : ℚ
  stake : ℚ
  vramGb : ℤ
  hasTee : Bool := false
  region : String := "unknown"
  deriving DecidableEq

structure RoutingRequest where
  minVramGb : ℤ
  workload : WorkloadEconomics
  confidential : Bool := false
  preferredRegion : Option String := none
  stakeFloor : ℚ := 0

structure RoutingWeights where
  reputation : ℚ := 1 / 2
  price : ℚ := 3 / 10
  latency : ℚ := 1 / 5

/-- A routing decision: the chosen operators, best first, the redundancy asked for, and
the reason for every rejected identity. -/
structure RoutingDecision where
  shard : List Operator := []
  redundancy : ℕ := 1
  rejected : Dict Identity String := ∅
  deriving DecidableEq

/-- The reason for which an operator is not eligible, if there is one. -/
def eligible (op : Operator) (req : RoutingRequest) : Option String :=
  if op.vramGb < req.minVramGb then
    some "insufficient-vram"
  else if op.stake < req.stakeFloor then
    some "below-stake-floor"
  else if req.confidential ∧ ¬ op.hasTee then
    some "tee-required"
  else
    none

/-- `min(values)`. -/
def minOf (values : List ℚ) : Except PyError ℚ :=
  match values.min? with
  | some x => .ok x
  | none => .error (.valueError "min() iterable argument is empty")

/-- `max(values)`. -/
def maxOf (values : List ℚ) : Except PyError ℚ :=
  match values.max? with
  | some x => .ok x
  | none => .error (.valueError "max() iterable argument is empty")

/-- `a / b`. -/
def trueDiv (a b : ℚ) : Except PyError ℚ :=
  if b = 0 then .error (.zeroDivisionError "division by zero") else .ok (a / b)

/-- Min-max normalize to the unit interval; a flat list maps to zeros. -/
def normalize (values : List ℚ) : Except PyError (List ℚ) := do
  let lo ← minOf values
  let hi ← maxOf values
  if hi = lo then
    return List.replicate values.length 0
  else
    let span := hi - lo
    values.mapM fun v => trueDiv (v - lo) span

/-- Whether the co-location bonus applies; an empty preference is none. -/
def colocated (op : Operator) (req : RoutingRequest) : Bool :=
  match req.preferredRegion with
  | some region => region ≠ "" ∧ op.region = region
  | none => false

/-- Score descending, then identity. -/
def scoreKey (t : Operator × ℚ) : ℚ ×ₗ Identity := toLex (-t.2, t.1.identity)

/-- Score the eligible operators, best first. -/
def scoreOperators (operators : List Operator) (req : RoutingRequest)
    (weights : RoutingWeights := {}) : Except PyError (List (Operator × ℚ)) :=
  let eligibleOps := operators.filter fun op => eligible op req = none
  if eligibleOps = [] then
    .ok []
  else do
    let prices ← normalize (eligibleOps.map Operator.pricePer1kTokens)
    let latencies ← normalize (eligibleOps.map Operator.estLatencyMs)
    let scored := (eligibleOps.zip (prices.zip latencies)).map fun (op, priceN, latN) =>
      let score := weights.reputation * op.reputation + weights.price * (1 - priceN) +
        weights.latency * (1 - latN)
      (op, if colocated op req then score + 1 / 20 else score)
    return sortBy scoreKey scored

/-- The full routing decision: a shard sized to the workload's economics. -/
def route (operators : List Operator) (req : RoutingRequest) (weights : RoutingWeights := {})
    (baseAuditProb : ℚ := 3 / 100) : Except PyError RoutingDecision := do
  let rejected := operators.foldl (fun rejected op =>
    match eligible op req with
    | some reason => rejected.set op.identity reason
    | none => rejected) (∅ : Dict Identity String)
  let scored ← scoreOperators operators req weights
  if scored = [] then
    return { rejected }
  else
    let redundancy ← recommendedRedundancy req.workload baseAuditProb
    return { shard := (scored.take redundancy).map Prod.fst, redundancy, rejected }

/-! ## What the scores are a function of -/

/-- The eligible operators among those offered. -/
def eligiblePool (operators : List Operator) (req : RoutingRequest) : List Operator :=
  operators.filter fun op => eligible op req = none

/-- The score of an operator in a pool. -/
def poolScore (pool : List Operator) (req : RoutingRequest) (weights : RoutingWeights)
    (op : Operator) : ℚ :=
  weights.reputation * op.reputation +
      weights.price * (1 - rescaleIn (pool.map Operator.pricePer1kTokens) op.pricePer1kTokens) +
      weights.latency * (1 - rescaleIn (pool.map Operator.estLatencyMs) op.estLatencyMs) +
    if colocated op req then 1 / 20 else 0

/-- The pool with its scores, best first. -/
def scoredPool (pool : List Operator) (req : RoutingRequest) (weights : RoutingWeights) :
    List (Operator × ℚ) :=
  sortBy scoreKey (pool.map fun op => (op, poolScore pool req weights op))

theorem mem_eligiblePool {operators : List Operator} {req : RoutingRequest} {op : Operator} :
    op ∈ eligiblePool operators req ↔ op ∈ operators ∧ eligible op req = none := by
  simp [eligiblePool]

theorem perm_scoredPool (pool : List Operator) (req : RoutingRequest) (weights : RoutingWeights) :
    ((scoredPool pool req weights).map Prod.fst).Perm pool := by
  have h := (perm_sortBy scoreKey (pool.map fun op => (op, poolScore pool req weights op))).map
    Prod.fst
  rwa [map_fst_map_pair] at h

/-- An eligible operator has the memory, the stake and, where it is asked for, the
attested hardware. -/
theorem eligible_eq_none_iff (op : Operator) (req : RoutingRequest) :
    eligible op req = none ↔ req.minVramGb ≤ op.vramGb ∧ req.stakeFloor ≤ op.stake ∧
      (req.confidential = true → op.hasTee = true) := by
  rw [eligible]
  split_ifs with hvram hstake htee
  · simp [hvram]
  · simp [hstake]
  · simp [htee]
  · simp only [true_iff]
    exact ⟨not_lt.mp hvram, not_lt.mp hstake, fun hc => by simpa [hc] using htee⟩

/-! ## The algorithm returns the scored pool -/

/-- **Normalizing never raises** on values there are. -/
theorem normalize_eq {values : List ℚ} (h : values ≠ []) :
    normalize values = .ok (values.map (rescaleIn values)) := by
  simp only [normalize, minOf, maxOf, min?_eq_lowest h, max?_eq_highest h, bind, Except.bind,
    funext (rescaleIn_eq values)]
  by_cases hflat : highest values = lowest values
  · have hzero : rescale (lowest values) (highest values) = fun _ => 0 :=
      funext fun v => if_pos hflat
    rw [if_pos hflat, hzero, List.map_const']
    rfl
  · have hdiv : (fun v => trueDiv (v - lowest values) (highest values - lowest values)) =
        fun v => .ok (rescale (lowest values) (highest values) v) := by
      funext v
      rw [trueDiv, if_neg (sub_ne_zero.mpr hflat), rescale, if_neg hflat]
    rw [if_neg hflat, hdiv]
    exact List.mapM_pure

theorem scoreOperators_eq (operators : List Operator) (req : RoutingRequest)
    (weights : RoutingWeights) :
    scoreOperators operators req weights =
      .ok (scoredPool (eligiblePool operators req) req weights) := by
  have hpool : (operators.filter fun op => eligible op req = none) =
      eligiblePool operators req := rfl
  rw [scoreOperators, hpool]
  generalize eligiblePool operators req = pool
  by_cases hempty : pool = []
  · subst hempty
    rfl
  · have hzip : ∀ f g : Operator → ℚ, pool.zip ((pool.map f).zip (pool.map g)) =
        pool.map fun op => (op, f op, g op) := by
      intro f g
      rw [List.zip_map', List.map_prod_left_eq_zip]
    rw [if_neg hempty, normalize_eq (by simpa using hempty), normalize_eq (by simpa using hempty)]
    simp only [bind, Except.bind, pure, Except.pure, List.map_map, hzip, scoredPool]
    congr 3
    funext op
    simp only [Function.comp_apply, poolScore]
    split <;> simp

/-- The identities turned away, each with its reason. -/
def rejections (operators : List Operator) (req : RoutingRequest) : Dict Identity String :=
  operators.foldl (fun rejected op =>
    match eligible op req with
    | some reason => rejected.set op.identity reason
    | none => rejected) ∅

/-- **The decision**: nothing but the rejections for an empty pool, otherwise the best
of the scored pool, as many as are recommended. -/
theorem route_eq (operators : List Operator) (req : RoutingRequest) (weights : RoutingWeights)
    (baseAuditProb : ℚ) :
    route operators req weights baseAuditProb =
      if eligiblePool operators req = [] then
        .ok { rejected := rejections operators req }
      else
        (recommendedRedundancy req.workload baseAuditProb).map fun k =>
          { shard := ((scoredPool (eligiblePool operators req) req weights).take k).map Prod.fst,
            redundancy := k, rejected := rejections operators req } := by
  have hnil : scoredPool (eligiblePool operators req) req weights = [] ↔
      eligiblePool operators req = [] := by
    have hlen := (perm_scoredPool (eligiblePool operators req) req weights).length_eq
    rw [← List.length_eq_zero_iff, ← List.length_eq_zero_iff, ← hlen, List.length_map]
  rw [route, scoreOperators_eq]
  simp only [bind, Except.bind, pure, Except.pure, hnil]
  split
  · rfl
  · cases recommendedRedundancy req.workload baseAuditProb <;> rfl

/-- Every member of a shard was offered and is eligible. -/
theorem mem_shard_eligible {operators : List Operator} {req : RoutingRequest}
    {weights : RoutingWeights} {baseAuditProb : ℚ} {decision : RoutingDecision}
    (h : route operators req weights baseAuditProb = .ok decision) :
    ∀ op ∈ decision.shard, op ∈ operators ∧ eligible op req = none := by
  intro op hop
  rw [← mem_eligiblePool]
  rw [route_eq] at h
  split at h
  · cases h
    cases hop
  · cases hk : recommendedRedundancy req.workload baseAuditProb with
    | error e =>
        rw [hk] at h
        cases h
    | ok k =>
        rw [hk, Except.map] at h
        cases h
        simp only [List.map_take] at hop
        exact (perm_scoredPool _ req weights).mem_iff.mp (List.mem_of_mem_take hop)

end YeBlock
