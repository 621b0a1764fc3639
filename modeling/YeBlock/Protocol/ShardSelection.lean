import YeBlock.Lib.Ranking
import YeBlock.Protocol.RoutedShards

/-!
# Which operators a shard is made of

A shard is the best of the eligible entries, as many as are asked for and available.
Entries are counted as they were offered, so a list may name one operator twice, with
two quotes.  Nothing in the routing looks for that, and which entries win a place is a
matter of scores, which may be rounded.  In whatever arithmetic they are computed, a shard
consists of different operators when entries of one identity are all eligible or all turned
away and, where a second opinion is asked for, no two eligible ones carry one identity.

## Main definitions

* `BestShard` — what a decision says about its shard.
* `route_bestShard` — every decision says so.
* `DistinctReplicas` — no operator is cross-checked with itself, or turned away.
* `RouteArithmetic` — what the routing leaves to arithmetic.
* `RepeatsHarmless` — the repetitions that an offered list may have.
* `RouteArithmetic.distinct_replicas` — when the replicas of a decision are distinct.
-/

namespace YeBlock

open Lib

/-- One scored entry is ahead of another: a higher score, then a smaller identity. -/
def Precedes (a b : Operator × ℚ) : Prop :=
  b.2 < a.2 ∨ a.2 = b.2 ∧ a.1.identity < b.1.identity

theorem precedes_iff (a b : Operator × ℚ) : Precedes a b ↔ scoreKey a < scoreKey b := by
  rw [Precedes, scoreKey, scoreKey, Prod.Lex.toLex_lt_toLex]
  simp only [neg_lt_neg_iff, neg_inj]

/-- What a decision says about its shard where `k` replicas are asked for. -/
structure BestShard (operators : List Operator) (req : RoutingRequest) (weights : RoutingWeights)
    (k : ℕ) (decision : RoutingDecision) : Prop where
  length_shard : decision.shard.length = min k (eligiblePool operators req).length
  requirements : ∀ op ∈ decision.shard, req.minVramGb ≤ op.vramGb ∧ req.stakeFloor ≤ op.stake ∧
    (req.confidential = true → op.hasTee = true)
  best : ∃ scored chosen left : List (Operator × ℚ),
    scoreOperators operators req weights = .ok scored ∧
    (scored.map Prod.fst).Perm (eligiblePool operators req) ∧ (chosen ++ left).Perm scored ∧
    decision.shard = chosen.map Prod.fst ∧ ∀ a ∈ left, ∀ b ∈ chosen, ¬ Precedes a b
  rejected : ∀ id, id ∈ decision.rejected.keys ↔
    ∃ op ∈ operators, eligible op req ≠ none ∧ op.identity = id
  underProvisioned : decision.shard.length < decision.redundancy ↔
    (eligiblePool operators req).length < k

/-! ## The rejections -/

/-- One more operator offered. -/
theorem mem_keys_reject (rejected : Dict Identity String) (op : Operator) (req : RoutingRequest)
    (id : Identity) :
    id ∈ (match eligible op req with
      | some reason => rejected.set op.identity reason
      | none => rejected).keys ↔
      id ∈ rejected.keys ∨ eligible op req ≠ none ∧ op.identity = id := by
  cases eligible op req with
  | none => simp
  | some reason => simp [Dict.mem_keys_set, or_comm, eq_comm]

/-- The rejections name exactly the identities of the operators that are not eligible. -/
theorem mem_keys_rejections (operators : List Operator) (req : RoutingRequest) (id : Identity) :
    id ∈ (rejections operators req).keys ↔
      ∃ op ∈ operators, eligible op req ≠ none ∧ op.identity = id := by
  rw [rejections]
  -- the accumulator adds its own keys to those of the rest of the list
  suffices h : ∀ rejected : Dict Identity String,
      id ∈ (operators.foldl (fun rejected op =>
        match eligible op req with
        | some reason => rejected.set op.identity reason
        | none => rejected) rejected).keys ↔
        id ∈ rejected.keys ∨ ∃ op ∈ operators, eligible op req ≠ none ∧ op.identity = id by
    refine (h ∅).trans ?_
    simp
  induction operators with
  | nil => simp
  | cons op operators ih =>
      intro rejected
      rw [List.foldl_cons, ih, mem_keys_reject, or_assoc, List.exists_mem_cons_iff]

/-! ## The best of the pool -/

section Best
variable (operators : List Operator) (req : RoutingRequest) (weights : RoutingWeights)

/-- No entry left out of the first `k` is ahead of one of them. -/
theorem not_precedes_of_take_drop (k : ℕ) {a b : Operator × ℚ}
    (ha : a ∈ (scoredPool (eligiblePool operators req) req weights).drop k)
    (hb : b ∈ (scoredPool (eligiblePool operators req) req weights).take k) :
    ¬ Precedes a b := by
  have hsorted := pairwise_sortBy scoreKey ((eligiblePool operators req).map fun op =>
    (op, poolScore (eligiblePool operators req) req weights op))
  rw [← List.take_append_drop k (sortBy _ _), List.pairwise_append] at hsorted
  rw [precedes_iff]
  exact (hsorted.2.2 b hb a ha).not_gt

variable {operators req weights} {base : ℚ} (hbase : 0 ≤ base ∧ base ≤ 1)
include hbase

/-- The economics ask for one replica at least. -/
theorem exists_redundancy (w : WorkloadEconomics) :
    ∃ k, recommendedRedundancy w base = .ok k ∧ 1 ≤ k := by
  have hq : (0 : ℚ) ≤ 1 / 10 ∧ (1 / 10 : ℚ) ≤ 1 := by norm_num
  have hmax : 1 ≤ 5 := by omega
  obtain ⟨k, hk, hleast⟩ := recommendedRedundancy_reaches w hbase hq hmax
  exact ⟨k, hk, ((isLeastUpTo_iff hmax).mp hleast).1⟩

/-- **The shard is the best available**: as many of the eligible entries as are asked
for, none of those left out ahead of one of them, and a shard that falls short of the
redundancy shows that there are too few. -/
theorem route_bestShard : ∃ k decision, recommendedRedundancy req.workload base = .ok k ∧
    route operators req weights base = .ok decision ∧
      BestShard operators req weights k decision := by
  obtain ⟨k, hk, hone⟩ := exists_redundancy hbase req.workload
  have hperm := perm_scoredPool (eligiblePool operators req) req weights
  have hlength : (scoredPool (eligiblePool operators req) req weights).length =
      (eligiblePool operators req).length := by simpa using hperm.length_eq
  have hroute := route_eq operators req weights base
  by_cases hempty : eligiblePool operators req = []
  · rw [if_pos hempty] at hroute
    refine ⟨k, _, hk, hroute, ?_⟩
    constructor
    · simp [hempty]
    · intro op hop
      cases hop
    · exact ⟨_, [], [], scoreOperators_eq operators req weights, hperm, by simp [hempty, scoredPool,
        sortBy], rfl, by simp⟩
    · exact mem_keys_rejections operators req
    · rw [hempty]
      change 0 < 1 ↔ 0 < k
      omega
  · rw [if_neg hempty, hk] at hroute
    refine ⟨k, _, hk, hroute, ?_⟩
    constructor
    · simp [hlength]
    · intro op hop
      exact (eligible_eq_none_iff op req).mp (mem_shard_eligible hroute op hop).2
    · refine ⟨_, _, (scoredPool (eligiblePool operators req) req weights).drop k,
        scoreOperators_eq operators req weights, hperm, ?_, rfl, ?_⟩
      · exact List.Perm.of_eq (List.take_append_drop k _)
      · intro a ha b hb
        exact not_precedes_of_take_drop operators req weights k ha hb
    · exact mem_keys_rejections operators req
    · simp only [List.length_map, List.length_take, hlength]
      omega

end Best

theorem twinOperators_bestShard :
    ∃ k decision, recommendedRedundancy (valuableRequest 9).workload (3 / 100) = .ok k ∧
      route (twinOperators 9) (valuableRequest 9) {} (3 / 100) = .ok decision ∧
        BestShard (twinOperators 9) (valuableRequest 9) {} k decision := by
  have hbase : (0 : ℚ) ≤ 3 / 100 ∧ (3 / 100 : ℚ) ≤ 1 := by norm_num
  exact route_bestShard hbase

/-! ## Distinct replicas -/

/-- Every replica of the shard is an operator of its own, and none was turned away. -/
def DistinctReplicas (decision : RoutingDecision) : Prop :=
  (decision.shard.map Operator.identity).Nodup ∧
    ∀ op ∈ decision.shard, op.identity ∉ decision.rejected.keys

/-- What the routing leaves to arithmetic: the order the scores put the eligible entries in,
and how many replicas the economics recommend.  Nothing is assumed of the numbers, rounded or
exact, but that sorting permutes the entries and that one replica is recommended at least. -/
structure RouteArithmetic where
  ranked : List Operator → RoutingRequest → RoutingWeights → List Operator
  redundancy : WorkloadEconomics → ℚ → Except PyError ℕ
  perm_ranked : ∀ pool req weights, (ranked pool req weights).Perm pool
  one_le : ∀ w base k, redundancy w base = .ok k → 1 ≤ k

/-- The routing decision in an arithmetic: `route`, with the scored operators and the
recommended redundancy those of the arithmetic. -/
def RouteArithmetic.route (A : RouteArithmetic) (operators : List Operator) (req : RoutingRequest)
    (weights : RoutingWeights := {}) (baseAuditProb : ℚ := 3 / 100) :
    Except PyError RoutingDecision := do
  let rejected := rejections operators req
  let scored := A.ranked (eligiblePool operators req) req weights
  if scored = [] then
    return { rejected }
  else
    let redundancy ← A.redundancy req.workload baseAuditProb
    return { shard := scored.take redundancy, redundancy, rejected }

/-- The economics recommend one replica at least, if anything. -/
theorem one_le_of_recommendedRedundancy {w : WorkloadEconomics} {base : ℚ} {k : ℕ}
    (h : recommendedRedundancy w base = .ok k) : 1 ≤ k := by
  by_cases hbase : 0 ≤ base ∧ base ≤ 1
  · obtain ⟨k', hk', hone⟩ := exists_redundancy hbase w
    rw [hk', Except.ok.injEq] at h
    rwa [← h]
  · rw [recommendedRedundancy, checkProb, if_neg hbase] at h
    cases h

/-- The arithmetic of exact rationals. -/
def exactArithmetic : RouteArithmetic where
  ranked pool req weights := (scoredPool pool req weights).map Prod.fst
  redundancy w base := recommendedRedundancy w base
  perm_ranked := perm_scoredPool
  one_le _ _ _ := one_le_of_recommendedRedundancy

theorem route_exactArithmetic (operators : List Operator) (req : RoutingRequest)
    (weights : RoutingWeights) (base : ℚ) :
    exactArithmetic.route operators req weights base = route operators req weights base := by
  have hnil : (scoredPool (eligiblePool operators req) req weights).map Prod.fst = [] ↔
      eligiblePool operators req = [] := by
    have hperm := perm_scoredPool (eligiblePool operators req) req weights
    rw [← List.length_eq_zero_iff, ← List.length_eq_zero_iff, hperm.length_eq]
  rw [route_eq, RouteArithmetic.route]
  simp only [exactArithmetic, hnil, List.map_take]
  split
  · rfl
  · cases recommendedRedundancy req.workload base <;> rfl

/-- The entries that carry one identity are all eligible or none is, and eligible entries
carry identities of their own where two replicas or more are asked for. -/
structure RepeatsHarmless (operators : List Operator) (req : RoutingRequest) (k : ℕ) : Prop where
  together : ∀ a ∈ operators, ∀ b ∈ operators, a.identity = b.identity →
    eligible a req = none → eligible b req = none
  apart : 2 ≤ k → ((eligiblePool operators req).map Operator.identity).Nodup

/-- Operators that are offered once each repeat nothing. -/
theorem repeatsHarmless_of_nodup {operators : List Operator}
    (hids : (operators.map Operator.identity).Nodup) (req : RoutingRequest) (k : ℕ) :
    RepeatsHarmless operators req k := by
  refine ⟨fun a ha b hb hid helig => ?_, fun _ => nodup_identity_eligiblePool hids req⟩
  rwa [← List.inj_on_of_nodup_map hids ha hb hid]

/-- Entries of one identity are treated alike exactly when none that is eligible is turned
away under its identity. -/
theorem together_iff (operators : List Operator) (req : RoutingRequest) :
    (∀ a ∈ operators, ∀ b ∈ operators, a.identity = b.identity →
        eligible a req = none → eligible b req = none) ↔
      ∀ op ∈ eligiblePool operators req, op.identity ∉ (rejections operators req).keys := by
  simp only [mem_eligiblePool, mem_keys_rejections]
  constructor
  · rintro h op ⟨hop, helig⟩ ⟨op', hop', hnot, hid⟩
    exact hnot (h op hop op' hop' hid.symm helig)
  · intro h a ha b hb hid helig
    by_contra hnot
    exact h a ⟨ha, helig⟩ ⟨b, hb, hnot, hid.symm⟩

namespace RouteArithmetic
variable (A : RouteArithmetic) {operators : List Operator} {req : RoutingRequest}
  {weights : RoutingWeights} {base : ℚ}

/-- The replicas of a decision are distinct, if one is made. -/
def Distinct (operators : List Operator) (req : RoutingRequest) (weights : RoutingWeights)
    (base : ℚ) : Prop :=
  ∀ decision, A.route operators req weights base = .ok decision → DistinctReplicas decision

/-- What is distinct in a decision are the first of the ranked entries. -/
theorem distinct_iff {k : ℕ} (hk : A.redundancy req.workload base = .ok k) :
    A.Distinct operators req weights base ↔
      (((A.ranked (eligiblePool operators req) req weights).take k).map Operator.identity).Nodup ∧
        ∀ op ∈ (A.ranked (eligiblePool operators req) req weights).take k,
          op.identity ∉ (rejections operators req).keys := by
  rw [Distinct, RouteArithmetic.route]
  by_cases hempty : A.ranked (eligiblePool operators req) req weights = []
  · simp [hempty, DistinctReplicas, pure, Except.pure]
  · simp [hempty, hk, DistinctReplicas, bind, Except.bind, pure, Except.pure]

/-- Harmless repetitions leave the replicas distinct. -/
theorem distinct_of_repeatsHarmless
    (h : ∀ k, A.redundancy req.workload base = .ok k → RepeatsHarmless operators req k) :
    A.Distinct operators req weights base := by
  have hperm := A.perm_ranked (eligiblePool operators req) req weights
  cases hk : A.redundancy req.workload base with
  | error e =>
      -- the call raises, unless nothing is eligible and the shard is empty
      intro decision hdecision
      simp only [RouteArithmetic.route, hk] at hdecision
      split at hdecision
      · cases hdecision
        exact ⟨List.nodup_nil, by simp⟩
      · cases hdecision
  | ok k =>
      rw [A.distinct_iff hk]
      exact ⟨forall_perm_nodup_take_iff.mpr (h k hk).apart _ hperm,
        (forall_perm_mem_take_iff (A.one_le _ _ _ hk)).mpr
          ((together_iff operators req).mp (h k hk).together) _ hperm⟩

/-- Where there are places for all the eligible entries, only these do. -/
theorem repeatsHarmless_of_distinct {k : ℕ} (hk : A.redundancy req.workload base = .ok k)
    (hall : (eligiblePool operators req).length ≤ k)
    (h : A.Distinct operators req weights base) : RepeatsHarmless operators req k := by
  have hperm := A.perm_ranked (eligiblePool operators req) req weights
  rw [A.distinct_iff hk, List.take_of_length_le (hperm.length_eq.trans_le hall)] at h
  exact ⟨(together_iff operators req).mpr fun op hop => h.2 op (hperm.mem_iff.mpr hop),
    fun _ => ((hperm.map Operator.identity).nodup_iff).mp h.1⟩

/-- The arithmetic, but for one pool that it ranks as given. -/
def rerank (pool order : List Operator) (horder : order.Perm pool) : RouteArithmetic where
  ranked pool' _ _ := if pool' = pool then order else pool'
  redundancy := A.redundancy
  perm_ranked := by
    intro pool' _ _
    split
    · next heq => rwa [heq]
    · exact .refl pool'
  one_le := A.one_le

/-- Whatever the scores are, only harmless repetitions leave the replicas distinct. -/
theorem repeatsHarmless_of_forall_distinct {k : ℕ} (hk : A.redundancy req.workload base = .ok k)
    (h : ∀ A' : RouteArithmetic, A'.redundancy = A.redundancy →
      A'.Distinct operators req weights base) : RepeatsHarmless operators req k := by
  have horders : ∀ order : List Operator, order.Perm (eligiblePool operators req) →
      ((order.take k).map Operator.identity).Nodup ∧
        ∀ op ∈ order.take k, op.identity ∉ (rejections operators req).keys := by
    intro order horder
    have hdistinct := h (A.rerank _ order horder) rfl
    rw [(A.rerank _ order horder).distinct_iff hk] at hdistinct
    simpa only [rerank, ↓reduceIte] using hdistinct
  have hmember := (forall_perm_mem_take_iff (A.one_le _ _ _ hk)).mp fun order horder =>
    (horders order horder).2
  exact ⟨(together_iff operators req).mpr hmember,
    forall_perm_nodup_take_iff.mp fun order horder => (horders order horder).1⟩

/-- **When the replicas are distinct**, in whatever arithmetic the scores are computed: if the
repetitions offered are harmless; only then where all the eligible entries have a place; and
only then, too, if it is to hold whatever the scores come to. -/
theorem distinct_replicas (operators : List Operator) (req : RoutingRequest)
    (weights : RoutingWeights) (base : ℚ) :
    ((∀ k, A.redundancy req.workload base = .ok k → RepeatsHarmless operators req k) →
        A.Distinct operators req weights base) ∧
      ∀ k, A.redundancy req.workload base = .ok k →
        ((eligiblePool operators req).length ≤ k →
          (A.Distinct operators req weights base ↔ RepeatsHarmless operators req k)) ∧
        ((∀ A' : RouteArithmetic, A'.redundancy = A.redundancy →
            A'.Distinct operators req weights base) ↔ RepeatsHarmless operators req k) := by
  have hforced : ∀ {k}, A.redundancy req.workload base = .ok k → RepeatsHarmless operators req k →
      ∀ k', A.redundancy req.workload base = .ok k' → RepeatsHarmless operators req k' := by
    intro k hk h k' hk'
    rwa [← Except.ok.inj (hk.symm.trans hk')]
  refine ⟨A.distinct_of_repeatsHarmless, fun k hk => ⟨fun hall => ⟨?_, ?_⟩, ⟨?_, ?_⟩⟩⟩
  · exact A.repeatsHarmless_of_distinct hk hall
  · intro h
    exact A.distinct_of_repeatsHarmless (hforced hk h)
  · exact A.repeatsHarmless_of_forall_distinct hk
  · intro h A' hsame
    exact A'.distinct_of_repeatsHarmless (hsame ▸ hforced hk h)

end RouteArithmetic

/-- Operators that are offered once each make distinct replicas. -/
theorem distinctReplicas_of_nodup {operators : List Operator} {req : RoutingRequest}
    {weights : RoutingWeights} (hids : (operators.map Operator.identity).Nodup) {base : ℚ}
    {decision : RoutingDecision} (h : route operators req weights base = .ok decision) :
    DistinctReplicas decision := by
  rw [← route_exactArithmetic] at h
  exact exactArithmetic.distinct_of_repeatsHarmless
    (fun k _ => repeatsHarmless_of_nodup hids req k) decision h

/-- One operator that is offered with two quotes. -/
def twoQuotes : List Operator :=
  [twinOperator "op-a" 9, { twinOperator "op-a" 9 with pricePer1kTokens := 3 }]

/-- Both quotes are the shard of a request that asks for two replicas. -/
theorem twoQuotes_not_distinct :
    ¬ ∀ (operators : List Operator) (req : RoutingRequest) (weights : RoutingWeights) (base : ℚ),
      0 ≤ base ∧ base ≤ 1 → ∀ decision, route operators req weights base = .ok decision →
        DistinctReplicas decision := by
  intro h
  have hroute : route twoQuotes (valuableRequest 9) {} (3 / 100) =
      .ok { shard := twoQuotes, redundancy := 2 } := by decide +kernel
  have hbase : (0 : ℚ) ≤ 3 / 100 ∧ (3 / 100 : ℚ) ≤ 1 := by norm_num
  exact absurd (h _ _ _ _ hbase _ hroute).1 (by decide)

end YeBlock
