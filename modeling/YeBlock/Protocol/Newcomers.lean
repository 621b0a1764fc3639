import YeBlock.Protocol.ShardSelection

/-!
# Newcomers

Prices and latencies are normalized within the eligible pool, so an operator that joins it
may change everybody's score: a newcomer that is cheaper than all others stretches the
scale.  A newcomer whose price and latency lie within the pool's range does not.  It is
scored among the others, the order of the others stays as it was, and of a shard it can
displace one member at most, the last.

## Main definitions

* `WithinRange` — a newcomer that does not move the scale.
* `filter_scoredPool` — the others are scored as before.
* `newcomer_displaces_one` — what becomes of the shard.
-/

namespace YeBlock

open Lib

/-- The price and the latency of `x` lie within the range of the pool. -/
structure WithinRange (pool : List Operator) (x : Operator) : Prop where
  price : ∃ a ∈ pool, ∃ b ∈ pool,
    a.pricePer1kTokens ≤ x.pricePer1kTokens ∧ x.pricePer1kTokens ≤ b.pricePer1kTokens
  latency : ∃ a ∈ pool, ∃ b ∈ pool,
    a.estLatencyMs ≤ x.estLatencyMs ∧ x.estLatencyMs ≤ b.estLatencyMs

/-- A signal of the newcomer within the range of the pool leaves every place as it was. -/
theorem rescaleIn_newcomer {pool : List Operator} {x : Operator} (signal : Operator → ℚ)
    (h : ∃ a ∈ pool, ∃ b ∈ pool, signal a ≤ signal x ∧ signal x ≤ signal b) (v : ℚ) :
    rescaleIn ((x :: pool).map signal) v = rescaleIn (pool.map signal) v := by
  obtain ⟨a, ha, b, hb, hax, hxb⟩ := h
  have hne : pool.map signal ≠ [] := List.ne_nil_of_mem (List.mem_map_of_mem ha)
  have hlow := (lowest_le (List.mem_map_of_mem (f := signal) ha)).trans hax
  have hhigh := hxb.trans (le_highest (List.mem_map_of_mem (f := signal) hb))
  exact rescaleIn_cons_of_mem hne hlow hhigh v

section Newcomer
variable {pool pool' : List Operator} {x : Operator} (hpool : pool'.Perm (x :: pool))
  (hrange : WithinRange pool x)
include hpool hrange

/-- The newcomer changes no score. -/
theorem poolScore_newcomer (req : RoutingRequest) (weights : RoutingWeights) :
    poolScore pool' req weights = poolScore pool req weights := by
  funext op
  simp only [poolScore, rescaleIn_eq_of_perm (hpool.map Operator.pricePer1kTokens),
    rescaleIn_eq_of_perm (hpool.map Operator.estLatencyMs),
    rescaleIn_newcomer Operator.pricePer1kTokens hrange.price,
    rescaleIn_newcomer Operator.estLatencyMs hrange.latency]

/-- **The others are scored as before**, in the same order. -/
theorem filter_scoredPool (req : RoutingRequest) (weights : RoutingWeights)
    (hids : (pool.map Operator.identity).Nodup)
    (hfresh : x.identity ∉ pool.map Operator.identity) :
    (scoredPool pool' req weights).filter (fun t => t.1.identity ≠ x.identity) =
      scoredPool pool req weights := by
  have hothers :
      ((pool.map fun op => (op, poolScore pool req weights op)).filter
        fun t => t.1.identity ≠ x.identity) =
          pool.map fun op => (op, poolScore pool req weights op) := by
    rw [List.filter_eq_self]
    intro t ht
    obtain ⟨op, hop, rfl⟩ := List.mem_map.mp ht
    have hne : op.identity ≠ x.identity := by
      intro heq
      exact hfresh (heq ▸ List.mem_map_of_mem hop)
    simpa using hne
  have hperm : ((scoredPool pool' req weights).filter fun t => t.1.identity ≠ x.identity).Perm
      (scoredPool pool req weights) := by
    have hscored := ((perm_sortBy scoreKey _).trans
      (hpool.map fun op => (op, poolScore pool req weights op))).filter
        fun t => decide (t.1.identity ≠ x.identity)
    rw [List.map_cons, List.filter_cons_of_neg (by simp), hothers] at hscored
    rw [scoredPool, poolScore_newcomer hpool hrange]
    exact hscored.trans (perm_sortBy _ _).symm
  have hsorted := (pairwise_sortBy scoreKey (pool'.map fun op =>
    (op, poolScore pool' req weights op))).filter fun t => decide (t.1.identity ≠ x.identity)
  refine List.Perm.eq_of_pairwise ?_ hsorted (pairwise_sortBy scoreKey _) hperm
  intro a b ha hb hab hba
  obtain ⟨op, hop, rfl⟩ := List.mem_map.mp (mem_sortBy.mp (hperm.mem_iff.mp ha))
  obtain ⟨op', hop', rfl⟩ := List.mem_map.mp (mem_sortBy.mp hb)
  have hid : op.identity = op'.identity :=
    congrArg (fun k => (ofLex k).2) (le_antisymm hab hba)
  rw [List.inj_on_of_nodup_map hids hop hop' hid]

end Newcomer

/-- The eligible pool with an eligible operator more. -/
theorem perm_eligiblePool_newcomer {x : Operator} {req : RoutingRequest}
    (hx : eligible x req = none) (before after : List Operator) :
    (eligiblePool (before ++ x :: after) req).Perm
      (x :: eligiblePool (before ++ after) req) := by
  simp only [eligiblePool, List.filter_append]
  rw [List.filter_cons_of_pos (by simp [hx])]
  exact List.perm_middle

/-- An eligible operator adds no rejection. -/
theorem rejections_newcomer {x : Operator} {req : RoutingRequest}
    (hx : eligible x req = none) (before after : List Operator) :
    rejections (before ++ x :: after) req = rejections (before ++ after) req := by
  simp only [rejections, List.foldl_append, List.foldl_cons, hx]

/-- The decision on a pool that is not empty. -/
theorem exists_redundancy_of_route {operators : List Operator} {req : RoutingRequest}
    {weights : RoutingWeights} {base : ℚ} {decision : RoutingDecision}
    (hne : eligiblePool operators req ≠ []) (h : route operators req weights base = .ok decision) :
    ∃ k, recommendedRedundancy req.workload base = .ok k ∧ decision =
      { shard := ((scoredPool (eligiblePool operators req) req weights).take k).map Prod.fst,
        redundancy := k, rejected := rejections operators req } := by
  rw [route_eq, if_neg hne] at h
  cases hk : recommendedRedundancy req.workload base with
  | error e =>
      rw [hk] at h
      cases h
  | ok k =>
      rw [hk] at h
      cases h
      exact ⟨k, rfl, rfl⟩

/-- **A newcomer displaces one member at most**: if an eligible operator joins whose price
and latency lie within the range of the eligible pool, the redundancy and the rejections stay
as they were, and of the old shard all stay, in the old order, but for the last at most. -/
theorem newcomer_displaces_one (before after : List Operator) (x : Operator)
    (req : RoutingRequest) (weights : RoutingWeights) (base : ℚ)
    (hids : ((before ++ after).map Operator.identity).Nodup)
    (hfresh : x.identity ∉ (before ++ after).map Operator.identity)
    (hx : eligible x req = none) (hrange : WithinRange (eligiblePool (before ++ after) req) x)
    (decision decision' : RoutingDecision)
    (h : route (before ++ after) req weights base = .ok decision)
    (h' : route (before ++ x :: after) req weights base = .ok decision') :
    decision'.redundancy = decision.redundancy ∧ decision'.rejected = decision.rejected ∧
      decision'.shard.filter (fun op => op.identity ≠ x.identity) <+: decision.shard ∧
      decision.shard.length ≤
        (decision'.shard.filter fun op => op.identity ≠ x.identity).length + 1 := by
  have hperm := perm_eligiblePool_newcomer hx before after
  have hpoolids := nodup_identity_eligiblePool hids req
  have hpoolfresh : x.identity ∉ (eligiblePool (before ++ after) req).map Operator.identity :=
    fun hmem => hfresh ((List.filter_sublist.map _).subset hmem)
  obtain ⟨a, ha, _⟩ := hrange.price
  obtain ⟨k, hk, rfl⟩ := exists_redundancy_of_route (List.ne_nil_of_mem ha) h
  obtain ⟨k', hk', rfl⟩ := exists_redundancy_of_route
    (List.ne_nil_of_mem (hperm.mem_iff.mpr List.mem_cons_self)) h'
  obtain rfl : k = k' := Except.ok.inj (hk.symm.trans hk')
  have hothers := filter_scoredPool hperm hrange req weights hpoolids hpoolfresh
  have hlength : (scoredPool (eligiblePool (before ++ x :: after) req) req weights).length =
      (scoredPool (eligiblePool (before ++ after) req) req weights).length + 1 := by
    simp [scoredPool, hperm.length_eq]
  rw [← hothers] at hlength
  obtain ⟨hbegins, hshort⟩ := filter_take_prefix
    (fun t : Operator × ℚ => decide (t.1.identity ≠ x.identity)) hlength k
  rw [hothers] at hbegins hshort
  refine ⟨rfl, rejections_newcomer hx before after, ?_, ?_⟩
  · rw [List.filter_map]
    exact hbegins.map Prod.fst
  · rw [List.filter_map, List.length_map, List.length_map]
    exact hshort

/-- An operator with that quote but for the price. -/
def pricedOperator (identity : Identity) (price : ℚ) : Operator :=
  { twinOperator identity 9 with pricePer1kTokens := price }

/-- Between a cheap and an expensive operator one of a medium price takes the second place. -/
theorem newcomer_displaces_one_priced :
    (2 : ℕ) = 2 ∧ (∅ : Dict Identity String) = ∅ ∧
      [pricedOperator "op-a" 1, pricedOperator "op-c" 2].filter
          (fun op => op.identity ≠ (pricedOperator "op-c" 2).identity) <+:
        [pricedOperator "op-a" 1, pricedOperator "op-b" 3] ∧
      [pricedOperator "op-a" 1, pricedOperator "op-b" 3].length ≤
        ([pricedOperator "op-a" 1, pricedOperator "op-c" 2].filter
          fun op => op.identity ≠ (pricedOperator "op-c" 2).identity).length + 1 :=
  newcomer_displaces_one [pricedOperator "op-a" 1] [pricedOperator "op-b" 3]
    (pricedOperator "op-c" 2) (valuableRequest 9) {} (3 / 100) (by decide) (by decide)
    (by decide +kernel)
    ⟨⟨pricedOperator "op-a" 1, by decide +kernel, pricedOperator "op-b" 3, by decide +kernel,
        by decide +kernel⟩,
      ⟨pricedOperator "op-a" 1, by decide +kernel, pricedOperator "op-b" 3, by decide +kernel,
        by decide +kernel⟩⟩
    { shard := [pricedOperator "op-a" 1, pricedOperator "op-b" 3], redundancy := 2 }
    { shard := [pricedOperator "op-a" 1, pricedOperator "op-c" 2], redundancy := 2 }
    (by decide +kernel) (by decide +kernel)

end YeBlock
