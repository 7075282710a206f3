import ParallelJoin.Optimal

/-!
# The search over all workers

`parallel_join_search` (`allpaths.c:734-790`) runs the worker with `part_id = i` for every
`i < n_workers` and merges their relations.

* With `W = 2^k` workers the constraints split the plans of either shape among the workers:
  an order respects the constraints of exactly one `part_id` (`existsUnique_respects`, given
  `2k ≤ N`), a tree is admissible under those of at least one (`exists_nodesAdmissible`). The
  cheapest worker is then as cheap as the one worker of `W = 1`, which has no constraints.
* For `W` not a power of two some orientations of the groups are never assigned, and the plans
  that need them are searched by no worker (`parallelJoinSearch_three_workers`).
* The merge compares each worker with worker 0 only (`mergeOutputs_eq`); with at most two
  workers it keeps the cheapest, and nothing is said here of more.

* The worker allocates its table only up to 26 relations (`tableAllocOk_iff`), so the results
  are for `N ≤ 26`.

Results:
* `parallelJoinSearch_minCost`: for `W = 2^k`, every worker returns a relation, the least of
  their costs is the least cost over all plans of the shape, and so is the cost the search
  returns for `W ≤ 2`.
* `parallelJoinSearch_three_workers`: three workers on four relations miss the cheapest order.
-/

namespace ParallelJoin

variable {R C : Type} [LinearOrder C]

/-- The trees of a `p_type`'s shape: left-deep for 2, any for 3. -/
def Shape : PType → JoinTree → Prop
  | .leftDeep, t => t.isLeftDeep
  | .bushy, _ => True

/-- The trees the worker with `part_id = p` of `n_workers = W` searches. -/
def Searches : PType → Nat → Nat → Nat → JoinTree → Prop
  | .leftDeep, N, p, W, t => t.isLeftDeep ∧ Respects t.leaves (partConstraints N p W)
  | .bushy, N, p, W, t => NodesAdmissible (partConstraintsB N p W) t

theorem searches_shape {pType : PType} {N p W : Nat} {t : JoinTree} (h : Searches pType N p W t) :
    Shape pType t := by
  cases pType
  exacts [h.1, trivial]

/-- One worker has no constraints. -/
theorem searches_one {pType : PType} {N p : Nat} {t : JoinTree} (h : Shape pType t) :
    Searches pType N p 1 t := by
  cases pType
  exacts [⟨h, fun c hc => absurd hc (List.not_mem_nil c)⟩,
    fun X _ c hc => absurd hc (List.not_mem_nil c)]

/-- **Coverage**: with `2^k` workers some worker searches each tree of the shape. -/
theorem exists_searches {pType : PType} {N k : Nat} {t : JoinTree}
    (hN : pType = .leftDeep ∧ 2 ∣ N ∧ 2 ≤ N ∧ 2 * k ≤ N ∨ pType = .bushy ∧ 3 ∣ N ∧ 0 < N)
    (hperm : t.leaves.Perm (List.range N)) (ht : Shape pType t) :
    ∃ p < 2 ^ k, Searches pType N p (2 ^ k) t := by
  rcases hN with ⟨rfl, -, -, hk⟩ | ⟨rfl, -, -⟩
  · obtain ⟨p, ⟨hp, hr⟩, -⟩ := existsUnique_respects hk hperm
    exact ⟨p, hp, ht, hr⟩
  · exact exists_nodesAdmissible N k (hperm.nodup_iff.mpr (List.nodup_range N))

theorem IsMinCost.of_iff {o : Oracle R C} {N : Nat} {rels : List R} {A A' : JoinTree → Prop}
    {c : C} (h : IsMinCost o N rels A c) (hA : ∀ t, A t ↔ A' t) : IsMinCost o N rels A' c :=
  ⟨fun t hp ht => h.le_plan t hp ((hA t).mpr ht),
    let ⟨t, y, hp, ht, hy, hc⟩ := h.attained; ⟨t, y, hp, (hA t).mp ht, hy, hc⟩⟩

/-- A worker's relation costs at least the least cost over all plans of its shape. -/
theorem IsMinCost.le_of_searches {o : Oracle R C} {pType : PType} {N p W : Nat} {rels : List R}
    {c c' : C} (hmin : IsMinCost o N rels (Shape pType) c)
    (h : IsMinCost o N rels (Searches pType N p W) c') : c ≤ c' := by
  obtain ⟨t, y, hperm, ht, hy, rfl⟩ := h.attained
  obtain ⟨y', hy', hle⟩ := hmin.le_plan t hperm (searches_shape ht)
  exact (Option.some.inj (hy'.symm.trans hy)) ▸ hle

variable (o : Oracle R C)

/-- Every worker of `2^k` is optimal over the trees it searches. -/
theorem worker_minCost (pType : PType) (N k p : Nat) (rels : List R)
    (hN : pType = .leftDeep ∧ 2 ∣ N ∧ 2 ≤ N ∧ 2 * k ≤ N ∨ pType = .bushy ∧ 3 ∣ N ∧ 0 < N)
    (hfit : N ≤ 26) (hlen : rels.length = N) (hdisj : o.DisjointRels rels) (hacc : o.AcceptsDisjoint)
    (hmono : o.CostMonotone) :
    ∃ r, worker o pType N p (2 ^ k) rels = .ok r ∧
      IsMinCost o N rels (Searches pType N p (2 ^ k)) (o.totalCost r) := by
  rcases hN with ⟨rfl, hN, h2, hk⟩ | ⟨rfl, hN, hpos⟩
  · exact worker_leftDeep_minCost o N p _ rels hN h2 hfit
      (by rwa [Nat.clog_pow 2 k Nat.one_lt_two]) hlen hdisj hacc hmono
  · exact worker_bushy_minCost o N p _ rels hN hpos hfit hlen hdisj hacc hmono

/-! ## The orchestrator with one or two workers -/

variable {o}

theorem parallelJoinSearch_one {S : Type} (root : S) {pType : PType} {N : Nat} {rels : List R}
    {r : R} (hN : 1 ≤ N) (h : worker o pType N 0 1 rels = .ok r) :
    parallelJoinSearch o root N rels 1 pType = .ok (r, root) := by
  rw [parallelJoinSearch_of_le o root hN, runWorkers, show List.range 1 = [0] from rfl,
    List.mapM_cons, List.mapM_nil, h]
  rfl

theorem parallelJoinSearch_two {S : Type} (root : S) {pType : PType} {N : Nat} {rels : List R}
    {r0 r1 : R} (hN : 2 ≤ N) (h0 : worker o pType N 0 2 rels = .ok r0)
    (h1 : worker o pType N 1 2 rels = .ok r1) :
    parallelJoinSearch o root N rels 2 pType =
      .ok (mergeOutputs o.totalCost ⟨root, r0⟩ [⟨root, r1⟩]) := by
  rw [parallelJoinSearch_of_le o root hN, runWorkers, show List.range 2 = [0, 1] from rfl,
    List.mapM_cons, List.mapM_cons, List.mapM_nil, h0, h1]
  rfl

/-- A merge of at most two workers, all at least `m` and one at `m`, returns cost `m`. -/
theorem mergeOutputs_cost_eq {S : Type} (cost : R → C) {m : C} (best : WorkerOutput R S)
    (rest : List (WorkerOutput R S)) (hlen : rest.length ≤ 1)
    (hge : ∀ w ∈ best :: rest, m ≤ cost w.optimal) (hex : ∃ w ∈ best :: rest, cost w.optimal = m) :
    cost (mergeOutputs cost best rest).1 = m := by
  obtain ⟨hle, w0, hw0, heq⟩ := mergeOutputs_of_length_le_one cost best rest hlen
  obtain ⟨w, hw, hc⟩ := hex
  exact le_antisymm (hc ▸ hle w hw) (heq ▸ hge w0 hw0)

/-! ## The search -/

/-- **The search with `2^k` workers.** For left-deep plans over an even `N ≥ 2` with `2k ≤ N`,
or bushy plans over a positive multiple `N` of 3, with `N ≤ 26`, relations with disjoint relids, and an
oracle that accepts disjoint pairs at a cost monotone in its inputs': the search with one
worker returns a relation of least cost over all plans of the shape; each of the `2^k`
workers returns a relation at least as dear, and one of them one as cheap; with one or two
workers the search returns one as cheap. -/
theorem parallelJoinSearch_minCost {S : Type} (o : Oracle R C) (root : S) (pType : PType)
    (N k : Nat) (rels : List R)
    (hN : pType = .leftDeep ∧ 2 ∣ N ∧ 2 ≤ N ∧ 2 * k ≤ N ∨ pType = .bushy ∧ 3 ∣ N ∧ 0 < N)
    (hfit : N ≤ 26) (hlen : rels.length = N) (hdisj : o.DisjointRels rels)
    (hacc : o.AcceptsDisjoint) (hmono : o.CostMonotone) :
    ∃ r1, parallelJoinSearch o root N rels 1 pType = .ok r1 ∧
      IsMinCost o N rels (Shape pType) (o.totalCost r1.1) ∧
      (∀ p < 2 ^ k, ∃ r, worker o pType N p (2 ^ k) rels = .ok r ∧
        o.totalCost r1.1 ≤ o.totalCost r) ∧
      (∃ p < 2 ^ k, ∃ r, worker o pType N p (2 ^ k) rels = .ok r ∧
        o.totalCost r = o.totalCost r1.1) ∧
      (k ≤ 1 → ∃ r, parallelJoinSearch o root N rels (2 ^ k) pType = .ok r ∧
        o.totalCost r.1 = o.totalCost r1.1) := by
  have hwork := fun p => worker_minCost o pType N k p rels hN hfit hlen hdisj hacc hmono
  -- the one worker of `W = 1`
  obtain ⟨r1, hr1, hmin1⟩ := worker_minCost o pType N 0 0 rels
    (hN.imp (fun ⟨h, h', h'', _⟩ => ⟨h, h', h'', Nat.zero_le N⟩) id) hfit hlen hdisj hacc hmono
  have h2N : 2 ≤ N := by rcases hN with ⟨-, -, h, -⟩ | ⟨-, h, h'⟩ <;> omega
  have hmin := hmin1.of_iff fun t => ⟨searches_shape, searches_one⟩
  -- the worker that searches a cheapest plan is as cheap
  have hex : ∃ p < 2 ^ k, ∃ r, worker o pType N p (2 ^ k) rels = .ok r ∧
      o.totalCost r = o.totalCost r1 := by
    obtain ⟨t, y, hperm, ht, hy, hc⟩ := hmin.attained
    obtain ⟨p, hp, hpt⟩ := exists_searches hN hperm ht
    obtain ⟨r, hr, hminp⟩ := hwork p
    obtain ⟨y', hy', hle⟩ := hminp.le_plan t hperm hpt
    rw [hy, Option.some.injEq] at hy'
    exact ⟨p, hp, r, hr, le_antisymm (hc ▸ hy' ▸ hle) (hmin.le_of_searches hminp)⟩
  refine ⟨(r1, root), parallelJoinSearch_one root (by omega) hr1, hmin, fun p _ => ?_, hex,
    fun hk => ?_⟩
  · obtain ⟨r, hr, hminp⟩ := hwork p
    exact ⟨r, hr, hmin.le_of_searches hminp⟩
  · rcases Nat.le_one_iff_eq_zero_or_eq_one.mp hk with rfl | rfl
    · exact ⟨(r1, root), parallelJoinSearch_one root (by omega) hr1, rfl⟩
    · obtain ⟨r0, h0, hm0⟩ := hwork 0
      obtain ⟨r1', h1, hm1⟩ := hwork 1
      obtain ⟨p, hp, r, hr, hc⟩ := hex
      refine ⟨_, parallelJoinSearch_two root h2N h0 h1, mergeOutputs_cost_eq _ _ _ le_rfl ?_ ?_⟩
      · simp only [List.mem_cons, List.mem_singleton, forall_eq_or_imp, forall_eq, List.not_mem_nil,
          or_false]
        exact ⟨hmin.le_of_searches hm0, hmin.le_of_searches hm1⟩
      · obtain rfl | rfl : p = 0 ∨ p = 1 := by omega
        · exact ⟨⟨root, r0⟩, List.mem_cons_self _ _, by rw [← hc, Except.ok.inj (h0.symm.trans hr)]⟩
        · exact ⟨⟨root, r1'⟩, List.mem_cons_of_mem _ (List.mem_singleton_self _),
            by rw [← hc, Except.ok.inj (h1.symm.trans hr)]⟩

/-- Four relations of cost 0, left-deep plans over two workers. -/
theorem parallelJoinSearch_minCost_two :
    ∃ r1, parallelJoinSearch sumOracle () 4 [([0], 0), ([1], 0), ([2], 0), ([3], 0)] 1 .leftDeep =
        .ok r1 ∧
      IsMinCost sumOracle 4 [([0], 0), ([1], 0), ([2], 0), ([3], 0)] (Shape .leftDeep)
        (sumOracle.totalCost r1.1) ∧
      (∀ p < 2 ^ 1, ∃ r, worker sumOracle .leftDeep 4 p (2 ^ 1)
        [([0], 0), ([1], 0), ([2], 0), ([3], 0)] = .ok r ∧
          sumOracle.totalCost r1.1 ≤ sumOracle.totalCost r) ∧
      (∃ p < 2 ^ 1, ∃ r, worker sumOracle .leftDeep 4 p (2 ^ 1)
        [([0], 0), ([1], 0), ([2], 0), ([3], 0)] = .ok r ∧
          sumOracle.totalCost r = sumOracle.totalCost r1.1) ∧
      (1 ≤ 1 → ∃ r, parallelJoinSearch sumOracle () 4 [([0], 0), ([1], 0), ([2], 0), ([3], 0)]
        (2 ^ 1) .leftDeep = .ok r ∧ sumOracle.totalCost r.1 = sumOracle.totalCost r1.1) :=
  parallelJoinSearch_minCost sumOracle () .leftDeep 4 1 _ (.inl ⟨rfl, by decide, by decide, by decide⟩)
    (by decide) rfl (by decide) sumOracle_acceptsDisjoint sumOracle_costMonotone

/-! ## Three workers -/

/-- An oracle that accepts every pair and charges 10 for a join, and nothing for one that adds
ordinal 0 after 1 or ordinal 2 after 3: the cheap left-deep orders put 1 before 0 and 3
before 2. -/
def orderOracle : Oracle (List Nat × Nat) Nat where
  makeJoinRel a b := some (a.1 ++ b.1,
    a.2 + b.2 + if (0 ∈ b.1 ∧ 1 ∈ a.1) ∨ (2 ∈ b.1 ∧ 3 ∈ a.1) then 0 else 10)
  setCheapest _ r := r
  desirableJoin _ _ := true
  relids r := r.1.toFinset
  totalCost r := r.2
  relids_makeJoinRel a b r h := by cases h; exact List.toFinset_append
  relids_setCheapest _ _ := rfl

theorem orderOracle_costMonotone : orderOracle.CostMonotone := by
  intro g a a' b b' j j' ha hb hca hcb hj hj'
  cases hj; cases hj'
  have hm : ∀ {x y : List Nat × Nat} (n : Nat), x.1.toFinset = y.1.toFinset → (n ∈ x.1 ↔ n ∈ y.1) :=
    fun n h => by rw [← List.mem_toFinset, h, List.mem_toFinset]
  show a.2 + b.2 + _ ≤ a'.2 + b'.2 + _
  simp only [hm 0 hb, hm 1 ha, hm 2 hb, hm 3 ha]
  exact Nat.add_le_add_right (Nat.add_le_add hca hcb) _

/-- With three workers no worker gets the orientations `1 before 0` and `3 before 2`, so the
search over four relations returns cost 20 where one worker finds cost 10. -/
theorem parallelJoinSearch_three_workers :
    orderOracle.AcceptsDisjoint ∧ orderOracle.CostMonotone ∧
    orderOracle.DisjointRels [([0], 0), ([1], 0), ([2], 0), ([3], 0)] ∧ 2 * Nat.clog 2 3 ≤ 4 ∧
    (parallelJoinSearch orderOracle () 4 [([0], 0), ([1], 0), ([2], 0), ([3], 0)] 3 .leftDeep).map
      (fun r => orderOracle.totalCost r.1) = .ok 20 ∧
    (parallelJoinSearch orderOracle () 4 [([0], 0), ([1], 0), ([2], 0), ([3], 0)] 1 .leftDeep).map
      (fun r => orderOracle.totalCost r.1) = .ok 10 :=
  ⟨fun _ _ _ => ⟨_, rfl⟩, orderOracle_costMonotone, by decide,
    by have := (Nat.le_pow_iff_clog_le Nat.one_lt_two).mp (show 3 ≤ 2 ^ 2 by decide); omega,
    rfl, rfl⟩

end ParallelJoin
