import ParallelJoin.Invariant
import ParallelJoin.Search

/-!
# What the workers build, for any oracle

The optimality results assume an oracle that accepts disjoint pairs at monotone costs. Without
any assumption on `make_join_rel` or the costs, the dynamic program still only builds plans of
the trees it searches: an entry `P[B]` is a seeded initial relation, or the join of two entries
`P[l]` and `P[r]` for a split `(l, r)` of an admissible set, kept when cheaper. So every
non-NULL entry is the plan of a tree that fits `B` (`PlanTable`), in every state the worker
reaches, and the gather test of the split loops (`list_length(sub_rels) != levels_needed`) is
the one of the plan, since a fitting tree has one leaf per member of the set.

Results:
* `workerTable_plans`: in every state of either worker, every non-NULL `P[B]` is the plan of a
  tree over `B` that fits the worker's constraints: left-deep with admissible prefixes, or with
  admissible nodes.
* `parallelJoinSearch_plan`: the relation `parallel_join_search` returns is the plan of a tree
  over all `N` relations that one of its workers searches. A search that returns has at most
  `N` workers and `N ≤ 26`, as the model faults where the source writes past `items` or has no
  table.
-/

namespace ParallelJoin

variable {R C : Type}

/-- Every non-NULL entry of `P` is the plan of a tree that fits its bitmap. -/
def PlanTable (o : Oracle R C) (N : Nat) (rels : List R) (Fits : Nat → JoinTree → Prop)
    (P : Table R) : Prop :=
  ∀ B x, P B = some x → ∃ t, Fits B t ∧ o.plan N rels t = some x

section Run

variable {o : Oracle R C} {N : Nat} {rels : List R} {Fits : Nat → JoinTree → Prop}
  {qs : List (List Nat)} {spl : List Nat → List (Nat × Nat)}

/-- A fold in `Except` keeps an invariant that every successful step keeps. -/
theorem foldlM_inv {α σ ε : Type} {f : σ → α → Except ε σ} (I : σ → Prop) :
    ∀ {l : List α} {s s' : σ}, (∀ x ∈ l, ∀ s s', I s → f s x = .ok s' → I s') → I s →
      l.foldlM f s = .ok s' → I s'
  | [], _, _, _, hs, h => by cases h; exact hs
  | x :: l, s, s', hstep, hs, h => by
    rw [List.foldlM_cons] at h
    obtain ⟨s1, h1, h2⟩ := bind_eq_ok.mp h
    exact foldlM_inv I (fun y hy => hstep y (List.mem_cons_of_mem x hy))
      (hstep x (List.mem_cons_self x l) s s1 hs h1) h2

/-- The seeded table holds the plans of the leaves. -/
theorem planTable_seed (hS : SplitScheme N Fits qs spl) :
    PlanTable o N rels Fits (seedTable N rels) := fun B x h => by
  obtain ⟨i, hi, rfl, hx⟩ := seedTable_eq_some h
  exact ⟨.leaf i, hS.fits_leaf i hi, hx⟩

variable [LinearOrder C]

/-- **Step lemma**: a split of one of the sets stores the cheaper of the entry and the plan of
the node over the two parts' trees. -/
theorem planTable_trySplit (hS : SplitScheme N Fits qs spl) {q : List Nat} (hq : q ∈ qs)
    {lr : Nat × Nat} (hlr : lr ∈ spl q) {P P' : Table R} (hP : PlanTable o N rels Fits P)
    (h : trySplit o (q.length != N) (bitmapOf q) P lr = .ok P') : PlanTable o N rels Fits P' := by
  obtain ⟨a, b, v, ha, hb, hk, rfl⟩ := trySplit_eq_ok h
  intro B x hx
  by_cases hB : B = bitmapOf q
  · subst hB
    rw [Function.update_same] at hx
    subst hx
    rcases keepCheaper_eq_some hk with hc | hc
    · exact hP _ x hc
    · obtain ⟨ta, hfa, hpa⟩ := hP _ a ha
      obtain ⟨tb, hfb, hpb⟩ := hP _ b hb
      have hfit := hS.compose q hq lr hlr ta tb hfa hfb
      -- the node has one leaf per member of the set, so the gather test is the plan's
      have hlen : ta.leaves.length + tb.leaves.length = q.length := by
        rw [← List.length_append, ← JoinTree.leaves_join]; exact hS.length_leaves hq hfit
      exact ⟨.join ta tb, hfit, Oracle.plan_join_eq_some.mpr ⟨a, b, hpa, hpb, hlen ▸ hc⟩⟩
  · rw [Function.update_noteq hB] at hx
    exact hP B x hx

theorem planTable_trySplitList (hS : SplitScheme N Fits qs spl) {q : List Nat} (hq : q ∈ qs)
    {P P' : Table R} (hP : PlanTable o N rels Fits P)
    (h : trySplitList o (q.length != N) (bitmapOf q) (spl q) P = .ok P') :
    PlanTable o N rels Fits P' :=
  foldlM_inv _ (fun _ hlr _ _ hP h => planTable_trySplit hS hq hlr hP h) hP h

/-- **Run lemma**: the split loop over any sets of the scheme, in any order, keeps every entry
a plan. -/
theorem planTable_splitLoop (hS : SplitScheme N Fits qs spl) {sorted : List (List Nat)}
    {P P' : Table R} (hqs : ∀ q ∈ sorted, 1 < q.length → q ∈ qs) (hP : PlanTable o N rels Fits P)
    (h : splitLoop (fun q P => trySplitList o (q.length != N) (bitmapOf q) (spl q) P) sorted P =
      .ok P') :
    PlanTable o N rels Fits P' := by
  rw [splitLoop_eq_foldlM] at h
  refine foldlM_inv _ (fun q hq _ _ hP h => ?_) hP h
  obtain ⟨hq, hlen⟩ := List.mem_filter.mp hq
  exact planTable_trySplitList hS (hqs q hq (by simpa using hlen)) hP h

end Run

/-- **Every entry a worker stores is a plan it searches**, for any oracle. In every state of
the split loop of either worker (after the sets of a prefix of the sorted list), every non-NULL
`P[B]` is the plan of a tree over the relations of `B` that fits the worker's constraints:
left-deep with every intermediate result admissible, or with every node admissible. -/
theorem workerTable_plans [LinearOrder C] (o : Oracle R C) (N p W : Nat) (rels : List R) (n : Nat)
    (P : Table R) :
    (2 ∣ N → splitLoop (fun q P => trySplits o q (partConstraints N p W) P N)
        ((sortBySize (admJoinResults N (partConstraints N p W))).take n) (seedTable N rels) =
        .ok P →
      ∀ B x, P B = some x →
        ∃ t, FitsL (partConstraints N p W) B t ∧ o.plan N rels t = some x) ∧
    (3 ∣ N → splitLoop (fun q P => trySplitsB o q (partConstraintsB N p W) P N)
        ((sortBySize (admJoinResultsB N (partConstraintsB N p W))).take n) (seedTable N rels) =
        .ok P →
      ∀ B x, P B = some x →
        ∃ t, FitsB (partConstraintsB N p W) B t ∧ o.plan N rels t = some x) := by
  have hmem : ∀ {js : List (List Nat)} {q}, q ∈ (sortBySize js).take n → 1 < q.length →
      q ∈ splitSets js := fun hq hlen =>
    mem_splitSets.mpr ⟨(List.perm_insertionSort _ _).mem_iff.mp (List.mem_of_mem_take hq), hlen⟩
  exact ⟨fun hN => planTable_splitLoop (splitScheme_leftDeep p W hN) (fun q hq => hmem hq)
      (planTable_seed (splitScheme_leftDeep p W hN)),
    fun hN => planTable_splitLoop (splitScheme_bushy p W hN) (fun q hq => hmem hq)
      (planTable_seed (splitScheme_bushy p W hN))⟩

/-- Two relations of cost 0, the one left-deep worker, after its whole loop. -/
theorem workerTable_plans_two :
    ∃ P, splitLoop (fun q P => trySplits sumOracle q (partConstraints 2 0 1) P 2)
        ((sortBySize (admJoinResults 2 (partConstraints 2 0 1))).take 3)
        (seedTable 2 [([0], 0), ([1], 0)]) = .ok P ∧
      ∀ B x, P B = some x → ∃ t, FitsL (partConstraints 2 0 1) B t ∧
        sumOracle.plan 2 [([0], 0), ([1], 0)] t = some x :=
  ⟨_, rfl, (workerTable_plans sumOracle 2 0 1 [([0], 0), ([1], 0)] 3 _).1 (by decide) rfl⟩

/-! ## The relation of the search -/

section Search

variable [LinearOrder C] {o : Oracle R C}

/-- A worker that returns had its table. -/
theorem le_of_worker_eq_ok {pType : PType} {N p W : Nat} {rels : List R} {r : R}
    (h : worker o pType N p W rels = .ok r) : N ≤ 26 := by
  by_contra hN
  rw [worker, if_neg (mt tableAllocOk_iff.mp hN)] at h
  cases h

/-- What `worker` copies out is the entry at the set of all `N` relations. -/
theorem exists_workerTable_of_worker {pType : PType} {N p W : Nat} {rels : List R} {r : R}
    (h : worker o pType N p W rels = .ok r) :
    ∃ P, workerTable o pType N p W rels = .ok P ∧ P (2 ^ N - 1) = some r := by
  have hfit := le_of_worker_eq_ok h
  rw [worker, if_pos (tableAllocOk_iff.mpr hfit), pure_bind, Nat.one_shiftLeft] at h
  obtain ⟨P, hP, h⟩ := bind_eq_ok.mp h
  refine ⟨P, hP, ?_⟩
  split at h <;> cases h
  assumption

/-- A worker's relation is the plan of a tree over all `N` relations that it searches. -/
theorem worker_plan {pType : PType} {N p W : Nat} {rels : List R} {r : R}
    (hN : pType = .leftDeep ∧ 2 ∣ N ∧ 2 ≤ N ∧ 2 * Nat.clog 2 W ≤ N ∨ pType = .bushy ∧ 3 ∣ N)
    (h : worker o pType N p W rels = .ok r) :
    ∃ t, t.leaves.Perm (List.range N) ∧ Searches pType N p W t ∧ o.plan N rels t = some r := by
  obtain ⟨P, hP, hr⟩ := exists_workerTable_of_worker h
  have hsorted : ∀ {js : List (List Nat)}, ∀ q ∈ sortBySize js, 1 < q.length →
      q ∈ splitSets js := fun q hq hlen => mem_splitSets.mpr
    ⟨(List.perm_insertionSort _ _).mem_iff.mp hq, hlen⟩
  rcases hN with ⟨rfl, hN, h2, hW⟩ | ⟨rfl, hN⟩
  · have hS := splitScheme_leftDeep p W hN
    obtain ⟨t, ⟨hb, hnd, hld, hsp⟩, ht⟩ :=
      planTable_splitLoop hS hsorted (planTable_seed hS) hP _ r hr
    have hperm := perm_range_of_bitmapOf hnd hb
    refine ⟨t, hperm, ⟨hld, ?_⟩, ht⟩
    -- a left-deep tree over all `N` ordinals with admissible prefixes respects the constraints
    have hcs : ∀ c ∈ partConstraints N p W, c.1 ≠ c.2 ∧ c.2 ∈ t.leaves := fun c hc =>
      ⟨(partConstraints_lt hW hc).2.2,
        hperm.mem_iff.mpr (List.mem_range.mpr (partConstraints_lt hW hc).2.1)⟩
    have hlenN : t.leaves.length ≠ 1 := by rw [hperm.length_eq, List.length_range]; omega
    obtain ⟨x, rest, rfl⟩ := eq_leftDeep t hld
    rw [leaves_leftDeep] at hnd hcs hlenN hsp ⊢
    exact (respects_iff_spine hnd hcs).mpr (hsp.resolve_left hlenN)
  · have hS := splitScheme_bushy p W hN
    obtain ⟨t, ⟨hb, hnd, hadm⟩, ht⟩ :=
      planTable_splitLoop hS hsorted (planTable_seed hS) hP _ r hr
    exact ⟨t, perm_range_of_bitmapOf hnd hb, hadm, ht⟩

/-- The merge returns one of the workers' outputs. -/
theorem mergeOutputs_mem {S : Type} (cost : R → C) (best : WorkerOutput R S)
    (rest : List (WorkerOutput R S)) :
    ∃ w ∈ best :: rest, mergeOutputs cost best rest = (w.optimal, w.root) := by
  rw [mergeOutputs_eq]
  split
  · rename_i w hw
    exact ⟨w, List.mem_cons_of_mem best (List.mem_filter.mp (List.mem_of_getLast?_eq_some hw)).1,
      rfl⟩
  · exact ⟨best, List.mem_cons_self best rest, rfl⟩

/-- Every output of a successful `mapM` is the output of one of the inputs. -/
theorem exists_of_mapM_eq_ok {α β ε : Type} {f : α → Except ε β} :
    ∀ {l : List α} {outs : List β}, l.mapM f = .ok outs → ∀ y ∈ outs, ∃ x ∈ l, f x = .ok y
  | [], outs, h, y, hy => by cases h; simp at hy
  | a :: l, outs, h, y, hy => by
    rw [List.mapM_cons] at h
    obtain ⟨b, hb, h⟩ := bind_eq_ok.mp h
    obtain ⟨bs, hbs, h⟩ := bind_eq_ok.mp h
    cases h
    rcases List.mem_cons.mp hy with rfl | hy
    · exact ⟨a, List.mem_cons_self a l, hb⟩
    · obtain ⟨x, hx, hfx⟩ := exists_of_mapM_eq_ok hbs y hy
      exact ⟨x, List.mem_cons_of_mem a hx, hfx⟩

/-- The relation of a successful search is the plan of a tree that one of its workers
searches; the search wrote `items` in bounds and its workers had their tables. -/
theorem exists_plan_of_parallelJoinSearch {S : Type} {root root' : S} {pType : PType}
    {N W : Nat} {rels : List R} {r : R}
    (hN : pType = .leftDeep ∧ 2 ∣ N ∧ 2 ≤ N ∧ 2 * Nat.clog 2 W ≤ N ∨ pType = .bushy ∧ 3 ∣ N)
    (h : parallelJoinSearch o root N rels W pType = .ok (r, root')) :
    W ≤ N ∧ N ≤ 26 ∧ ∃ p < W, ∃ t, t.leaves.Perm (List.range N) ∧ Searches pType N p W t ∧
      o.plan N rels t = some r := by
  obtain ⟨hW, h⟩ := parallelJoinSearch_eq_ok o h
  obtain ⟨outs, houts, h⟩ := bind_eq_ok.mp h
  obtain ⟨best, rest, rfl⟩ : ∃ best rest, outs = best :: rest := by
    cases outs with
    | nil => cases h
    | cons best rest => exact ⟨best, rest, rfl⟩
  obtain ⟨w, hw, hwm⟩ := mergeOutputs_mem o.totalCost best rest
  have hr : r = w.optimal := (Prod.mk.inj ((Except.ok.inj h).symm.trans hwm)).1
  obtain ⟨i, hi, hfi⟩ := exists_of_mapM_eq_ok houts w hw
  cases hwi : worker o pType N i W rels with
  | error e => rw [hwi] at hfi; cases hfi
  | ok ri =>
    rw [hwi] at hfi
    cases hfi
    exact ⟨hW, le_of_worker_eq_ok hwi, i, List.mem_range.mp hi, hr ▸ worker_plan hN hwi⟩

end Search

/-- **The search returns a plan one of its workers searches**, for any oracle. For left-deep
plans over an even `N ≥ 2` with constraints among the first `N` ordinals, or bushy plans over a
multiple of 3: a search that returns had at most `N` workers and `N ≤ 26`, and the relation
`parallel_join_search` returns is the plan of a tree over all `N` relations that the worker of
some `part_id < n_workers` searches, so of the requested shape. -/
theorem parallelJoinSearch_plan [LinearOrder C] {S : Type} (o : Oracle R C) (root : S)
    (pType : PType) (N W : Nat) (rels : List R) (r : R) (root' : S)
    (hN : pType = .leftDeep ∧ 2 ∣ N ∧ 2 ≤ N ∧ 2 * Nat.clog 2 W ≤ N ∨ pType = .bushy ∧ 3 ∣ N)
    (h : parallelJoinSearch o root N rels W pType = .ok (r, root')) :
    W ≤ N ∧ N ≤ 26 ∧ ∃ p < W, ∃ t, t.leaves.Perm (List.range N) ∧ Searches pType N p W t ∧
      o.plan N rels t = some r :=
  exists_plan_of_parallelJoinSearch hN h

/-- Two relations of cost 0 and one left-deep worker. -/
theorem parallelJoinSearch_plan_two :
    ∃ r, parallelJoinSearch sumOracle () 2 [([0], 0), ([1], 0)] 1 .leftDeep = .ok (r, ()) ∧
      1 ≤ 2 ∧ 2 ≤ 26 ∧ ∃ p < 1, ∃ t, t.leaves.Perm (List.range 2) ∧ Searches .leftDeep 2 p 1 t ∧
        sumOracle.plan 2 [([0], 0), ([1], 0)] t = some r :=
  ⟨_, rfl, parallelJoinSearch_plan sumOracle () .leftDeep 2 1 _ _ ()
    (.inl ⟨rfl, by decide, by decide, by rw [Nat.clog_one_right]; decide⟩) rfl⟩

end ParallelJoin
