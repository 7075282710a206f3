import ParallelJoin.Plans
import Mathlib.Data.List.Sort

/-!
# The worker and the orchestrator

Model of `try_splits` (`parallel_worker.c:264-347`), `try_splits_b` (`:353-575`), `worker`
(`:588-677`) and `parallel_join_search` (`allpaths.c:734-790`). `allpaths.c:89-731` holds the
same code again; `parallel_join_search` runs that copy.

* Both split routines compute `bitmap` from `sub_rels`, list their splits, and run the shared
  loop body `trySplit` over them (`Oracle.lean`); only the lists differ. `leftDeepSplits` is
  `(bitmap & ~(1 << u), 1 << u)` for each `valid[u]`; `bushySplits` is
  `(bitmapl, bitmap - bitmapl)` for each `L` of the product of the groups' `Spower` lists,
  skipping `bitmapl = 0` and `bitmapl = bitmap`.
* `present[q]` is membership in `sub_rels`. The bitmaps are `Nat`; `IntSplits.lean` shows that
  the `int` ones of the source are the same values while no ordinal passes 30.
* `worker` allocates `P`, seeds `P[1 << i]`, sorts `join_res` by size and calls the split
  routine on every set of more than one ordinal. `list_qsort` is not stable; `sortBySize` sorts
  stably, and the results of `Optimal.lean` hold for every order sorted by size
  (`splitLoop_eq_foldlM`).
* The table has `1 << levels_needed` entries of 8 bytes. `palloc` refuses a request above
  `MaxAllocSize`, from 27 relations on; from 31 on the `int` shift is negative or undefined.
  The model faults there (`Fault.tableAlloc`), before the seeding: `tableAllocOk_iff`.
* `items` has `levels_needed` entries and `parallel_join_search` writes `items[i]` for every
  `i < n_workers`; with more workers than relations the model faults (`Fault.itemsOverflow`)
  before running any worker.
* `p_type` other than 2 and 3 leaves `constr` unset; the model has the two variants only.
* A worker returns its planner snapshot with its plan. The oracle is a function, so the
  snapshot is the copy of `root` it was given; `mergeOutputs` takes arbitrary snapshots.

Results:
* `tableAllocOk_iff`: the worker's table exists exactly for `N ≤ 26`; `itemsIndices_lt_iff`: the
  writes to `items` stay in bounds exactly when `W ≤ N`.
* `mergeOutputs_eq`: the merge returns the last worker after the first that is cheaper than
  worker 0, or worker 0, and not the cheapest (`mergeOutputs_ten_five_eight`).
* `mergeOutputs_of_length_le_one`: with at most two workers it returns the cheapest.
* `parallelJoinSearch_faults`, `trySplits_second_call`: the split loops use what they read
  without a test, so an oracle that rejects joins makes the search fault.
* `parallelJoinSearch_bounds_six_eight`: eight workers on six relations write past `items`, and
  31 relations make the size of `P` negative.
-/

namespace ParallelJoin

variable {R C : Type} (o : Oracle R C) [LinearOrder C]

/-! ## `try_splits` -/

/-- `valid[u]` after the constraint scan of `try_splits` (`parallel_worker.c:298-309`): cleared
by every constraint `(u, q2)` with both ends present. -/
def valid (subRels : List Nat) (constr : List (Nat × Nat)) (u : Nat) : Bool :=
  !constr.any fun c => c.1 == u && subRels.contains c.1 && subRels.contains c.2

/-- The splits of `try_splits` (`parallel_worker.c:312-322`), in the order of `sub_rels`. -/
def leftDeepSplits (subRels : List Nat) (constr : List (Nat × Nat)) : List (Nat × Nat) :=
  (subRels.filter (valid subRels constr)).map fun u =>
    (andNot (bitmapOf subRels) (1 <<< u), 1 <<< u)

/-- `try_splits(root, sub_rels, constr, P, levels_needed)`. -/
def trySplits (subRels : List Nat) (constr : List (Nat × Nat)) (P : Table R)
    (levelsNeeded : Nat) : Except Fault (Table R) :=
  trySplitList o (subRels.length != levelsNeeded) (bitmapOf subRels)
    (leftDeepSplits subRels constr) P

/-! ## `try_splits_b` -/

/-- The `Spower` list of one group in `try_splits_b` (`parallel_worker.c:379-529`): the subsets
of the present members of `(q1, q2, q3)`. The two branches of the source differ where `q2` and
`q3` are present: the constrained one (`i < list_length(constr)`) leaves out `{q2, q3}`, and
`{q1}` when `q1` is present too. -/
def spower (constrained : Bool) (present : Nat → Bool) (q1 q2 q3 : Nat) : List (List Nat) :=
  if present q3 then
    [q3] :: (if present q2 then
      [q2] :: ((if constrained then [] else [[q2, q3]]) ++
        if present q1 then (if constrained then [] else [[q1]]) ++ [[q1, q2], [q1, q3], [q1, q2, q3]]
        else [])
    else if present q1 then [[q1], [q1, q3]] else [])
  else if present q2 then [q2] :: (if present q1 then [[q1, q2], [q1]] else [])
  else if present q1 then [[q1]] else []

/-- The `Spower` of group `i`: constrained by `constr[i]` when there is one, else over
`(3i, 3i + 1, 3i + 2)`. -/
def groupSpower (present : Nat → Bool) (constr : List (Nat × Nat × Nat)) (i : Nat) :
    List (List Nat) :=
  match constr[i]? with
  | some (q1, q2, q3) => spower true present q1 q2 q3
  | none => spower false present (3 * i) (3 * i + 1) (3 * i + 2)

/-- The splits of `try_splits_b` (`parallel_worker.c:534-552`): `A` folds `cartesian_product`
over the groups with `3i + 2 < n`, and each `L` of `A` gives `(bitmapl, bitmap - bitmapl)`
unless `bitmapl` is `0` or `bitmap`. -/
def bushySplits (subRels : List Nat) (constr : List (Nat × Nat × Nat)) (n : Nat) :
    List (Nat × Nat) :=
  (groupProduct (groupSpower (subRels.contains ·) constr) (n / 3)).filterMap fun L =>
    if bitmapOf L == 0 || bitmapOf L == bitmapOf subRels then none
    else some (bitmapOf L, bitmapOf subRels - bitmapOf L)

/-- `try_splits_b(root, sub_rels, constr, P, n)`. -/
def trySplitsB (subRels : List Nat) (constr : List (Nat × Nat × Nat)) (P : Table R) (n : Nat) :
    Except Fault (Table R) :=
  trySplitList o (subRels.length != n) (bitmapOf subRels) (bushySplits subRels constr n) P

/-! ## `worker` -/

/-- `p_type`: 2 for left-deep plans, 3 for bushy ones. -/
inductive PType
  | leftDeep
  | bushy
  deriving DecidableEq, Repr

/-- The DP table after `P[i] = NULL` and `P[1 << i] = list_nth(initial_rels, i)`
(`parallel_worker.c:619-629`). `worker` seeds only after its table check, with `i < N ≤ 26`,
where `1 << i` is the `int` `2^i` (`intShiftLeft_toInt`). -/
def seedTable (levelsNeeded : Nat) (initialRels : List R) : Table R :=
  (List.range levelsNeeded).foldl (fun P i => Function.update P (1 <<< i) initialRels[i]?)
    fun _ => none

/-- `list_qsort(join_res, ptr_less)`: ascending size. -/
def sortBySize (joinRes : List (List Nat)) : List (List Nat) :=
  joinRes.insertionSort fun a b => a.length ≤ b.length

/-- The loop of `worker` over the sorted sets (`parallel_worker.c:637-660`): the split routine
on every set of more than one ordinal. -/
def splitLoop (split : List Nat → Table R → Except Fault (Table R)) (sorted : List (List Nat))
    (P : Table R) : Except Fault (Table R) :=
  sorted.foldlM (fun P q => if 1 < q.length then split q P else pure P) P

/-- The table a worker has filled: its constraints, the admissible sets, the seeding and the
split loop. -/
def workerTable (pType : PType) (levelsNeeded partId nWorkers : Nat) (initialRels : List R) :
    Except Fault (Table R) :=
  let P := seedTable levelsNeeded initialRels
  match pType with
  | .leftDeep =>
    let constr := partConstraints levelsNeeded partId nWorkers
    splitLoop (fun q P => trySplits o q constr P levelsNeeded)
      (sortBySize (admJoinResults levelsNeeded constr)) P
  | .bushy =>
    let constr := partConstraintsB levelsNeeded partId nWorkers
    splitLoop (fun q P => trySplitsB o q constr P levelsNeeded)
      (sortBySize (admJoinResultsB levelsNeeded constr)) P

/-- `MaxAllocSize`, 1 GB − 1: `palloc` raises an error on a larger request. -/
def maxAllocSize : Nat := 0x3fffffff

/-- `palloc((1 << levels_needed) * sizeof(RelOptInfo *))` (`parallel_worker.c:619`) gives a table
of `1 << levels_needed` entries: the `int` shift is positive and the request, with 8-byte
pointers, is within `MaxAllocSize`. -/
def tableAllocOk (levelsNeeded : Nat) : Bool :=
  0 < (intShiftLeft levelsNeeded).toInt && (intShiftLeft levelsNeeded).toInt * 8 ≤ maxAllocSize

/-- `worker(data)`: the table, and the relation `*(P[(1 << levels_needed) - 1])` it copies out. -/
def worker (pType : PType) (levelsNeeded partId nWorkers : Nat) (initialRels : List R) :
    Except Fault R := do
  unless tableAllocOk levelsNeeded do throw .tableAlloc
  let P ← workerTable o pType levelsNeeded partId nWorkers initialRels
  match P ((1 <<< levelsNeeded) - 1) with
  | some best => pure best
  | none => throw .nullBest

/-- **The worker's table exists exactly up to 26 relations**: from 27 on the request passes
`MaxAllocSize`, at 31 the shift is negative, and from 32 on its 32-bit value is `0`. -/
theorem tableAllocOk_iff {N : Nat} : tableAllocOk N = true ↔ N ≤ 26 := by
  rcases Nat.lt_or_ge N 31 with hN | hN
  · have h26 : 2 ^ N ≤ 2 ^ 26 ↔ N ≤ 26 := Nat.pow_le_pow_iff_right (by decide)
    have h27 : 2 ^ 27 ≤ 2 ^ N ↔ 27 ≤ N := Nat.pow_le_pow_iff_right (by decide)
    have hpos := Nat.two_pow_pos N
    simp only [tableAllocOk, intShiftLeft_toInt (by omega : N ≤ 30), maxAllocSize,
      Bool.and_eq_true, decide_eq_true_eq]
    exact_mod_cast (show 0 < 2 ^ N ∧ 2 ^ N * 8 ≤ 0x3fffffff ↔ N ≤ 26 by omega)
  · -- `1 << 31` is negative, and from 32 on the shift is `0`
    have hoff : tableAllocOk N = false := by
      rcases Nat.lt_or_ge N 32 with h | h
      · obtain rfl : N = 31 := by omega
        decide
      · have h0 : intShiftLeft N = 0 := by
          rw [intShiftLeft_eq, Nat.one_shiftLeft]
          exact BitVec.eq_of_toNat_eq (by simp [Nat.mod_eq_zero_of_dvd (Nat.pow_dvd_pow 2 h)])
        simp [tableAllocOk, h0]
    simp only [hoff, Bool.false_eq_true, false_iff]
    omega

/-! ## `parallel_join_search` -/

/-- `palloc(levels_needed * sizeof(worker_data))`: the entries of `items` (`allpaths.c:742`). -/
def itemsLength (levelsNeeded : Nat) : Nat := levelsNeeded

/-- The entries of `items` that `for (i = 0; i < n_workers; i++)` writes (`allpaths.c:752-765`). -/
def itemsIndices (nWorkers : Nat) : List Nat := List.range nWorkers

/-- The merge loop of `parallel_join_search` (`allpaths.c:769-787`). `best` stays worker 0's
output: each later worker is compared with it, and a cheaper one replaces `optimal` and
`*root`. -/
def mergeOutputs {S : Type} (cost : R → C) (best : WorkerOutput R S) (rest : List (WorkerOutput R S)) :
    R × S :=
  rest.foldl (fun acc that => if cost that.optimal < cost best.optimal then (that.optimal, that.root)
    else acc) (best.optimal, best.root)

/-- The workers of `parallel_join_search` and their merge (`allpaths.c:752-787`): worker `i`
runs with `part_id = i` on a copy of `root`; the merge picks the relation and the snapshot.
With no worker, `pthread_join(threads[0], …)` has no thread. -/
def runWorkers {S : Type} (root : S) (levelsNeeded : Nat) (initialRels : List R)
    (nWorkers : Nat) (pType : PType) : Except Fault (R × S) := do
  let outs ← (List.range nWorkers).mapM fun i =>
    (worker o pType levelsNeeded i nWorkers initialRels).map fun r => WorkerOutput.mk root r
  match outs with
  | [] => throw .noWorker
  | best :: rest => pure (mergeOutputs o.totalCost best rest)

/-- `parallel_join_search(root, levels_needed, initial_rels, n_workers, p_type)`: the writes to
`items`, then the workers. -/
def parallelJoinSearch {S : Type} (root : S) (levelsNeeded : Nat) (initialRels : List R)
    (nWorkers : Nat) (pType : PType) : Except Fault (R × S) := do
  unless ∀ i ∈ itemsIndices nWorkers, i < itemsLength levelsNeeded do throw .itemsOverflow
  runWorkers o root levelsNeeded initialRels nWorkers pType

theorem itemsIndices_lt_iff {N W : Nat} : (∀ i ∈ itemsIndices W, i < itemsLength N) ↔ W ≤ N := by
  simp only [itemsIndices, itemsLength, List.mem_range]
  exact ⟨fun h => by by_contra hW; exact absurd (h N (by omega)) (lt_irrefl N),
    fun h i hi => by omega⟩

theorem parallelJoinSearch_of_le {S : Type} (root : S) {N W : Nat} {rels : List R}
    {pType : PType} (hW : W ≤ N) :
    parallelJoinSearch o root N rels W pType = runWorkers o root N rels W pType := by
  rw [parallelJoinSearch, if_pos (itemsIndices_lt_iff.mpr hW)]
  rfl

/-- A search that returns has at most as many workers as relations, and its workers returned. -/
theorem parallelJoinSearch_eq_ok {S : Type} {root : S} {N W : Nat} {rels : List R}
    {pType : PType} {x : R × S} (h : parallelJoinSearch o root N rels W pType = .ok x) :
    W ≤ N ∧ runWorkers o root N rels W pType = .ok x := by
  by_cases hW : W ≤ N
  · exact ⟨hW, (parallelJoinSearch_of_le o root hW).symm.trans h⟩
  · rw [parallelJoinSearch, if_neg (mt itemsIndices_lt_iff.mp hW)] at h
    cases h

/-! ## The merge -/

section Merge

variable {S : Type} (cost : R → C)

/-- **What the merge returns**: the last worker after the first whose cost is below worker 0's,
or worker 0 when there is none. -/
theorem mergeOutputs_eq (best : WorkerOutput R S) (rest : List (WorkerOutput R S)) :
    mergeOutputs cost best rest =
      match (rest.filter fun w => cost w.optimal < cost best.optimal).getLast? with
      | some w => (w.optimal, w.root)
      | none => (best.optimal, best.root) := by
  unfold mergeOutputs
  induction rest using List.reverseRecOn with
  | nil => rfl
  | append_singleton rest w ih =>
    rw [List.foldl_append, ih, List.filter_append]
    by_cases hw : cost w.optimal < cost best.optimal <;> simp [hw]

/-- With at most two workers the merge returns the cheapest, worker 0 on a tie. -/
theorem mergeOutputs_of_length_le_one (best : WorkerOutput R S) (rest : List (WorkerOutput R S))
    (h : rest.length ≤ 1) :
    (∀ w ∈ best :: rest, cost (mergeOutputs cost best rest).1 ≤ cost w.optimal) ∧
    ∃ w ∈ best :: rest, mergeOutputs cost best rest = (w.optimal, w.root) := by
  match rest, h with
  | [], _ => exact ⟨by simp [mergeOutputs], best, by simp, rfl⟩
  | [w], _ =>
    by_cases hw : cost w.optimal < cost best.optimal
    · simp only [mergeOutputs, List.foldl_cons, List.foldl_nil, hw, if_true]
      exact ⟨by simp [hw.le], w, by simp, rfl⟩
    · simp only [mergeOutputs, List.foldl_cons, List.foldl_nil, hw, if_false]
      exact ⟨by simp [not_lt.mp hw], best, by simp, rfl⟩

end Merge

/-- Worker costs `10, 5, 8`: the merge returns worker 2's relation and snapshot, of cost 8,
while worker 1's costs 5. -/
theorem mergeOutputs_ten_five_eight :
    mergeOutputs id (WorkerOutput.mk 0 10) [WorkerOutput.mk 1 5, WorkerOutput.mk 2 8] = (8, 2) ∧
      (5 : Nat) < 8 := ⟨rfl, by decide⟩

/-! ## Faults on rejected joins

The split loops use what they read without a test: `make_join_rel(root, P[l], P[r])` takes the
entries as they are (`parallel_worker.c:320-323`), the keep-the-minimum update reads
`join_rel->cheapest_total_path` whenever `P[bitmap]` is set (`:337-341`), and `worker` copies
`*(P[(1 << levels_needed) - 1])` (`:663-668`). An oracle that rejects joins makes the search
fault, also where a plan with every join accepted exists. -/

/-- Joins along the chain `0 - 1 - 2 - 3`: the two sides hold neighbouring ordinals. -/
def chainAccept (s t : Finset Nat) : Bool :=
  decide (∃ x ∈ s, ∃ y ∈ t, x + 1 = y ∨ y + 1 = x)

/-- One worker on relations `0, …, N - 1` faults in three ways. Along the chain, the set
`{0, 1, 2}` is split through `{0, 2}`, whose entry is NULL, though the left-deep plan of
`0, 1, 2, 3` has every join accepted. With every join rejected, `P[3]` stays NULL and is
copied. With only `{1} ⋈ {0}` accepted, the second split of `{0, 1}` reads the cost of its
NULL join. -/
theorem parallelJoinSearch_faults :
    (parallelJoinSearch (pairOracle chainAccept) () 4 [([0], 0), ([1], 0), ([2], 0), ([3], 0)]
        1 .leftDeep = .error .nullJoinInput ∧
      ∃ y, (pairOracle chainAccept).plan 4 [([0], 0), ([1], 0), ([2], 0), ([3], 0)]
        (leftDeep 0 [1, 2, 3]) = some y) ∧
    parallelJoinSearch (pairOracle fun _ _ => false) () 2 [([0], 0), ([1], 0)] 1 .leftDeep =
      .error .nullBest ∧
    parallelJoinSearch (pairOracle fun s _ => decide (1 ∈ s)) () 2 [([0], 0), ([1], 0)] 1
      .leftDeep = .error .nullJoinCost :=
  ⟨⟨rfl, _, rfl⟩, rfl, rfl⟩

/-- Joins are rejected between `{1, 2}` and `{0}`, in either orientation, and accepted
otherwise. -/
def noZeroWithOneTwo (s t : Finset Nat) : Bool :=
  !(decide (s = {1, 2} ∧ t = {0}) || decide (s = {0} ∧ t = {1, 2}))

/-- A repeated `try_splits` call faults where the first succeeds. After the sets of two, the
first call on `{0, 1, 2}` meets the rejected `{1, 2} ⋈ {0}` while `P[7]` is NULL and then
stores an accepted join; the second call meets the same rejected join with `P[7]` set and reads
its cost. -/
theorem trySplits_second_call :
    ∃ P P', (do
        let P ← trySplits (pairOracle noZeroWithOneTwo) [0, 1] []
          (seedTable 3 [([0], 0), ([1], 0), ([2], 0)]) 3
        let P ← trySplits (pairOracle noZeroWithOneTwo) [0, 2] [] P 3
        trySplits (pairOracle noZeroWithOneTwo) [1, 2] [] P 3) = .ok P ∧
      trySplits (pairOracle noZeroWithOneTwo) [0, 1, 2] [] P 3 = .ok P' ∧ (P' 7).isSome ∧
      trySplits (pairOracle noZeroWithOneTwo) [0, 1, 2] [] P' 3 = .error .nullJoinCost :=
  ⟨_, _, rfl, rfl, rfl, rfl⟩

/-! ## Array bounds -/

/-- Eight left-deep workers on six relations meet `2⌈log₂ 8⌉ ≤ 6` and write `items[6]` and
`items[7]` past its six entries, where the search faults. With 31 relations `1 << 31` is
negative, and the worker faults at its table. -/
theorem parallelJoinSearch_bounds_six_eight :
    2 * Nat.clog 2 8 ≤ 6 ∧ ¬(∀ i ∈ itemsIndices 8, i < itemsLength 6) ∧
      (intShiftLeft 31).toInt < 0 ∧
      parallelJoinSearch sumOracle () 6 ((List.range 6).map fun i => ([i], 0)) 8 .leftDeep =
        .error .itemsOverflow ∧
      worker sumOracle .leftDeep 31 0 1 ((List.range 31).map fun i => ([i], 0)) =
        .error .tableAlloc :=
  ⟨by rw [show (8 : Nat) = 2 ^ 3 from rfl, Nat.clog_pow 2 3 (by decide)], by decide, by decide,
    rfl, rfl⟩

end ParallelJoin
