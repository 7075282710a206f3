import ParallelJoin.Bitmap
import Mathlib.Data.Finset.Basic

/-!
# The planner interface and the keep-the-minimum update

The search core calls the planner for four things: `make_join_rel`, the path generation that
follows a successful join (`generate_partitionwise_join_paths`, `generate_gather_paths` unless
the join is final, `set_cheapest`), the relids of a relation and the total cost of its cheapest
path. `Oracle` bundles them. A relation (`RelOptInfo *`) is an opaque `R`, costs live in any
linear order `C`, and NULL is `none`. Two facts of the planner are fields, so an oracle that
breaks them cannot be built: `make_join_rel` builds the relation of `rel1->relids ∪
rel2->relids`, and path generation never changes a relation's relids.

The oracle is a function: the `PlannerInfo` a worker threads through `make_join_rel`
(`join_rel_list`, `join_rel_hash`) is not modelled, and each worker's snapshot is returned as it
was passed (`WorkerOutput`).

A dereference of NULL is a `Fault`. `trySplit` is the body shared by the split loops of
`try_splits` (`parallel_worker.c:317-341`) and `try_splits_b` (`:551-570`): join `P[l]` with
`P[r]`, and store the result in `P[bitmap]` when the entry is NULL or dearer.
-/

namespace ParallelJoin

/-- The planner calls of the search core, over relations `R` and costs `C`. -/
structure Oracle (R C : Type) where
  /-- `make_join_rel(root, rel1, rel2)`; `none` is the NULL of an illegal join. -/
  makeJoinRel : R → R → Option R
  /-- The path generation after a successful join: `generate_partitionwise_join_paths`, then
  `generate_gather_paths` when the flag is set, then `set_cheapest`. -/
  setCheapest : Bool → R → R
  /-- `desirable_join(root, outer_rel, inner_rel)` of the clump assembler. -/
  desirableJoin : R → R → Bool
  /-- `rel->relids`. -/
  relids : R → Finset Nat
  /-- `rel->cheapest_total_path->total_cost`. -/
  totalCost : R → C
  relids_makeJoinRel : ∀ a b r, makeJoinRel a b = some r → relids r = relids a ∪ relids b
  relids_setCheapest : ∀ g r, relids (setCheapest g r) = relids r

/-- What the source dereferences when it is NULL. -/
inductive Fault
  /-- `make_join_rel` called with a NULL DP entry. -/
  | nullJoinInput
  /-- `join_rel->cheapest_total_path` read on a rejected (NULL) join. -/
  | nullJoinCost
  /-- `*(P[(1 << levels_needed) - 1])` copied while NULL. -/
  | nullBest
  /-- `pthread_join(threads[0], ...)` with no worker thread. -/
  | noWorker
  /-- An `Assert` of the clump assembler fails: `try_merge_clump`'s, `list_nth`'s on an index
  past the list, or `parallel_eval`'s that `root->join_rel_level` is NULL. -/
  | assertion
  /-- `palloc((1 << levels_needed) * sizeof(RelOptInfo *))` gives no table of
  `2^levels_needed` entries (`parallel_worker.c:619`): `palloc` refuses the request, or the
  `int` shift is out of range and the seeding writes past the table. -/
  | tableAlloc
  /-- `items[i]` written past the `levels_needed` entries of `items` (`allpaths.c:742-765`). -/
  | itemsOverflow
  deriving DecidableEq, Repr

/-- The DP table `P`: the best relation found for each subset bitmap, `none` for NULL. -/
abbrev Table (R : Type) := Nat → Option R

/-- What a worker hands back to `parallel_join_search`: its planner snapshot and its plan. -/
structure WorkerOutput (R S : Type) where
  root : S
  optimal : R

variable {R C : Type} (o : Oracle R C)

namespace Oracle

/-- A successful join with its paths generated. -/
def joinRel (gather : Bool) (a b : R) : Option R :=
  (o.makeJoinRel a b).map (o.setCheapest gather)

/-- Every pair with disjoint relids is accepted. -/
def AcceptsDisjoint : Prop :=
  ∀ a b, Disjoint (o.relids a) (o.relids b) → ∃ r, o.makeJoinRel a b = some r

theorem relids_joinRel {g : Bool} {a b r : R} (h : o.joinRel g a b = some r) :
    o.relids r = o.relids a ∪ o.relids b := by
  obtain ⟨j, hj, rfl⟩ := Option.map_eq_some'.mp h
  rw [o.relids_setCheapest, o.relids_makeJoinRel a b j hj]

theorem joinRel_eq_none {g : Bool} {a b : R} : o.joinRel g a b = none ↔ o.makeJoinRel a b = none :=
  Option.map_eq_none'

variable [LinearOrder C]

/-- The cost of a join does not decrease with the cost of either input, among inputs with the
same relids. -/
def CostMonotone : Prop :=
  ∀ g a a' b b' j j', o.relids a = o.relids a' → o.relids b = o.relids b' →
    o.totalCost a ≤ o.totalCost a' → o.totalCost b ≤ o.totalCost b' →
    o.joinRel g a b = some j → o.joinRel g a' b' = some j' → o.totalCost j ≤ o.totalCost j'

/-- Equal relids and equal costs in, equal cost out. -/
theorem CostMonotone.eq {o : Oracle R C} (hm : o.CostMonotone) {g : Bool} {a a' b b' j j' : R}
    (ha : o.relids a = o.relids a') (hb : o.relids b = o.relids b')
    (hca : o.totalCost a = o.totalCost a') (hcb : o.totalCost b = o.totalCost b')
    (hj : o.joinRel g a b = some j) (hj' : o.joinRel g a' b' = some j') :
    o.totalCost j = o.totalCost j' :=
  le_antisymm (hm g a a' b b' j j' ha hb hca.le hcb.le hj hj')
    (hm g a' a b' b j' j ha.symm hb.symm hca.ge hcb.ge hj' hj)

end Oracle

variable [LinearOrder C]

/-- An oracle over relations given as a list of relids and a cost: it accepts every pair, and a
join costs its inputs' costs plus one. -/
def sumOracle : Oracle (List Nat × Nat) Nat where
  makeJoinRel a b := some (a.1 ++ b.1, a.2 + b.2 + 1)
  setCheapest _ r := r
  desirableJoin _ _ := true
  relids r := r.1.toFinset
  totalCost r := r.2
  relids_makeJoinRel a b r h := by cases h; exact List.toFinset_append
  relids_setCheapest _ _ := rfl

theorem sumOracle_acceptsDisjoint : sumOracle.AcceptsDisjoint := fun _ _ _ => ⟨_, rfl⟩

theorem sumOracle_costMonotone : sumOracle.CostMonotone := by
  intro g a a' b b' j j' _ _ ha hb hj hj'
  cases hj; cases hj'
  exact Nat.add_le_add_right (Nat.add_le_add ha hb) 1

/-- An oracle whose verdict on a join depends on the relids of its two inputs only; an accepted
join costs its inputs' costs plus one. -/
def pairOracle (accept : Finset Nat → Finset Nat → Bool) : Oracle (List Nat × Nat) Nat where
  makeJoinRel a b :=
    if accept a.1.toFinset b.1.toFinset then some (a.1 ++ b.1, a.2 + b.2 + 1) else none
  setCheapest _ r := r
  desirableJoin _ _ := true
  relids r := r.1.toFinset
  totalCost r := r.2
  relids_makeJoinRel a b r h := by
    simp only at h
    split at h
    · cases h; exact List.toFinset_append
    · cases h
  relids_setCheapest _ _ := rfl

/-- A successful `do` step: the first computation succeeded and so did the rest on its value. -/
theorem bind_eq_ok {α β ε : Type} {x : Except ε α} {f : α → Except ε β} {b : β} :
    x >>= f = .ok b ↔ ∃ a, x = .ok a ∧ f a = .ok b := by
  cases x <;> simp [bind, Except.bind]

theorem bind_eq_error {α β ε : Type} {x : Except ε α} {f : α → Except ε β} {e : ε} :
    x >>= f = .error e ↔ x = .error e ∨ ∃ a, x = .ok a ∧ f a = .error e := by
  cases x <;> simp [bind, Except.bind]

theorem map_eq_ok {α β ε : Type} {f : α → β} {x : Except ε α} {b : β} :
    f <$> x = .ok b ↔ ∃ a, x = .ok a ∧ f a = b := by
  cases x <;> simp [Functor.map, Except.map]

/-- The update of `P[bitmap]` by a join result (`parallel_worker.c:337-341`): a NULL entry takes
the result whatever it is, a non-NULL entry compares its cost with the result's, which faults
when the result is NULL. -/
def keepCheaper (cur j : Option R) : Except Fault (Option R) :=
  match cur, j with
  | none, j => .ok j
  | some _, none => .error .nullJoinCost
  | some c, some j => .ok (if o.totalCost c > o.totalCost j then some j else some c)

/-- One split `(l, r)` of `bitmap`: `P[l] ⋈ P[r]`, paths generated when `make_join_rel`
succeeds, and the keep-the-minimum update of `P[bitmap]`. -/
def trySplit (gather : Bool) (bitmap : Nat) (P : Table R) (lr : Nat × Nat) :
    Except Fault (Table R) :=
  match P lr.1, P lr.2 with
  | some l, some r => do
    let v ← keepCheaper o (P bitmap) (o.joinRel gather l r)
    pure (Function.update P bitmap v)
  | _, _ => .error .nullJoinInput

/-- A split loop: `trySplit` over the splits in order, each on the table the previous one left. -/
def trySplitList (gather : Bool) (bitmap : Nat) (splits : List (Nat × Nat)) (P : Table R) :
    Except Fault (Table R) :=
  splits.foldlM (trySplit o gather bitmap) P

end ParallelJoin
