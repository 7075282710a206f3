import ParallelJoin.ForceMerge
import ParallelJoin.Soundness

/-!
# `parallel_eval`: the cost of a guide tree

`parallel_eval` (`parallel_eval.c:41-81`) asserts that `root->join_rel_level` is NULL, runs
`construct_rel_based_on_plan` on a guide tree and returns the total cost of the cheapest path of
the relation it builds, or `DBL_MAX` when it builds none. The one field of `root` it tests is an
argument, `joinRelLevelSet`; `standard_join_search` sets `join_rel_level` and clears it when it
returns. Around the run it saves and restores `join_rel_list` and `join_rel_hash`; the oracle is
a function of its inputs, so there is nothing to restore in the model. `DBL_MAX` is `⊤` of
`WithTop C`, above every cost.

A guide tree describes a join tree (`GuideTree.toJoinTree`). The assembler reads the length of
an inner node's relid list as the number of relations below it (`parallel_eval.c:149`); a tree
whose lists have that length is `wellSized`.

* When every pair is desirable and the guide tree's own plan exists, `try_merge_clump` joins the
  whole tree into that plan, and `parallel_eval` is its cost (`parallelEval_of_plan`).
* Whatever the oracle does, on initial relations of one relid each the clumps are relations of
  join trees over disjoint parts of the leaves (`Planned`): `try_merge_clump` joins two clumps
  as the node of their trees, `force_merge_clump` joins `old_rel` and `rel` as a node with
  `old_rel` on the left, and both ask for gather paths exactly when the plan of the node does.
  So the relation returned is the plan of a tree over all the relations, never cheaper than the
  least cost over all trees.

Results:
* `parallelEval_eq_plan`: with every pair desirable and every disjoint pair accepted,
  `parallel_eval` returns the cost of the plan the guide tree describes.
* `exists_plan_of_constructRelBasedOnPlan`: on initial relations of one relid each, the
  relation of the assembler is the plan of a join tree over all of them.
* `parallelJoinSearch_le_parallelEval`: the bushy search with one worker returns a relation no
  dearer than `parallel_eval` of any guide tree.
* `parallelEval_parallelJoinSearch`: with every pair desirable, the relation the search returns
  is rebuilt by the assembler from the guide tree of its plan, and `parallel_eval` of that tree
  is its cost.
* `parallelEval_eq_error_iff`: `parallel_eval` faults exactly when `root->join_rel_level` is set
  or a leaf of the guide tree is past `initial_rels`, and then on an `Assert`, its own or
  `list_nth`'s; the `Assert` of `try_merge_clump` never fails.
-/

namespace ParallelJoin

variable {R C : Type}

namespace GuideTree

/-- The join tree a guide tree describes. -/
def toJoinTree : GuideTree → JoinTree
  | leaf i => .leaf i
  | node _ l r => .join l.toJoinTree r.toJoinTree

@[simp] theorem leaves_toJoinTree : ∀ bt : GuideTree, bt.toJoinTree.leaves = bt.leaves
  | leaf _ => rfl
  | node _ l r => by
    rw [toJoinTree, JoinTree.leaves_join, leaves_toJoinTree l, leaves_toJoinTree r]; rfl

/-- Every inner node's relid list has one relid per leaf below it. -/
def wellSized : GuideTree → Bool
  | leaf _ => true
  | node relids l r => relids.length == l.leaves.length + r.leaves.length && l.wellSized &&
      r.wellSized

end GuideTree

namespace JoinTree

/-- The guide tree of a join tree: every inner node lists the ordinals below it. -/
def toGuideTree : JoinTree → GuideTree
  | .leaf i => .leaf i
  | .join l r => .node (l.leaves ++ r.leaves) l.toGuideTree r.toGuideTree

@[simp] theorem toJoinTree_toGuideTree : ∀ t : JoinTree, t.toGuideTree.toJoinTree = t
  | .leaf _ => rfl
  | .join l r => by rw [toGuideTree, GuideTree.toJoinTree, toJoinTree_toGuideTree l,
      toJoinTree_toGuideTree r]

@[simp] theorem leaves_toGuideTree (t : JoinTree) : t.toGuideTree.leaves = t.leaves := by
  rw [← GuideTree.leaves_toJoinTree, toJoinTree_toGuideTree]

theorem wellSized_toGuideTree : ∀ t : JoinTree, t.toGuideTree.wellSized
  | .leaf _ => rfl
  | .join l r => by
    simp only [toGuideTree, GuideTree.wellSized, leaves_toGuideTree, List.length_append,
      beq_self_eq_true, wellSized_toGuideTree l, wellSized_toGuideTree r, Bool.and_self]

end JoinTree

/-- `parallel_eval(root, levels_needed, initial_rels, bt)` (`parallel_eval.c:41-81`), with
`joinRelLevelSet` for `root->join_rel_level != NULL`; `⊤` is `DBL_MAX`. -/
def parallelEval [LinearOrder C] (o : Oracle R C) (joinRelLevelSet : Bool) (levelsNeeded : Nat)
    (initialRels : List R) (bt : GuideTree) : Except Fault (WithTop C) := do
  -- `Assert(root->join_rel_level == NULL)` (`:59`)
  if joinRelLevelSet then throw .assertion
  match ← constructRelBasedOnPlan o levelsNeeded initialRels bt with
  | some joinrel => pure (o.totalCost joinrel)
  | none => pure ⊤

variable {o : Oracle R C}

/-- Below `levels_needed`, "fewer than" and "not all of" are one test. -/
theorem decide_lt_eq_bne {k N : Nat} (h : k ≤ N) : decide (k < N) = (k != N) := by
  by_cases hk : k = N
  · simp [hk]
  · simp [hk, Nat.lt_of_le_of_ne h hk]

/-- A duplicate-free list of ordinals below `N` has at most `N` members. -/
theorem length_le_of_nodup {xs : List Nat} {N : Nat} (hnd : xs.Nodup) (h : ∀ i ∈ xs, i < N) :
    xs.length ≤ N := by
  rw [← List.toFinset_card_of_nodup hnd, ← Finset.card_range N]
  exact Finset.card_le_card fun i hi => Finset.mem_range.mpr (h i (List.mem_toFinset.mp hi))

/-! ## The guide tree's own plan -/

/-- **`try_merge_clump` rebuilds a plan**: when every pair is desirable, a well-sized guide tree
whose own plan exists is joined into that one relation, gather flags included. -/
theorem tryMergeClump_of_plan {N : Nat} {rels : List R} (hdes : ∀ a b, o.desirableJoin a b = true) :
    ∀ (bt : GuideTree) {x : R}, bt.leaves.length ≤ N → bt.wellSized →
      o.plan N rels bt.toJoinTree = some x → tryMergeClump o N rels bt = .ok [x]
  | .leaf i, x, _, _, hx => by
    simp only [GuideTree.toJoinTree, Oracle.plan] at hx
    simp only [tryMergeClump, hx]; rfl
  | .node relids l r, x, hN, hws, hx => by
    simp only [GuideTree.leaves, List.length_append] at hN
    simp only [GuideTree.wellSized, Bool.and_eq_true, beq_iff_eq] at hws
    obtain ⟨⟨hsize, hwl⟩, hwr⟩ := hws
    obtain ⟨a, b, ha, hb, hj⟩ := Oracle.plan_join_eq_some.mp hx
    rw [GuideTree.leaves_toJoinTree, GuideTree.leaves_toJoinTree] at hj
    -- the gather test of the node is the plan's
    have hflag : decide (relids.length < N) = (l.leaves.length + r.leaves.length != N) := by
      rw [hsize]; exact decide_lt_eq_bne hN
    simp only [tryMergeClump, tryMergeClump_of_plan hdes l (by omega) hwl ha,
      tryMergeClump_of_plan hdes r (by omega) hwr hb, bind, Except.bind]
    rw [if_neg (by simp)]
    simp only [hdes, if_true, hflag, hj]
    rfl

/-- With every pair desirable, the assembler returns the plan of a well-sized guide tree
whenever that plan exists, and `parallel_eval` returns its cost. -/
theorem parallelEval_of_plan [LinearOrder C] {N : Nat} {rels : List R} {bt : GuideTree} {x : R}
    (hdes : ∀ a b, o.desirableJoin a b = true) (hN : bt.leaves.length ≤ N) (hws : bt.wellSized)
    (hx : o.plan N rels bt.toJoinTree = some x) :
    constructRelBasedOnPlan o N rels bt = .ok (some x) ∧
      parallelEval o false N rels bt = .ok (WithTop.some (o.totalCost x)) := by
  have hcons : constructRelBasedOnPlan o N rels bt = .ok (some x) := by
    simp only [constructRelBasedOnPlan, tryMergeClump_of_plan hdes bt hN hws hx, bind,
      Except.bind, List.length_singleton, Nat.lt_irrefl, if_false]
    rfl
  refine ⟨hcons, ?_⟩
  simp only [parallelEval, hcons, bind, Except.bind]
  rfl

/-- **`parallel_eval` scores the guide tree's plan.** With `root->join_rel_level` NULL, every
pair desirable and every disjoint pair accepted, initial relations with disjoint relids and a well-sized guide tree over
`0, …, N - 1`: `construct_rel_based_on_plan` returns the relation the tree describes, and
`parallel_eval` its cost. -/
theorem parallelEval_eq_plan [LinearOrder C] (o : Oracle R C) (N : Nat) (rels : List R)
    (bt : GuideTree) (hdes : ∀ a b, o.desirableJoin a b = true) (hacc : o.AcceptsDisjoint)
    (hdisj : o.DisjointRels rels) (hlen : rels.length = N)
    (hleaves : bt.leaves.Perm (List.range N)) (hws : bt.wellSized) :
    ∃ x, o.plan N rels bt.toJoinTree = some x ∧
      constructRelBasedOnPlan o N rels bt = .ok (some x) ∧
      parallelEval o false N rels bt = .ok (o.totalCost x : WithTop C) := by
  obtain ⟨x, hx⟩ : ∃ x, o.plan N rels bt.toJoinTree = some x := Oracle.plan_isSome hacc hdisj
    (by rw [GuideTree.leaves_toJoinTree]; exact hleaves.nodup_iff.mpr (List.nodup_range N))
    (fun i hi => hlen ▸ List.mem_range.mp (hleaves.mem_iff.mp (by simpa using hi)))
  exact ⟨x, hx, parallelEval_of_plan hdes (by rw [hleaves.length_eq, List.length_range]) hws hx⟩

/-- The guide tree `0 ⋈ (1 ⋈ 2)` under an oracle that joins every pair. -/
theorem parallelEval_eq_plan_three :
    ∃ x, sumOracle.plan 3 [([0], 0), ([1], 0), ([2], 0)]
        (GuideTree.node [0, 1, 2] (.leaf 0) (.node [1, 2] (.leaf 1) (.leaf 2))).toJoinTree =
        some x ∧
      constructRelBasedOnPlan sumOracle 3 [([0], 0), ([1], 0), ([2], 0)]
        (.node [0, 1, 2] (.leaf 0) (.node [1, 2] (.leaf 1) (.leaf 2))) = .ok (some x) ∧
      parallelEval sumOracle false 3 [([0], 0), ([1], 0), ([2], 0)]
        (.node [0, 1, 2] (.leaf 0) (.node [1, 2] (.leaf 1) (.leaf 2))) =
        .ok (WithTop.some (sumOracle.totalCost x)) :=
  parallelEval_eq_plan sumOracle 3 _ _ (fun _ _ => rfl) sumOracle_acceptsDisjoint (by decide) rfl
    (by decide) rfl

/-! ## Faults -/

/-- With every leaf among `initial_rels`, `try_merge_clump` returns: the `Assert` that both
lists are single never fails, since no subtree returns NIL. -/
theorem tryMergeClump_isOk {N : Nat} {rels : List R} :
    ∀ bt : GuideTree, (∀ i ∈ bt.leaves, i < rels.length) → ∃ l, tryMergeClump o N rels bt = .ok l
  | .leaf i, hi => ⟨_, by
      simp only [tryMergeClump, List.getElem?_eq_getElem (hi i (List.mem_singleton_self i))]; rfl⟩
  | .node relids left right, hi => by
    simp only [GuideTree.leaves, List.mem_append] at hi
    obtain ⟨l1, h1⟩ : ∃ l, tryMergeClump o N rels left = .ok l :=
      tryMergeClump_isOk left fun i h => hi i (.inl h)
    obtain ⟨l2, h2⟩ : ∃ l, tryMergeClump o N rels right = .ok l :=
      tryMergeClump_isOk right fun i h => hi i (.inr h)
    have hne1 := tryMergeClump_ne_nil left h1
    have hne2 := tryMergeClump_ne_nil right h2
    simp only [tryMergeClump, h1, h2, bind, Except.bind]
    split
    · exact ⟨_, rfl⟩
    · rename_i hlen
      simp only [Bool.or_eq_true, decide_eq_true_eq, not_or, not_lt] at hlen
      match l1, l2, hne1, hne2, hlen with
      | [rel1], [rel2], _, _, _ =>
        dsimp only
        split
        · split <;> exact ⟨_, rfl⟩
        · exact ⟨_, rfl⟩

/-- `try_merge_clump` returns only when every leaf is among `initial_rels`. -/
theorem lt_of_tryMergeClump_eq_ok {N : Nat} {rels : List R} :
    ∀ (bt : GuideTree) {l : List R}, tryMergeClump o N rels bt = .ok l →
      ∀ i ∈ bt.leaves, i < rels.length
  | .leaf i, l, h, k, hk => by
    rw [List.mem_singleton.mp hk]
    simp only [tryMergeClump] at h
    split at h
    · exact (List.getElem?_eq_some_iff.mp ‹_›).1
    · cases h
  | .node relids left right, l, h, k, hk => by
    obtain ⟨l1, l2, h1, h2, -⟩ := tryMergeClump_node_eq_ok h
    rcases List.mem_append.mp hk with hk | hk
    · exact lt_of_tryMergeClump_eq_ok left h1 k hk
    · exact lt_of_tryMergeClump_eq_ok right h2 k hk

/-- `try_merge_clump` fails only on `list_nth`'s `Assert`. -/
theorem eq_assertion_of_tryMergeClump {N : Nat} {rels : List R} :
    ∀ (bt : GuideTree) {e : Fault}, tryMergeClump o N rels bt = .error e → e = .assertion
  | .leaf i, e, h => by
    simp only [tryMergeClump] at h
    split at h <;> cases h; rfl
  | .node relids left right, e, h => by
    simp only [tryMergeClump, bind_eq_error] at h
    rcases h with h | ⟨l1, -, h | ⟨l2, -, h⟩⟩
    · exact eq_assertion_of_tryMergeClump left h
    · exact eq_assertion_of_tryMergeClump right h
    · -- past both children, only the `Assert` on two single lists throws
      repeat' split at h
      all_goals cases h <;> rfl

/-- After `try_merge_clump`, `parallel_eval` returns. -/
theorem parallelEval_of_tryMergeClump [LinearOrder C] (o : Oracle R C) {N : Nat} {rels : List R}
    {bt : GuideTree} {l : List R} (h : tryMergeClump o N rels bt = .ok l) :
    ∃ v, parallelEval o false N rels bt = .ok v := by
  simp only [parallelEval, constructRelBasedOnPlan, h, bind, Except.bind]
  generalize (if 1 < l.length then _ else l) = relList
  rcases relList with _ | ⟨y, _ | ⟨z, t⟩⟩ <;> exact ⟨_, rfl⟩

/-- `try_merge_clump` faults exactly when a leaf is past `initial_rels`, on `list_nth`'s
`Assert`. -/
theorem tryMergeClump_eq_error_iff {N : Nat} {rels : List R} {bt : GuideTree} {e : Fault} :
    tryMergeClump o N rels bt = .error e ↔ e = .assertion ∧ ∃ i ∈ bt.leaves, rels.length ≤ i := by
  constructor
  · intro h
    refine ⟨eq_assertion_of_tryMergeClump bt h, ?_⟩
    by_contra hlt
    push_neg at hlt
    obtain ⟨l, hl⟩ : ∃ l, tryMergeClump o N rels bt = .ok l := tryMergeClump_isOk bt hlt
    rw [hl] at h; cases h
  · rintro ⟨rfl, i, hi, hle⟩
    cases h : tryMergeClump o N rels bt with
    | error e' => rw [← eq_assertion_of_tryMergeClump bt h]
    | ok l => exact absurd (lt_of_tryMergeClump_eq_ok bt h i hi) (Nat.not_lt.mpr hle)

/-- **`parallel_eval` faults exactly when `root->join_rel_level` is set or a leaf is past
`initial_rels`**, and then on an `Assert`: its own, or `list_nth`'s. The `Assert` of
`try_merge_clump` never fails, and nothing after `try_merge_clump` faults. -/
theorem parallelEval_eq_error_iff [LinearOrder C] (o : Oracle R C) (joinRelLevelSet : Bool)
    (N : Nat) (rels : List R) (bt : GuideTree) (e : Fault) :
    parallelEval o joinRelLevelSet N rels bt = .error e ↔
      e = .assertion ∧ (joinRelLevelSet = true ∨ ∃ i ∈ bt.leaves, rels.length ≤ i) := by
  cases joinRelLevelSet with
  | true =>
    rw [show parallelEval o true N rels bt = .error .assertion from rfl]
    simp [eq_comm]
  | false =>
    rw [Bool.false_eq_true, false_or, ← tryMergeClump_eq_error_iff]
    cases h : tryMergeClump o N rels bt with
    | error e' => simp [parallelEval, constructRelBasedOnPlan, h, bind, Except.bind, pure, Except.pure]
    | ok l =>
      obtain ⟨v, hv⟩ := parallelEval_of_tryMergeClump o h
      simp [hv]

/-! ## The clumps are plans -/

/-- The clumps `l` come with join trees that build them, and the trees' leaves make up `S`. -/
def Planned (o : Oracle R C) (N : Nat) (rels : List R) (l : List R) (S : List Nat) : Prop :=
  ∃ ps : List (R × JoinTree), (ps.map Prod.fst).Perm l ∧
    (∀ p ∈ ps, o.plan N rels p.2 = some p.1) ∧ (ps.flatMap fun p => p.2.leaves).Perm S

section Planned

variable {N : Nat} {rels : List R}

theorem Planned.perm {l l' : List R} {S S' : List Nat} (h : Planned o N rels l S)
    (hl : l.Perm l') (hS : S.Perm S') : Planned o N rels l' S' :=
  let ⟨ps, h1, h2, h3⟩ := h
  ⟨ps, h1.trans hl, h2, h3.trans hS⟩

theorem Planned.append {l l' : List R} {S S' : List Nat} (h : Planned o N rels l S)
    (h' : Planned o N rels l' S') : Planned o N rels (l ++ l') (S ++ S') :=
  let ⟨ps, h1, h2, h3⟩ := h
  let ⟨ps', h1', h2', h3'⟩ := h'
  ⟨ps ++ ps', by rw [List.map_append]; exact h1.append h1',
    fun p hp => (List.mem_append.mp hp).elim (h2 p) (h2' p),
    by rw [List.flatMap_append]; exact h3.append h3'⟩

theorem planned_singleton {r : R} {t : JoinTree} (h : o.plan N rels t = some r) :
    Planned o N rels [r] t.leaves :=
  ⟨[(r, t)], List.Perm.refl _, by simpa using h, by simp⟩

/-- The tree of the first clump, and the others. -/
theorem Planned.cons_inv {r : R} {l : List R} {S : List Nat} (h : Planned o N rels (r :: l) S) :
    ∃ t S', o.plan N rels t = some r ∧ Planned o N rels l S' ∧ S.Perm (t.leaves ++ S') := by
  obtain ⟨ps, h1, h2, h3⟩ := h
  obtain ⟨p, hp, rfl⟩ := List.mem_map.mp (h1.symm.subset (List.mem_cons_self _ l))
  obtain ⟨s, t, rfl⟩ := List.append_of_mem hp
  have hps : (s ++ p :: t).Perm (p :: (s ++ t)) := List.perm_middle
  refine ⟨p.2, (s ++ t).flatMap fun p => p.2.leaves, h2 p hp,
    ⟨s ++ t, ((hps.map Prod.fst).symm.trans h1).cons_inv,
      fun q hq => h2 q (hps.symm.subset (List.mem_cons_of_mem p hq)), List.Perm.refl _⟩, ?_⟩
  exact h3.symm.trans (hps.flatMap_right _)

theorem Planned.nil_inv {S : List Nat} (h : Planned o N rels [] S) : S = [] := by
  obtain ⟨ps, h1, -, h3⟩ := h
  rw [List.eq_nil_of_map_eq_nil (List.perm_nil.mp h1), List.flatMap_nil] at h3
  exact List.perm_nil.mp h3.symm

/-- A single clump is the plan of a tree over `S`. -/
theorem Planned.singleton_inv {r : R} {S : List Nat} (h : Planned o N rels [r] S) :
    ∃ t, o.plan N rels t = some r ∧ t.leaves.Perm S := by
  obtain ⟨t, S', ht, hp, hS⟩ := h.cons_inv
  rw [hp.nil_inv, List.append_nil] at hS
  exact ⟨t, ht, hS.symm⟩

end Planned

/-- On initial relations of one relid each, a set of them has one relid per member. -/
theorem card_cover_bitmapOf {rels : List R} (hbase : ∀ r ∈ rels, (o.relids r).card = 1)
    (hdisj : o.DisjointRels rels) :
    ∀ {xs : List Nat}, xs.Nodup → (∀ i ∈ xs, i < rels.length) →
      (o.cover rels (bitmapOf xs)).card = xs.length
  | [], _, _ => by simp [bitmapOf, Oracle.cover]
  | x :: xs, hnd, hi => by
    rw [List.nodup_cons] at hnd
    have hx : x < rels.length := hi x (List.mem_cons_self x xs)
    have hd : Disjoint (o.cover rels (bitmapOf [x])) (o.cover rels (bitmapOf xs)) :=
      Oracle.disjoint_cover hdisj (Oracle.bitmapOf_and_eq_zero (List.singleton_disjoint.mpr hnd.1))
    rw [← List.singleton_append, bitmapOf_append, Oracle.cover_or, Finset.card_union_of_disjoint hd,
      card_cover_bitmapOf hbase hdisj hnd.2 fun i h => hi i (List.mem_cons_of_mem x h),
      bitmapOf_singleton, Oracle.cover_one_shiftLeft hx, Oracle.relidsAt,
      List.getElem?_eq_getElem hx, hbase _ (List.getElem_mem hx), List.length_append,
      List.length_singleton, Nat.add_comm]

/-- The scan of `force_merge_clump`, with the join it makes: `make_join_rel(old_rel, rel)`,
then paths with the gather test on the join's relids. -/
theorem findJoin_eq_some {N : Nat} {rel : R} :
    ∀ {l rest : List R} {j : R}, findJoin o N rel l = some (rest, j) →
      ∃ old j0, (old :: rest).Perm l ∧ o.makeJoinRel old rel = some j0 ∧
        j = o.setCheapest (decide ((o.relids j0).card < N)) j0
  | [], _, _, h => by cases h
  | old :: l, rest, j, h => by
    unfold findJoin at h
    split at h
    · cases h
      exact ⟨old, _, List.Perm.refl _, ‹_›, rfl⟩
    · obtain ⟨⟨rest', j'⟩, h', he⟩ := Option.map_eq_some'.mp h
      cases he
      obtain ⟨old', j0, hperm, hj0, rfl⟩ := findJoin_eq_some h'
      exact ⟨old', j0, (List.Perm.swap old old' rest').trans (hperm.cons old), hj0, rfl⟩

section Force

variable {N : Nat} {rels : List R} {S : List Nat} (hbase : ∀ r ∈ rels, (o.relids r).card = 1)
  (hdisj : o.DisjointRels rels) (hlen : rels.length = N) (hS : S.Nodup) (hSN : ∀ i ∈ S, i < N)
include hbase hdisj hlen hS hSN

/-- **Step lemma of the scan**: the join of `old_rel` and `rel` is the plan of the node over
their trees, `old_rel`'s on the left, with the same gather test. -/
theorem planned_findJoin {rel j : R} {l rest e : List R}
    (hp : Planned o N rels (rel :: l ++ e) S) (h : findJoin o N rel l = some (rest, j)) :
    Planned o N rels (j :: rest ++ e) S := by
  obtain ⟨old, j0, hperm, hj0, rfl⟩ := findJoin_eq_some h
  obtain ⟨trel, S1, hrel, hp1, hS1⟩ := hp.cons_inv
  obtain ⟨told, S2, hold, hp2, hS2⟩ :=
    (hp1.perm (hperm.symm.append_right e) (List.Perm.refl S1)).cons_inv
  have hS' : S.Perm ((told.leaves ++ trel.leaves) ++ S2) := by
    refine (hS1.trans (hS2.append_left trel.leaves)).trans ?_
    rw [← List.append_assoc]
    exact List.perm_append_comm.append_right S2
  have hnd : (told.leaves ++ trel.leaves).Nodup :=
    (hS'.nodup_iff.mp hS).sublist (List.sublist_append_left _ _)
  have hlt : ∀ i ∈ told.leaves ++ trel.leaves, i < N :=
    fun i hi => hSN i (hS'.mem_iff.mpr (List.mem_append_left _ hi))
  -- the join has one relid per leaf of the node, at most `N`
  have hcard : (o.relids j0).card = told.leaves.length + trel.leaves.length := by
    rw [o.relids_makeJoinRel _ _ _ hj0, Oracle.relids_plan hold, Oracle.relids_plan hrel,
      ← Oracle.cover_or, ← bitmapOf_append,
      card_cover_bitmapOf hbase hdisj hnd fun i hi => hlen ▸ hlt i hi, List.length_append]
  have hflag : decide ((o.relids j0).card < N) = (told.leaves.length + trel.leaves.length != N) := by
    rw [hcard, ← List.length_append]; exact decide_lt_eq_bne (length_le_of_nodup hnd hlt)
  have hplan : o.plan N rels (.join told trel) =
      some (o.setCheapest (decide ((o.relids j0).card < N)) j0) :=
    Oracle.plan_join_eq_some.mpr ⟨old, rel, hold, hrel, by rw [hflag, Oracle.joinRel, hj0]; rfl⟩
  exact ((planned_singleton hplan).append hp2).perm (List.Perm.refl _) hS'.symm

/-- **Step lemma of a force merge**: the clumps stay plans over the same leaves. -/
theorem planned_forceMergeClump {e : List R} (l : List R) (rel : R)
    (hp : Planned o N rels (rel :: l ++ e) S) :
    Planned o N rels (forceMergeClump o N l rel ++ e) S := by
  induction l, rel using forceMergeClump.induct o N with
  | case1 l rel rest j h ih =>
    rw [forceMergeClump_of_some o h]
    exact ih (planned_findJoin hbase hdisj hlen hS hSN hp h)
  | case2 l rel h =>
    rw [forceMergeClump_of_none o h]
    exact hp.perm ((insertClump_perm l rel).symm.append_right e) (List.Perm.refl S)

/-- **Run lemma of the force phase.** -/
theorem planned_foldl_forceMergeClump :
    ∀ (l : List R) {acc : List R}, Planned o N rels (acc ++ l) S →
      Planned o N rels (l.foldl (fun f r => forceMergeClump o N f r) acc) S
  | [], acc, h => by simpa using h
  | rel :: l, acc, h =>
    planned_foldl_forceMergeClump l
      (planned_forceMergeClump hbase hdisj hlen hS hSN acc rel
        (h.perm List.perm_middle (List.Perm.refl S)))

end Force

/-- **Step lemma of `try_merge_clump`**: its clumps are plans over the tree's leaves, and its
join of two clumps is the plan of the node over their trees. -/
theorem planned_tryMergeClump {N : Nat} {rels : List R} (hlen : rels.length = N) :
    ∀ bt : GuideTree, bt.leaves.Nodup → (∀ i ∈ bt.leaves, i < N) → bt.wellSized →
      ∀ {l : List R}, tryMergeClump o N rels bt = .ok l → Planned o N rels l bt.leaves
  | .leaf i, _, _, _, l, h => by
    simp only [tryMergeClump] at h
    split at h
    · cases h
      exact planned_singleton (show o.plan N rels (.leaf i) = some _ from ‹_›)
    · cases h
  | .node relids left right, hnd, hi, hws, l, h => by
    obtain ⟨l1, l2, h1, h2, hl⟩ := tryMergeClump_node_eq_ok h
    have hN := length_le_of_nodup hnd hi
    simp only [GuideTree.leaves, List.nodup_append, List.mem_append, List.length_append] at hnd hi hN
    simp only [GuideTree.wellSized, Bool.and_eq_true, beq_iff_eq] at hws
    obtain ⟨⟨hsize, hwl⟩, hwr⟩ := hws
    have p1 := planned_tryMergeClump hlen left hnd.1 (fun i h => hi i (.inl h)) hwl h1
    have p2 := planned_tryMergeClump hlen right hnd.2.1 (fun i h => hi i (.inr h)) hwr h2
    rcases hl with rfl | ⟨rel1, rel2, j, rfl, rfl, hj, rfl⟩
    · exact p1.append p2
    · obtain ⟨t1, ht1, hl1⟩ := p1.singleton_inv
      obtain ⟨t2, ht2, hl2⟩ := p2.singleton_inv
      -- the gather test of the node is the plan's
      have hflag : decide (relids.length < N) = (t1.leaves.length + t2.leaves.length != N) := by
        rw [hsize, hl1.length_eq, hl2.length_eq]; exact decide_lt_eq_bne hN
      exact (planned_singleton (Oracle.plan_join_eq_some.mpr ⟨rel1, rel2, ht1, ht2, hflag ▸ hj⟩)).perm
        (List.Perm.refl _) (hl1.append hl2)

/-! ## The assembler builds a plan -/

/-- The relation of the assembler is a plan over all the relations. -/
theorem exists_plan_of_construct {N : Nat} {rels : List R} {bt : GuideTree} {r : R}
    (hlen : rels.length = N) (hbase : ∀ x ∈ rels, (o.relids x).card = 1)
    (hdisj : o.DisjointRels rels) (hleaves : bt.leaves.Perm (List.range N)) (hws : bt.wellSized)
    (h : constructRelBasedOnPlan o N rels bt = .ok (some r)) :
    ∃ t : JoinTree, t.leaves.Perm (List.range N) ∧ o.plan N rels t = some r := by
  have hnd : bt.leaves.Nodup := hleaves.nodup_iff.mpr (List.nodup_range N)
  have hlt : ∀ i ∈ bt.leaves, i < N := fun i hi => List.mem_range.mp (hleaves.mem_iff.mp hi)
  cases htry : tryMergeClump o N rels bt with
  | error e => simp [constructRelBasedOnPlan, htry, bind, Except.bind] at h
  | ok l =>
    have hp := planned_tryMergeClump hlen bt hnd hlt hws htry
    -- the force phase, when there is more than one clump
    have hphase : Planned o N rels (if 1 < l.length then
        l.foldl (fun f r => forceMergeClump o N f r) [] else l) bt.leaves := by
      split
      · exact planned_foldl_forceMergeClump hbase hdisj hlen hnd hlt l (by rwa [List.nil_append])
      · exact hp
    simp only [constructRelBasedOnPlan, htry, bind, Except.bind] at h
    generalize (if 1 < l.length then _ else l) = relList at h hphase
    rcases relList with _ | ⟨y, _ | ⟨z, t⟩⟩
    · cases h
    · cases h
      obtain ⟨t, ht, hl⟩ := hphase.singleton_inv
      exact ⟨t, hl.trans hleaves, ht⟩
    · cases h

/-- **The relation of the clump assembler is a plan.** On initial relations of one relid each
and a well-sized guide tree over `0, …, N - 1`, whatever the oracle accepts and finds
desirable: the relation `construct_rel_based_on_plan` returns is the plan of a join tree over
all `N` relations. -/
theorem exists_plan_of_constructRelBasedOnPlan (o : Oracle R C) (N : Nat) (rels : List R)
    (bt : GuideTree) (r : R) (hlen : rels.length = N) (hbase : ∀ x ∈ rels, (o.relids x).card = 1)
    (hdisj : o.DisjointRels rels) (hleaves : bt.leaves.Perm (List.range N)) (hws : bt.wellSized)
    (h : constructRelBasedOnPlan o N rels bt = .ok (some r)) :
    ∃ t : JoinTree, t.leaves.Perm (List.range N) ∧ o.plan N rels t = some r :=
  exists_plan_of_construct hlen hbase hdisj hleaves hws h

/-- Three base relations under the guide tree `0 ⋈ (1 ⋈ 2)`. -/
theorem exists_plan_of_constructRelBasedOnPlan_three :
    ∃ t : JoinTree, t.leaves.Perm (List.range 3) ∧
      sumOracle.plan 3 [([0], 0), ([1], 0), ([2], 0)] t = some ([0, 1, 2], 2) :=
  exists_plan_of_constructRelBasedOnPlan sumOracle 3 _
    (.node [0, 1, 2] (.leaf 0) (.node [1, 2] (.leaf 1) (.leaf 2))) _ rfl (by decide) (by decide)
    (by decide) rfl rfl

/-- **The search is never dearer than `parallel_eval`.** For a positive multiple `N` of 3 with
`N ≤ 26`, initial relations of one relid each, an oracle that accepts disjoint pairs with join costs
monotone in their inputs, and any well-sized guide tree over `0, …, N - 1`: the bushy
`parallel_join_search` with one worker returns a relation whose cost is at most
`parallel_eval` of the tree, with `root->join_rel_level` NULL. -/
theorem parallelJoinSearch_le_parallelEval [LinearOrder C] {S : Type} (o : Oracle R C) (root : S)
    (N : Nat) (rels : List R) (bt : GuideTree) (hN : 3 ∣ N) (hpos : 0 < N) (hfit : N ≤ 26)
    (hlen : rels.length = N) (hbase : ∀ x ∈ rels, (o.relids x).card = 1)
    (hdisj : o.DisjointRels rels) (hacc : o.AcceptsDisjoint) (hmono : o.CostMonotone)
    (hleaves : bt.leaves.Perm (List.range N)) (hws : bt.wellSized) :
    ∃ r1 v, parallelJoinSearch o root N rels 1 .bushy = .ok (r1, root) ∧
      parallelEval o false N rels bt = .ok v ∧ (o.totalCost r1 : WithTop C) ≤ v := by
  obtain ⟨r1, hr1, hmin1⟩ := worker_minCost o .bushy N 0 0 rels (.inr ⟨rfl, hN, hpos⟩) hfit hlen
    hdisj hacc hmono
  have hmin := hmin1.of_iff fun _ => ⟨searches_shape, searches_one⟩
  obtain ⟨l, hl⟩ : ∃ l, tryMergeClump o N rels bt = .ok l :=
    tryMergeClump_isOk bt fun i hi => hlen ▸ List.mem_range.mp (hleaves.mem_iff.mp hi)
  obtain ⟨v, hv⟩ := parallelEval_of_tryMergeClump o hl
  refine ⟨r1, v, parallelJoinSearch_one root hpos hr1, hv, ?_⟩
  cases hc : constructRelBasedOnPlan o N rels bt with
  | error e => simp [parallelEval, hc, bind, Except.bind, pure, Except.pure] at hv
  | ok res =>
    cases res with
    | none =>
      simp only [parallelEval, hc, bind, Except.bind, pure, Except.pure] at hv
      cases hv; exact le_top
    | some r =>
      simp only [parallelEval, hc, bind, Except.bind, pure, Except.pure] at hv
      cases hv
      obtain ⟨t, ht, hplan⟩ := exists_plan_of_construct hlen hbase hdisj hleaves hws hc
      obtain ⟨y, hy, hle⟩ := hmin.le_plan t ht trivial
      rw [hplan, Option.some.injEq] at hy
      exact WithTop.coe_le_coe.mpr (hy ▸ hle)

/-- Three base relations under the guide tree `0 ⋈ (1 ⋈ 2)`. -/
theorem parallelJoinSearch_le_parallelEval_three :
    ∃ r1 v, parallelJoinSearch sumOracle () 3 [([0], 0), ([1], 0), ([2], 0)] 1 .bushy =
        .ok (r1, ()) ∧
      parallelEval sumOracle false 3 [([0], 0), ([1], 0), ([2], 0)]
        (.node [0, 1, 2] (.leaf 0) (.node [1, 2] (.leaf 1) (.leaf 2))) = .ok v ∧
      WithTop.some (sumOracle.totalCost r1) ≤ v :=
  parallelJoinSearch_le_parallelEval sumOracle () 3 _ _ (by decide) (by decide) (by decide) rfl
    (by decide)
    (by decide) sumOracle_acceptsDisjoint sumOracle_costMonotone (by decide) rfl

/-! ## The search's plan, replayed -/

/-- **`parallel_eval` reproduces the search.** For every oracle under which every pair is
desirable (every two relations share a join clause): the relation `parallel_join_search`
returns, left-deep over an even `N ≥ 2` with constraints among the first `N` ordinals or bushy
over a multiple of 3, is the relation `construct_rel_based_on_plan` builds from the guide tree
of its plan, a tree some worker searches, and `parallel_eval` of that tree, with
`root->join_rel_level` NULL, is its cost. -/
theorem parallelEval_parallelJoinSearch [LinearOrder C] {S : Type} (o : Oracle R C) (root : S)
    (pType : PType) (N W : Nat) (rels : List R) (r : R) (root' : S)
    (hN : pType = .leftDeep ∧ 2 ∣ N ∧ 2 ≤ N ∧ 2 * Nat.clog 2 W ≤ N ∨ pType = .bushy ∧ 3 ∣ N)
    (hdes : ∀ a b, o.desirableJoin a b = true)
    (h : parallelJoinSearch o root N rels W pType = .ok (r, root')) :
    ∃ p < W, ∃ bt : GuideTree, bt.leaves.Perm (List.range N) ∧ bt.wellSized ∧
      Searches pType N p W bt.toJoinTree ∧ constructRelBasedOnPlan o N rels bt = .ok (some r) ∧
      parallelEval o false N rels bt = .ok (WithTop.some (o.totalCost r)) := by
  obtain ⟨-, -, p, hp, t, hperm, hs, ht⟩ := exists_plan_of_parallelJoinSearch hN h
  have hws := JoinTree.wellSized_toGuideTree t
  refine ⟨p, hp, t.toGuideTree, by rwa [JoinTree.leaves_toGuideTree], hws,
    by rwa [JoinTree.toJoinTree_toGuideTree], parallelEval_of_plan hdes ?_ hws
      (by rwa [JoinTree.toJoinTree_toGuideTree])⟩
  rw [JoinTree.leaves_toGuideTree, hperm.length_eq, List.length_range]

/-- Three relations, one bushy worker: the plan it returns, replayed as a guide tree. -/
theorem parallelEval_parallelJoinSearch_three :
    ∃ r, parallelJoinSearch sumOracle () 3 [([0], 0), ([1], 0), ([2], 0)] 1 .bushy = .ok (r, ()) ∧
      ∃ p < 1, ∃ bt : GuideTree, bt.leaves.Perm (List.range 3) ∧ bt.wellSized ∧
        Searches .bushy 3 p 1 bt.toJoinTree ∧
        constructRelBasedOnPlan sumOracle 3 [([0], 0), ([1], 0), ([2], 0)] bt = .ok (some r) ∧
        parallelEval sumOracle false 3 [([0], 0), ([1], 0), ([2], 0)] bt =
          .ok (WithTop.some (sumOracle.totalCost r)) :=
  ⟨_, rfl, parallelEval_parallelJoinSearch sumOracle () .bushy 3 1 _ _ ()
    (.inr ⟨rfl, by decide⟩) (fun _ _ => rfl) rfl⟩

end ParallelJoin
