import ParallelJoin.Oracle
import ParallelJoin.Partition

/-!
# Join trees, left-deep orders and the coverage of the partitions

A plan is a binary `JoinTree` over the ordinals of `initial_rels`. `JoinTree.plan` builds its
relation through the oracle the way the worker does: a join node of `k` leaves generates
gather paths unless `k = levels_needed` (`parallel_worker.c:332-333`, `:561-562`). A left-deep
plan is `leftDeep x rest`: it joins the relations in the order `x :: rest`.

The worker with `part_id = p` only searches the plans allowed by its constraints: orders that
`Respects` `part_constraints`, and trees whose nodes are all `AdmissibleB` under
`part_constraints_b` (`NodesAdmissible`).

Results:
* `relids_plan`, `plan_isSome`: a plan covers exactly its leaves' relations, and with an
  oracle that accepts disjoint pairs every tree with distinct leaves has a plan.
* `sublist_pair_iff_take`: `a` comes before `b` in an order iff every prefix holding `b` holds
  `a`; so an order respects the constraints iff all its prefixes are admissible
  (`respects_iff_take`).
* `nodes_laminar`: the node sets of a tree with distinct leaves are nested or disjoint.
* `partitions_cover`: for `W = 2^k` workers, every order respects the constraints of exactly
  one `part_id`, and every tree is admissible under those of at least one; for other `W` both
  fail (`partitions_cover_three`).
-/

namespace ParallelJoin

/-- A binary join tree over relation ordinals. -/
inductive JoinTree
  | leaf (i : Nat)
  | join (l r : JoinTree)
  deriving DecidableEq, Repr

namespace JoinTree

/-- The ordinals at the leaves, left to right. -/
def leaves : JoinTree → List Nat
  | leaf i => [i]
  | join l r => l.leaves ++ r.leaves

/-- The leaf lists of all nodes, leaves included. -/
def nodes : JoinTree → List (List Nat)
  | leaf i => [[i]]
  | join l r => (l.leaves ++ r.leaves) :: (l.nodes ++ r.nodes)

/-- Every right child is a leaf. -/
def isLeftDeep : JoinTree → Bool
  | leaf _ => true
  | join l (leaf _) => l.isLeftDeep
  | join _ (join _ _) => false

/-- The leaf lists of the left spine: the intermediate results of a left-deep plan. -/
def spine : JoinTree → List (List Nat)
  | leaf i => [[i]]
  | join l r => (l.leaves ++ r.leaves) :: l.spine

@[simp] theorem leaves_leaf (i : Nat) : (leaf i).leaves = [i] := rfl
@[simp] theorem leaves_join (l r : JoinTree) : (join l r).leaves = l.leaves ++ r.leaves := rfl
@[simp] theorem nodes_leaf (i : Nat) : (leaf i).nodes = [[i]] := rfl
@[simp] theorem nodes_join (l r : JoinTree) :
    (join l r).nodes = (l.leaves ++ r.leaves) :: (l.nodes ++ r.nodes) := rfl

theorem leaves_ne_nil : ∀ t : JoinTree, t.leaves ≠ []
  | leaf _ => by simp
  | join l _ => by simp [l.leaves_ne_nil]

/-- A tree with distinct leaves and one leaf bit is that leaf. -/
theorem eq_leaf_of_bitmapOf {t : JoinTree} {i : Nat} (hnd : t.leaves.Nodup)
    (h : bitmapOf t.leaves = 1 <<< i) : t = leaf i := by
  have hmem : ∀ z, z ∈ t.leaves ↔ z = i := fun z =>
    Iff.symm (by simpa [eq_comm] using congrArg (Nat.testBit · z) h)
  cases t with
  | leaf j => simpa using (hmem j).mp (by simp)
  | join l r =>
    obtain ⟨x, hx⟩ := List.exists_mem_of_ne_nil _ l.leaves_ne_nil
    obtain ⟨y, hy⟩ := List.exists_mem_of_ne_nil _ r.leaves_ne_nil
    have hxy : x = y := ((hmem x).mp (by simp [hx])).trans ((hmem y).mp (by simp [hy])).symm
    exact absurd (hxy ▸ hy) ((List.nodup_append.mp hnd).2.2 hx)

/-- Each node's leaves are leaves of the tree. -/
theorem subset_of_mem_nodes : ∀ {t : JoinTree} {X : List Nat}, X ∈ t.nodes → ∀ z ∈ X, z ∈ t.leaves
  | leaf _, X, h => by simp only [nodes_leaf, List.mem_singleton] at h; simp [h]
  | join l r, X, h => by
    simp only [nodes_join, List.mem_cons, List.mem_append] at h
    rcases h with rfl | h | h
    · exact fun z hz => by simpa using hz
    · exact fun z hz => by simp [subset_of_mem_nodes h z hz]
    · exact fun z hz => by simp [subset_of_mem_nodes h z hz]

/-- **Laminarity**: two node sets of a tree with distinct leaves are nested or disjoint. -/
theorem nodes_laminar : ∀ {t : JoinTree}, t.leaves.Nodup → ∀ X ∈ t.nodes, ∀ Y ∈ t.nodes,
    ∀ z ∈ X, z ∈ Y → (∀ w ∈ X, w ∈ Y) ∨ (∀ w ∈ Y, w ∈ X)
  | leaf _, _, X, hX, Y, hY, _, _, _ => by
    simp only [nodes_leaf, List.mem_singleton] at hX hY; subst hX hY; exact .inl fun _ h => h
  | join l r, hnd, X, hX, Y, hY, z, hzX, hzY => by
    obtain ⟨hl, hr, hlr⟩ := List.nodup_append.mp hnd
    simp only [nodes_join, List.mem_cons, List.mem_append] at hX hY
    rcases hX with rfl | hX | hX
    · exact .inr fun w hw => by
        rcases hY with rfl | hY | hY
        · exact hw
        · simp [subset_of_mem_nodes hY w hw]
        · simp [subset_of_mem_nodes hY w hw]
    all_goals rcases hY with rfl | hY | hY
    · exact .inl fun w hw => by simp [subset_of_mem_nodes hX w hw]
    · exact nodes_laminar hl X hX Y hY z hzX hzY
    · exact absurd (subset_of_mem_nodes hY z hzY) (hlr (subset_of_mem_nodes hX z hzX))
    · exact .inl fun w hw => by simp [subset_of_mem_nodes hX w hw]
    · exact absurd (subset_of_mem_nodes hX z hzX) (hlr (subset_of_mem_nodes hY z hzY))
    · exact nodes_laminar hr X hX Y hY z hzX hzY

end JoinTree

open JoinTree

/-! ## Left-deep orders -/

/-- The left-deep tree that joins `x`, then each ordinal of `rest` in turn. -/
def leftDeep (x : Nat) (rest : List Nat) : JoinTree :=
  rest.foldl (fun t u => .join t (.leaf u)) (.leaf x)

theorem leftDeep_append (x : Nat) (rest : List Nat) (u : Nat) :
    leftDeep x (rest ++ [u]) = .join (leftDeep x rest) (.leaf u) := by
  simp [leftDeep, List.foldl_append]

@[simp] theorem leaves_leftDeep (x : Nat) (rest : List Nat) :
    (leftDeep x rest).leaves = x :: rest := by
  induction rest using List.reverseRecOn with
  | nil => rfl
  | append_singleton rest u ih => simp [leftDeep_append, ih]

theorem isLeftDeep_leftDeep (x : Nat) (rest : List Nat) : (leftDeep x rest).isLeftDeep := by
  induction rest using List.reverseRecOn with
  | nil => rfl
  | append_singleton rest u ih => simpa [leftDeep_append, isLeftDeep] using ih

/-- Every left-deep tree is the tree of its leaf order. -/
theorem eq_leftDeep : ∀ t : JoinTree, t.isLeftDeep → ∃ x rest, t = leftDeep x rest
  | .leaf x, _ => ⟨x, [], rfl⟩
  | .join l (.leaf u), h => by
    obtain ⟨x, rest, rfl⟩ := eq_leftDeep l (by simpa [isLeftDeep] using h)
    exact ⟨x, rest ++ [u], (leftDeep_append x rest u).symm⟩
  | .join _ (.join _ _), h => by simp [isLeftDeep] at h

/-- The spine of `leftDeep x rest` is its nonempty prefixes. -/
theorem mem_spine_leftDeep {x : Nat} {rest : List Nat} {X : List Nat} :
    X ∈ (leftDeep x rest).spine ↔ ∃ j, 0 < j ∧ X = (x :: rest).take j := by
  induction rest using List.reverseRecOn generalizing X with
  | nil =>
    simp only [leftDeep, List.foldl_nil, spine, List.mem_singleton]
    refine ⟨fun h => ⟨1, Nat.one_pos, by simp [h]⟩, fun ⟨j, hj, h⟩ => ?_⟩
    obtain ⟨j, rfl⟩ := Nat.exists_eq_add_of_lt hj
    simpa using h
  | append_singleton rest u ih =>
    rw [leftDeep_append, spine, List.mem_cons, ih, leaves_leftDeep, leaves_leaf]
    constructor
    · rintro (rfl | ⟨j, hj, rfl⟩)
      · exact ⟨rest.length + 2, by omega, by simp⟩
      · refine ⟨min j (rest.length + 1), by omega, ?_⟩
        rw [← List.cons_append, List.take_append_eq_append_take]
        simp [List.take_take]
    · rintro ⟨j, hj, rfl⟩
      by_cases hjl : j ≤ rest.length + 1
      · exact .inr ⟨j, hj, by rw [← List.cons_append, List.take_append_of_le_length (by simpa using hjl)]⟩
      · exact .inl (by rw [List.take_of_length_le (by simp; omega)]; rfl)

/-- `σ` places `a` before `b` for every constraint `(a, b)`. -/
def Respects (σ : List Nat) (cs : List (Nat × Nat)) : Prop := ∀ c ∈ cs, List.Sublist [c.1, c.2] σ

instance (σ : List Nat) (cs : List (Nat × Nat)) : Decidable (Respects σ cs) :=
  inferInstanceAs (Decidable (∀ c ∈ cs, List.Sublist [c.1, c.2] σ))

/-- In an order without repeats, `a` comes before `b` iff every prefix holding `b` holds `a`. -/
theorem sublist_pair_iff_take {a b : Nat} (hab : a ≠ b) :
    ∀ {σ : List Nat}, σ.Nodup → b ∈ σ → (List.Sublist [a, b] σ ↔ ∀ j, b ∈ σ.take j → a ∈ σ.take j)
  | [], _, hb => absurd hb (List.not_mem_nil b)
  | z :: σ, hnd, hb => by
    obtain ⟨hz, hnd⟩ := List.nodup_cons.mp hnd
    have hstep : ∀ j, (b ∈ (z :: σ).take (j + 1) → a ∈ (z :: σ).take (j + 1)) ↔
        (b = z ∨ b ∈ σ.take j → a = z ∨ a ∈ σ.take j) := fun j => by simp
    by_cases hza : z = a
    · subst hza
      have hbσ : b ∈ σ := (List.mem_cons.mp hb).resolve_left (Ne.symm hab)
      simp only [List.cons_sublist_cons, List.singleton_sublist, hbσ, true_iff]
      rintro (_ | j) hj
      · simp at hj
      · simp
    by_cases hzb : z = b
    · subst hzb
      refine iff_of_false (fun h => ?_) fun h => ?_
      · rcases List.sublist_cons_iff.mp h with h | ⟨r, hr, -⟩
        · exact hz (h.subset (by simp))
        · exact hza (List.cons.inj hr).1.symm
      · simpa [Ne.symm hza] using h 1 (by simp)
    have hbσ : b ∈ σ := (List.mem_cons.mp hb).resolve_left (Ne.symm hzb)
    rw [List.sublist_cons_iff, sublist_pair_iff_take hab hnd hbσ]
    constructor
    · rintro (h | ⟨r, hr, -⟩)
      · rintro (_ | j) hj
        · simp at hj
        · simpa [Ne.symm hza, Ne.symm hzb] using h j (by simpa [Ne.symm hzb] using hj)
      · exact absurd (List.cons.inj hr).1.symm hza
    · exact fun h => .inl fun j hj => by simpa [Ne.symm hza] using h (j + 1) (by simp [hj])

/-- An order without repeats holding both `a` and `b` places one before the other. -/
theorem sublist_pair_or {a b : Nat} (hab : a ≠ b) :
    ∀ {σ : List Nat}, a ∈ σ → b ∈ σ → List.Sublist [a, b] σ ∨ List.Sublist [b, a] σ
  | [], ha, _ => absurd ha (List.not_mem_nil a)
  | z :: σ, ha, hb => by
    by_cases hza : z = a
    · subst hza
      exact .inl (List.cons_sublist_cons.mpr (List.singleton_sublist.mpr
        ((List.mem_cons.mp hb).resolve_left (Ne.symm hab))))
    by_cases hzb : z = b
    · subst hzb
      exact .inr (List.cons_sublist_cons.mpr (List.singleton_sublist.mpr
        ((List.mem_cons.mp ha).resolve_left (Ne.symm hza))))
    exact (sublist_pair_or hab ((List.mem_cons.mp ha).resolve_left (Ne.symm hza))
      ((List.mem_cons.mp hb).resolve_left (Ne.symm hzb))).imp
        (List.Sublist.cons z) (List.Sublist.cons z)

/-- In an order without repeats, `a` and `b` do not come before each other. -/
theorem not_sublist_pair_both {a b : Nat} (hab : a ≠ b) :
    ∀ {σ : List Nat}, σ.Nodup → List.Sublist [a, b] σ → List.Sublist [b, a] σ → False
  | [], _, h1, _ => by simp at h1
  | z :: σ, hnd, h1, h2 => by
    obtain ⟨hz, hnd⟩ := List.nodup_cons.mp hnd
    rcases List.sublist_cons_iff.mp h1 with h1 | ⟨r, hr, -⟩ <;>
      rcases List.sublist_cons_iff.mp h2 with h2 | ⟨s, hs, -⟩
    · exact not_sublist_pair_both hab hnd h1 h2
    · exact hz ((List.cons.inj hs).1 ▸ h1.subset (by simp))
    · exact hz ((List.cons.inj hr).1 ▸ h2.subset (by simp))
    · exact hab ((List.cons.inj hr).1.trans (List.cons.inj hs).1.symm)

/-- An order without repeats respects the constraints iff all its prefixes are admissible. -/
theorem respects_iff_take {cs : List (Nat × Nat)} {σ : List Nat} (hnd : σ.Nodup)
    (hcs : ∀ c ∈ cs, c.1 ≠ c.2 ∧ c.2 ∈ σ) :
    Respects σ cs ↔ ∀ j, Admissible cs (σ.take j).toFinset := by
  simp only [Respects, Admissible, List.mem_toFinset]
  exact (forall₂_congr fun c hc => sublist_pair_iff_take (hcs c hc).1 hnd (hcs c hc).2).trans
    ⟨fun h j c hc => h c hc j, fun h c hc j => h j c hc⟩

/-- `leftDeep x rest` has admissible intermediate results iff `x :: rest` respects the
constraints. -/
theorem respects_iff_spine {cs : List (Nat × Nat)} {x : Nat} {rest : List Nat}
    (hnd : (x :: rest).Nodup) (hcs : ∀ c ∈ cs, c.1 ≠ c.2 ∧ c.2 ∈ x :: rest) :
    Respects (x :: rest) cs ↔ ∀ X ∈ (leftDeep x rest).spine, Admissible cs X.toFinset := by
  rw [respects_iff_take hnd hcs]
  simp only [mem_spine_leftDeep]
  refine ⟨fun h X ⟨j, _, hX⟩ => hX ▸ h j, fun h j => ?_⟩
  rcases j with _ | j
  · simp [Admissible]
  · exact h _ ⟨j + 1, j.succ_pos, rfl⟩

/-! ## Coverage of the partitions -/

theorem partPair_eq (p i : Nat) :
    partPair p i = if p.testBit i then (2 * i + 1, 2 * i) else (2 * i, 2 * i + 1) := by
  simp only [partPair, and_one_shiftLeft_pos]

theorem partTriple_eq (p i : Nat) : partTriple p i =
    if p.testBit i then (3 * i + 1, 3 * i, 3 * i + 2) else (3 * i, 3 * i + 1, 3 * i + 2) := by
  simp only [partTriple, and_one_shiftLeft_pos]

/-- With `2^k` workers, an order of `0, …, N - 1` respects the constraints of `p` iff bit `i`
of `p` says whether `2i + 1` comes before `2i`, for each `i < k`. -/
theorem respects_partConstraints_iff {N p k : Nat} {σ : List Nat} (hk : 2 * k ≤ N)
    (hσ : σ.Perm (List.range N)) : Respects σ (partConstraints N p (2 ^ k)) ↔
      ∀ i < k, (p.testBit i ↔ List.Sublist [2 * i + 1, 2 * i] σ) := by
  have hmem : ∀ x < N, x ∈ σ := fun x hx => hσ.mem_iff.mpr (List.mem_range.mpr hx)
  simp only [Respects, mem_partConstraints, Nat.clog_pow 2 k Nat.one_lt_two]
  refine ⟨fun h i hi => ?_, fun h c ⟨i, hi, hc⟩ => ?_⟩
  · have h1 := h _ ⟨i, hi, rfl⟩
    rw [partPair_eq] at h1
    split at h1
    · simp [*]
    · exact iff_of_false ‹_› fun h2 =>
        not_sublist_pair_both (by omega) (hσ.nodup_iff.mpr (List.nodup_range N)) h1 h2
  · subst hc
    rw [partPair_eq]
    split
    · exact (h i hi).mp ‹_›
    · exact ((sublist_pair_or (by omega) (hmem _ (by omega)) (hmem _ (by omega))).resolve_right
        fun h2 => ‹¬_› ((h i hi).mpr h2))

/-- A tree whose nodes are admissible under the bushy constraints. -/
def NodesAdmissible (cs : List (Nat × Nat × Nat)) (t : JoinTree) : Prop :=
  ∀ X ∈ t.nodes, AdmissibleB cs X.toFinset

instance (cs : List (Nat × Nat × Nat)) (t : JoinTree) : Decidable (NodesAdmissible cs t) :=
  inferInstanceAs (Decidable (∀ X ∈ t.nodes, ∀ c ∈ cs, c.2.1 ∈ X.toFinset → c.2.2 ∈ X.toFinset →
    c.1 ∈ X.toFinset))

/-- Some `part_id` below `2^k` admits a given tree with distinct leaves: orient group `i` the
other way exactly when a node meets it in `{3i + 1, 3i + 2}`. Laminarity rules out a node
meeting it in `{3i, 3i + 2}` as well. -/
theorem exists_nodesAdmissible (N k : Nat) {t : JoinTree} (hnd : t.leaves.Nodup) :
    ∃ p < 2 ^ k, NodesAdmissible (partConstraintsB N p (2 ^ k)) t := by
  let bad i := t.nodes.any fun X => 3 * i + 1 ∈ X ∧ 3 * i + 2 ∈ X ∧ 3 * i ∉ X
  refine ⟨bitmapOf ((List.range k).filter bad), bitmapOf_lt_two_pow fun _ hx => List.mem_range.mp (List.mem_of_mem_filter hx), ?_⟩
  intro X hX c hc
  obtain ⟨i, hi, rfl⟩ := mem_partConstraintsB.mp hc
  rw [Nat.clog_pow 2 k Nat.one_lt_two] at hi
  simp only [partTriple_eq, testBit_bitmapOf, List.mem_filter, List.mem_range, hi, true_and,
    decide_eq_true_eq, List.mem_toFinset]
  split
  · obtain ⟨Y, hY, hY1, hY2, hY0⟩ := by simpa [bad] using ‹bad i = true›
    intro h0 h2
    rcases nodes_laminar hnd X hX Y hY _ h2 hY2 with hXY | hYX
    · exact absurd (hXY _ h0) hY0
    · exact hYX _ hY1
  · intro h1 h2
    by_contra h0
    exact ‹¬bad i = true› (by simpa [bad] using ⟨X, hX, h1, h2, h0⟩)

/-- Exactly one `part_id` below `2^k` has constraints that a given order respects: bit `i` is
set exactly when `2i + 1` comes before `2i`. -/
theorem existsUnique_respects {N k : Nat} {σ : List Nat} (hk : 2 * k ≤ N)
    (hσ : σ.Perm (List.range N)) : ∃! p, p < 2 ^ k ∧ Respects σ (partConstraints N p (2 ^ k)) := by
  let good i := decide (List.Sublist [2 * i + 1, 2 * i] σ)
  have hbits : ∀ p, p < 2 ^ k → ∀ q, q < 2 ^ k → (∀ i < k, p.testBit i = q.testBit i) → p = q :=
    fun p hp q hq h => Nat.eq_of_testBit_eq fun i => by
      by_cases hi : i < k
      · exact h i hi
      · rw [testBit_eq_false_of_le hp (by omega), testBit_eq_false_of_le hq (by omega)]
  refine ⟨bitmapOf ((List.range k).filter good), ⟨bitmapOf_lt_two_pow fun _ hx => List.mem_range.mp (List.mem_of_mem_filter hx),
    (respects_partConstraints_iff hk hσ).mpr fun i hi => by simp [good, hi]⟩, ?_⟩
  rintro q ⟨hq, hr⟩
  refine hbits q hq _ (bitmapOf_lt_two_pow fun _ hx => List.mem_range.mp (List.mem_of_mem_filter hx)) fun i hi => ?_
  have := (respects_partConstraints_iff hk hσ).mp hr i hi
  simp only [testBit_bitmapOf, List.mem_filter, List.mem_range, hi, true_and, good, decide_eq_true_eq]
  exact Bool.eq_iff_iff.mpr (this.trans decide_eq_true_iff.symm)

/-- **Coverage of the partitions** for `W = 2^k` workers: every order of `0, …, N - 1`
respects the constraints of exactly one `part_id < W` (given `2k ≤ N`), and every join tree
with distinct leaves is admissible under the bushy constraints of at least one. -/
theorem partitions_cover :
    (∀ N k (σ : List Nat), 2 * k ≤ N → σ.Perm (List.range N) →
      ∃! p, p < 2 ^ k ∧ Respects σ (partConstraints N p (2 ^ k))) ∧
    ∀ N k (t : JoinTree), t.leaves.Nodup →
      ∃ p < 2 ^ k, NodesAdmissible (partConstraintsB N p (2 ^ k)) t :=
  ⟨fun _ _ _ hk hσ => existsUnique_respects hk hσ, fun N k _ hnd => exists_nodesAdmissible N k hnd⟩

/-- For `W = 3` the coverage fails both ways: the order `1, 0, 3, 2` respects no partition,
and the tree `(0 ⋈ (1 ⋈ 2)) ⋈ (3 ⋈ (4 ⋈ 5))` is admissible under none (bit pattern `11` is
never assigned). -/
theorem partitions_cover_three :
    [1, 0, 3, 2].Perm (List.range 4) ∧ (∀ p < 3, ¬Respects [1, 0, 3, 2] (partConstraints 4 p 3)) ∧
    (∀ p < 3, ¬NodesAdmissible (partConstraintsB 6 p 3)
      (.join (.join (.leaf 0) (.join (.leaf 1) (.leaf 2)))
        (.join (.leaf 3) (.join (.leaf 4) (.leaf 5))))) := by
  decide

/-! ## The relation of a plan -/

section Plan

variable {R C : Type} (o : Oracle R C)

namespace Oracle

/-- `initial_rels[i]->relids`, empty past the end of the list. -/
def relidsAt (rels : List R) (i : Nat) : Finset Nat :=
  match rels[i]? with
  | some r => o.relids r
  | none => ∅

/-- The union of `initial_rels[i]->relids` over the set bits `i` of `B`. -/
def cover (rels : List R) (B : Nat) : Finset Nat :=
  ((Finset.range rels.length).filter (B.testBit ·)).biUnion (o.relidsAt rels)

/-- The initial relations have pairwise disjoint relids. -/
def DisjointRels (rels : List R) : Prop := rels.Pairwise fun a b => Disjoint (o.relids a) (o.relids b)

instance (rels : List R) : Decidable (o.DisjointRels rels) :=
  inferInstanceAs (Decidable (rels.Pairwise _))

/-- The relation a join tree builds: `initial_rels[i]` at a leaf; at a join, `make_join_rel`
and path generation, with gather paths unless the join covers all `levels_needed`
relations. -/
def plan (levelsNeeded : Nat) (rels : List R) : JoinTree → Option R
  | .leaf i => rels[i]?
  | .join l r => do
    let a ← plan levelsNeeded rels l
    let b ← plan levelsNeeded rels r
    o.joinRel (l.leaves.length + r.leaves.length != levelsNeeded) a b

variable {o}

theorem mem_cover {rels : List R} {B z : Nat} :
    z ∈ o.cover rels B ↔ ∃ i < rels.length, B.testBit i ∧ z ∈ o.relidsAt rels i := by
  simp [cover, and_assoc]

theorem cover_or (rels : List R) (a b : Nat) :
    o.cover rels (a ||| b) = o.cover rels a ∪ o.cover rels b := by
  ext z
  simp only [Finset.mem_union, mem_cover, Nat.testBit_or, Bool.or_eq_true, or_and_right,
    exists_or, ← exists_or, ← and_or_left]

theorem cover_one_shiftLeft {rels : List R} {i : Nat} (hi : i < rels.length) :
    o.cover rels (1 <<< i) = o.relidsAt rels i := by
  ext z
  simp only [mem_cover, Nat.one_shiftLeft, Nat.testBit_two_pow, decide_eq_true_eq]
  exact ⟨fun ⟨_, _, rfl, hz⟩ => hz, fun hz => ⟨i, hi, rfl, hz⟩⟩

theorem disjoint_relidsAt {rels : List R} (h : o.DisjointRels rels) {i j : Nat} (hij : i ≠ j) :
    Disjoint (o.relidsAt rels i) (o.relidsAt rels j) := by
  have key : ∀ i j, i < j → Disjoint (o.relidsAt rels i) (o.relidsAt rels j) := fun i j hlt => by
    unfold relidsAt
    cases ha : rels[i]? <;> cases hb : rels[j]? <;>
      simp only [Finset.disjoint_empty_left, Finset.disjoint_empty_right]
    obtain ⟨hi, rfl⟩ := List.getElem?_eq_some_iff.mp ha
    obtain ⟨hj, rfl⟩ := List.getElem?_eq_some_iff.mp hb
    exact List.pairwise_iff_getElem.mp h i j hi hj hlt
  rcases Nat.lt_or_gt_of_ne hij with hlt | hlt
  · exact key i j hlt
  · exact (key j i hlt).symm

theorem disjoint_cover {rels : List R} (h : o.DisjointRels rels) {a b : Nat} (hab : a &&& b = 0) :
    Disjoint (o.cover rels a) (o.cover rels b) := by
  refine Finset.disjoint_left.mpr fun z hza hzb => ?_
  obtain ⟨i, -, hai, hzi⟩ := mem_cover.mp hza
  obtain ⟨j, -, hbj, hzj⟩ := mem_cover.mp hzb
  have hij : i ≠ j := by
    rintro rfl
    simpa [hai, hbj] using congrArg (Nat.testBit · i) hab
  exact Finset.disjoint_left.mp (disjoint_relidsAt h hij) hzi hzj

theorem bitmapOf_and_eq_zero {xs ys : List Nat} (h : xs.Disjoint ys) :
    bitmapOf xs &&& bitmapOf ys = 0 :=
  Nat.eq_of_testBit_eq fun i => by
    simp only [Nat.testBit_and, testBit_bitmapOf, Nat.zero_testBit, Bool.and_eq_false_iff,
      decide_eq_false_iff_not]
    by_cases hi : i ∈ xs
    · exact .inr fun hy => h hi hy
    · exact .inl hi

theorem plan_join_eq_some {N : Nat} {rels : List R} {l r : JoinTree} {x : R} :
    o.plan N rels (.join l r) = some x ↔ ∃ a b, o.plan N rels l = some a ∧
      o.plan N rels r = some b ∧
      o.joinRel (l.leaves.length + r.leaves.length != N) a b = some x := by
  simp [plan, Option.bind_eq_some]

/-- A plan's relation covers exactly the relations at its leaves. -/
theorem relids_plan {N : Nat} {rels : List R} :
    ∀ {t : JoinTree} {x : R}, o.plan N rels t = some x →
      o.relids x = o.cover rels (bitmapOf t.leaves)
  | .leaf i, x, h => by
    obtain ⟨hi, rfl⟩ := List.getElem?_eq_some_iff.mp h
    rw [leaves_leaf, bitmapOf_singleton, cover_one_shiftLeft hi, relidsAt, List.getElem?_eq_getElem hi]
  | .join l r, x, h => by
    obtain ⟨a, b, ha, hb, hx⟩ := plan_join_eq_some.mp h
    rw [o.relids_joinRel hx, relids_plan ha, relids_plan hb, leaves_join, bitmapOf_append,
      cover_or]

/-- With an oracle that accepts disjoint pairs, every tree with distinct leaves among the
initial relations has a plan. -/
theorem plan_isSome {N : Nat} {rels : List R} (hacc : o.AcceptsDisjoint) (hdisj : o.DisjointRels rels) :
    ∀ {t : JoinTree}, t.leaves.Nodup → (∀ i ∈ t.leaves, i < rels.length) →
      ∃ x, o.plan N rels t = some x
  | .leaf i, _, hi => ⟨_, List.getElem?_eq_getElem (hi i (by simp))⟩
  | .join l r, hnd, hi => by
    obtain ⟨hl, hr, hlr⟩ := List.nodup_append.mp hnd
    obtain ⟨a, ha⟩ : ∃ a, o.plan N rels l = some a := plan_isSome hacc hdisj hl fun i h => hi i (by simp [h])
    obtain ⟨b, hb⟩ : ∃ b, o.plan N rels r = some b := plan_isSome hacc hdisj hr fun i h => hi i (by simp [h])
    have hd : Disjoint (o.relids a) (o.relids b) := by
      rw [relids_plan ha, relids_plan hb]
      exact disjoint_cover hdisj (bitmapOf_and_eq_zero hlr)
    obtain ⟨j, hj⟩ := hacc a b hd
    exact ⟨_, plan_join_eq_some.mpr ⟨a, b, ha, hb, by rw [Oracle.joinRel, hj]; rfl⟩⟩

end Oracle

end Plan

/-- Relations `[i]` for distinct ordinals `i` have disjoint relids. -/
theorem sumOracle_disjointRels_range (n : Nat) :
    sumOracle.DisjointRels ((List.range n).map fun i => ([i], 0)) :=
  List.pairwise_map.mpr ((List.nodup_range n).imp fun h => by simpa [sumOracle, eq_comm] using h)

end ParallelJoin
