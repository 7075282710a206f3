import ParallelJoin.Product
import Mathlib.Data.Nat.Log

/-!
# The constraint partitioner and the admissible sets

Model of `part_constraints`, `part_constraints_b` (`parallel_worker.c:141-208`),
`constrained_power_set`, `constrained_power_set_b` (`:37-114`) and `adm_join_results`,
`adm_join_results_b` (`:224-253`).

* The loop `for (i = 0; (1 << i) < n_workers; i++)` runs for `i < ⌈log₂ n_workers⌉`
  (`workerBits_eq`). Bit `i` of `part_id` orients group `i`: the pair `(2i, 2i + 1)` or the
  triple `(3i, 3i + 1, 3i + 2)` with its first two ordinals swapped.
* A left-deep constraint `(a, b)` says that `b` never appears without `a`; a bushy one
  `(a, b, c)` that no intermediate result meets the group in exactly `{b, c}`.
* `adm_join_results` folds `cartesian_product` over the groups (`groupProduct`), so the
  admissible sets are read off `exists_mem_groupProduct_iff` once each group's
  `constrained_power_set` is known (`allowed_iff`, `allowedB_iff`).

Results:
* `admJoinResults_bitmaps`: the bitmaps of `adm_join_results(N, part_constraints(N, p, W))`,
  for even `N`, are the nonempty subsets of `{0, …, N - 1}` closed under the constraints, each
  once; `admJoinResultsB_bitmaps` is the bushy counterpart, and `admJoinResults_exact` states
  the two together.
-/

namespace ParallelJoin

/-! ## The partitioner -/

/-- The `i` of `for (i = 0; (1 << i) < n_workers; i++)`. The loop stops before `n_workers`,
as `1 << n_workers ≥ n_workers`. -/
def workerBits (nWorkers : Nat) : List Nat :=
  (List.range nWorkers).takeWhile fun i => 1 <<< i < nWorkers

/-- Group `i` of `part_constraints` (`parallel_worker.c:144-156`): `(2i + 1, 2i)` when bit `i`
of `part_id` is set (`select > 0`), else `(2i, 2i + 1)`. -/
def partPair (partId i : Nat) : Nat × Nat :=
  if partId &&& 1 <<< i > 0 then (2 * i + 1, 2 * i) else (2 * i, 2 * i + 1)

/-- `part_constraints(levels_needed, part_id, n_workers)`; `levels_needed` is not read. -/
def partConstraints (_levelsNeeded partId nWorkers : Nat) : List (Nat × Nat) :=
  (workerBits nWorkers).map (partPair partId)

/-- Group `i` of `part_constraints_b` (`parallel_worker.c:190-205`): `(3i + 1, 3i, 3i + 2)`
when bit `i` of `part_id` is set, else `(3i, 3i + 1, 3i + 2)`. -/
def partTriple (partId i : Nat) : Nat × Nat × Nat :=
  if partId &&& 1 <<< i > 0 then (3 * i + 1, 3 * i, 3 * i + 2) else (3 * i, 3 * i + 1, 3 * i + 2)

/-- `part_constraints_b(levels_needed, part_id, n_workers)`; `levels_needed` is not read. -/
def partConstraintsB (_levelsNeeded partId nWorkers : Nat) : List (Nat × Nat × Nat) :=
  (workerBits nWorkers).map (partTriple partId)

theorem two_pow_lt_iff {i W : Nat} : 2 ^ i < W ↔ i < Nat.clog 2 W :=
  Nat.pow_lt_iff_lt_clog Nat.one_lt_two

theorem workerBits_eq (W : Nat) : workerBits W = List.range (Nat.clog 2 W) := by
  have hk : Nat.clog 2 W ≤ W :=
    (Nat.le_pow_iff_clog_le Nat.one_lt_two).mp (Nat.lt_two_pow W).le
  obtain ⟨d, hd⟩ := Nat.exists_eq_add_of_le hk
  rw [workerBits, hd, List.range_add, List.takeWhile_append_of_pos, ← hd]
  · cases d with
    | zero => simp
    | succ d =>
      rw [List.range_succ_eq_map, List.map_cons, List.takeWhile_cons_of_neg, List.append_nil]
      simp [two_pow_lt_iff]
  · intro i hi
    simpa [two_pow_lt_iff, ← hd] using List.mem_range.mp hi

theorem and_one_shiftLeft_pos {p i : Nat} : p &&& 1 <<< i > 0 ↔ p.testBit i := by
  rw [Nat.one_shiftLeft, Nat.and_two_pow]
  cases p.testBit i <;> simp [Nat.two_pow_pos]

theorem mem_partConstraints {N p W : Nat} {c : Nat × Nat} :
    c ∈ partConstraints N p W ↔ ∃ i < Nat.clog 2 W, partPair p i = c := by
  simp [partConstraints, workerBits_eq]

theorem mem_partConstraintsB {N p W : Nat} {c : Nat × Nat × Nat} :
    c ∈ partConstraintsB N p W ↔ ∃ i < Nat.clog 2 W, partTriple p i = c := by
  simp [partConstraintsB, workerBits_eq]

/-! ## The admissible sets -/

/-- `constrained_power_set(constr, q1, q2)` (`parallel_worker.c:37-64`): `{q1}` unless a
constraint ends in `q1`, `{q2}` unless another one ends in `q2`, and `{q1, q2}`. -/
def constrainedPowerSet (constr : List (Nat × Nat)) (q1 q2 : Nat) : List (List Nat) :=
  let includeQ1 := !constr.any (·.2 == q1)
  let includeQ2 := !constr.any fun c => c.2 != q1 && c.2 == q2
  (if includeQ1 then [[q1]] else []) ++ (if includeQ2 then [[q2]] else []) ++ [[q1, q2]]

/-- `adm_join_results(levels_needed, constr)` (`parallel_worker.c:224-233`): the groups
`(2i, 2i + 1)` with `2i + 1 < levels_needed`, that is `i < levels_needed / 2`. -/
def admJoinResults (levelsNeeded : Nat) (constr : List (Nat × Nat)) : List (List Nat) :=
  groupProduct (fun i => constrainedPowerSet constr (2 * i) (2 * i + 1)) (levelsNeeded / 2)

/-- A left-deep intermediate result: `b` never without `a`. -/
def Admissible (cs : List (Nat × Nat)) (s : Finset Nat) : Prop := ∀ c ∈ cs, c.2 ∈ s → c.1 ∈ s

/-- Every constraint orders the two ordinals of one group. -/
def PairsInGroups (cs : List (Nat × Nat)) : Prop := ∀ c ∈ cs, c.1 / 2 = c.2 / 2 ∧ c.1 ≠ c.2

theorem pairsInGroups_partConstraints (N p W : Nat) : PairsInGroups (partConstraints N p W) := by
  intro c hc
  obtain ⟨i, -, rfl⟩ := mem_partConstraints.mp hc
  unfold partPair; split <;> dsimp only <;> omega

/-- The flag that keeps `{q}` or `{q, q3}`: no constraint names `q` second. -/
theorem not_any_eq_iff {α : Type} (f : α → Nat) (cs : List α) (q : Nat) :
    (!cs.any fun c => f c == q) = true ↔ ¬∃ c ∈ cs, f c = q := by
  simp [List.any_eq_true]

/-- The flag of `q2`: its test `c.2 != q1` is implied by `c.2 == q2`. -/
theorem not_any_ne_and_eq_iff {α : Type} (f : α → Nat) (cs : List α) {q1 q2 : Nat} (hq : q1 ≠ q2) :
    (!cs.any fun c => f c != q1 && f c == q2) = true ↔ ¬∃ c ∈ cs, f c = q2 := by
  simp only [Bool.not_eq_true', List.any_eq_false, Bool.and_eq_true, bne_iff_ne, ne_eq, beq_iff_eq,
    not_and, not_not, not_exists]
  exact forall₂_congr fun c _ => ⟨fun h h2 => h (h2 ▸ hq.symm) h2, fun h _ => h⟩

theorem mem_constrainedPowerSet {cs : List (Nat × Nat)} {q1 q2 : Nat} (hq : q1 ≠ q2)
    {T : List Nat} : T ∈ constrainedPowerSet cs q1 q2 ↔
      (T = [q1] ∧ ¬∃ c ∈ cs, c.2 = q1) ∨ (T = [q2] ∧ ¬∃ c ∈ cs, c.2 = q2) ∨ T = [q1, q2] := by
  simp only [constrainedPowerSet, List.mem_append, List.mem_ite_nil_right, List.mem_singleton,
    not_any_eq_iff (fun c : Nat × Nat => c.2), not_any_ne_and_eq_iff (fun c : Nat × Nat => c.2) cs hq,
    or_assoc]
  exact or_congr and_comm (or_congr and_comm Iff.rfl)

/-- A set of ordinals of the group `G` is read off its members' membership. -/
theorem toFinset_eq_iff_of_subset (G T : List Nat) {S : Finset Nat} (hT : ∀ x ∈ T, x ∈ G)
    (hS : ∀ x ∈ S, x ∈ G) : T.toFinset = S ↔ ∀ x ∈ G, (x ∈ T ↔ x ∈ S) := by
  rw [Finset.ext_iff]
  refine ⟨fun h x _ => by simpa using h x, fun h x => ?_⟩
  rw [List.mem_toFinset]
  exact ⟨fun hx => (h x (hT x hx)).mp hx, fun hx => (h x (hS x hx)).mpr hx⟩

/-- **One group of `adm_join_results`**: a set of the group `(2i, 2i + 1)` is empty or a
member of its `constrained_power_set` iff it respects the constraints. -/
theorem allowed_iff {cs : List (Nat × Nat)} (hc : PairsInGroups cs) {i : Nat} {S : Finset Nat}
    (hS : ∀ x ∈ S, x / 2 = i) :
    (S = ∅ ∨ ∃ T ∈ constrainedPowerSet cs (2 * i) (2 * i + 1), T.toFinset = S) ↔
      Admissible cs S := by
  have key : ∀ T : List Nat, (∀ x ∈ T, x ∈ [2 * i, 2 * i + 1]) → (T.toFinset = S ↔
      (2 * i ∈ T ↔ 2 * i ∈ S) ∧ (2 * i + 1 ∈ T ↔ 2 * i + 1 ∈ S)) :=
    fun T hT => by
      rw [toFinset_eq_iff_of_subset _ T hT fun x hx => by have := hS x hx; simp; omega]
      simp only [List.forall_mem_cons, List.not_mem_nil, false_implies, implies_true, and_true]
  rw [show (∅ : Finset Nat) = ([] : List Nat).toFinset from rfl, eq_comm, key [] (by simp)]
  simp only [mem_constrainedPowerSet (by omega : 2 * i ≠ 2 * i + 1), or_and_right, exists_or,
    and_assoc, exists_eq_left]
  rw [key [2 * i] (by simp), key [2 * i + 1] (by simp), key [2 * i, 2 * i + 1] (by simp)]
  have hrhs : Admissible cs S ↔
      ((∃ c ∈ cs, c.2 = 2 * i) → 2 * i ∈ S → 2 * i + 1 ∈ S) ∧
      ((∃ c ∈ cs, c.2 = 2 * i + 1) → 2 * i + 1 ∈ S → 2 * i ∈ S) := by
    have other : ∀ c ∈ cs, c.2 = 2 * i ∧ c.1 = 2 * i + 1 ∨ c.2 = 2 * i + 1 ∧ c.1 = 2 * i ∨
        c.2 / 2 ≠ i := fun c hc' => by have := hc c hc'; omega
    constructor
    · refine fun h => ⟨fun ⟨c, hc', h2⟩ ha => ?_, fun ⟨c, hc', h2⟩ hb => ?_⟩ <;>
        rcases other c hc' with ⟨e2, e1⟩ | ⟨e2, e1⟩ | hne <;> first
          | (rw [← e1]; exact h c hc' (e2 ▸ ‹_›)) | omega
    · rintro ⟨h1, h2⟩ c hc' hc2
      rcases other c hc' with ⟨e2, e1⟩ | ⟨e2, e1⟩ | hne
      · rw [e1]; exact h1 ⟨c, hc', e2⟩ (e2 ▸ hc2)
      · rw [e1]; exact h2 ⟨c, hc', e2⟩ (e2 ▸ hc2)
      · exact absurd (hS _ hc2) hne
  rw [hrhs]
  simp only [List.mem_singleton, List.mem_cons, List.not_mem_nil, or_false, true_or, false_or,
    true_iff, false_iff, add_right_eq_self, self_eq_add_right, one_ne_zero, or_true,
    not_false_eq_true]
  by_cases ha : 2 * i ∈ S <;> by_cases hb : 2 * i + 1 ∈ S <;>
    simp only [ha, hb, not_true_eq_false, not_false_eq_true, true_and, false_and, and_false,
      and_true, false_or, or_false, true_implies, false_implies, implies_true, iff_true, true_iff,
      imp_false, not_not]

theorem familyIn_constrainedPowerSet (cs : List (Nat × Nat)) (k : Nat) :
    FamilyIn (· / 2) (fun i => constrainedPowerSet cs (2 * i) (2 * i + 1)) k := by
  intro i _ T hT
  rcases (mem_constrainedPowerSet (by omega)).mp hT with ⟨rfl, -⟩ | ⟨rfl, -⟩ | rfl <;>
    simp <;> omega

theorem familyNodup_constrainedPowerSet (cs : List (Nat × Nat)) (k : Nat) :
    FamilyNodup (fun i => constrainedPowerSet cs (2 * i) (2 * i + 1)) k := by
  intro i _
  have hsub : List.Sublist (constrainedPowerSet cs (2 * i) (2 * i + 1))
      [[2 * i], [2 * i + 1], [2 * i, 2 * i + 1]] := by
    simp only [constrainedPowerSet]; split_ifs <;> simp
  refine List.Nodup.sublist (hsub.map _) ?_
  simp [Finset.ext_iff]

/-- Admissibility is decided group by group. -/
theorem admissible_iff_slices {cs : List (Nat × Nat)} (hc : PairsInGroups cs) {s : Finset Nat} {k : Nat}
    (hs : ∀ x ∈ s, x / 2 < k) : Admissible cs s ↔ ∀ i < k, Admissible cs (slice (· / 2) s i) := by
  simp only [Admissible, slice, Finset.mem_filter]
  constructor
  · exact fun h i _ c hc' ⟨h2, hi⟩ => ⟨h c hc' h2, (hc c hc').1.trans hi⟩
  · exact fun h c hc' h2 => (h _ (hs _ h2) c hc' ⟨h2, rfl⟩).1


/-- **`adm_join_results` is exact**: for even `N`, the bitmaps of
`adm_join_results(N, part_constraints(N, p, W))` are the nonempty subsets of `{0, …, N - 1}`
in which `b` never comes without `a`, for each constraint `(a, b)`, each once. -/
theorem admJoinResults_bitmaps (N p W : Nat) (hN : 2 ∣ N) :
    ((admJoinResults N (partConstraints N p W)).map bitmapOf).Nodup ∧
    ∀ B, B ∈ (admJoinResults N (partConstraints N p W)).map bitmapOf ↔
      0 < B ∧ B < 2 ^ N ∧ ∀ c ∈ partConstraints N p W, B.testBit c.2 → B.testBit c.1 := by
  have hc := pairsInGroups_partConstraints N p W
  obtain ⟨hnd, hmem⟩ := groupProduct_bitmaps (by decide) hN
    (familyIn_constrainedPowerSet _ _) (familyNodup_constrainedPowerSet _ _)
    (Admissible (partConstraints N p W)) fun s hs => by
      rw [admissible_iff_slices hc hs]
      exact forall₂_congr fun i _ => (allowed_iff hc fun x hx => (Finset.mem_filter.mp hx).2).symm
  refine ⟨hnd, fun B => (hmem B).trans (and_congr_right fun _ => and_congr_right fun hB => ?_)⟩
  simp only [Admissible, mem_bitsBelow hB]

/-- `constrained_power_set_b(constr, q1, q2, q3)` (`parallel_worker.c:67-114`). -/
def constrainedPowerSetB (constr : List (Nat × Nat × Nat)) (q1 q2 q3 : Nat) : List (List Nat) :=
  let includeQ1Q3 := !constr.any (·.2.1 == q1)
  let includeQ2Q3 := !constr.any fun c => c.2.1 != q1 && c.2.1 == q2
  [[q1], [q2], [q3], [q1, q2]] ++ (if includeQ1Q3 then [[q1, q3]] else []) ++
    (if includeQ2Q3 then [[q2, q3]] else []) ++ [[q1, q2, q3]]

/-- `adm_join_results_b(levels_needed, constr)` (`parallel_worker.c:243-253`). -/
def admJoinResultsB (levelsNeeded : Nat) (constr : List (Nat × Nat × Nat)) : List (List Nat) :=
  groupProduct (fun i => constrainedPowerSetB constr (3 * i) (3 * i + 1) (3 * i + 2)) (levelsNeeded / 3)

/-- A bushy intermediate result: it never meets a constrained group `{a, b, c}` in `{b, c}`. -/
def AdmissibleB (cs : List (Nat × Nat × Nat)) (s : Finset Nat) : Prop :=
  ∀ c ∈ cs, c.2.1 ∈ s → c.2.2 ∈ s → c.1 ∈ s

/-- Every constraint is one of the two orientations of one group. -/
def TriplesInGroups (cs : List (Nat × Nat × Nat)) : Prop :=
  ∀ c ∈ cs, ∃ i, c = (3 * i, 3 * i + 1, 3 * i + 2) ∨ c = (3 * i + 1, 3 * i, 3 * i + 2)

theorem triplesInGroups_partConstraintsB (N p W : Nat) : TriplesInGroups (partConstraintsB N p W) := by
  intro c hc
  obtain ⟨i, -, rfl⟩ := mem_partConstraintsB.mp hc
  unfold partTriple; split
  · exact ⟨i, .inr rfl⟩
  · exact ⟨i, .inl rfl⟩

theorem mem_constrainedPowerSetB {cs : List (Nat × Nat × Nat)} {q1 q2 q3 : Nat} (hq : q1 ≠ q2)
    {T : List Nat} : T ∈ constrainedPowerSetB cs q1 q2 q3 ↔
      T = [q1] ∨ T = [q2] ∨ T = [q3] ∨ T = [q1, q2] ∨ (T = [q1, q3] ∧ ¬∃ c ∈ cs, c.2.1 = q1) ∨
        (T = [q2, q3] ∧ ¬∃ c ∈ cs, c.2.1 = q2) ∨ T = [q1, q2, q3] := by
  simp only [constrainedPowerSetB, List.mem_append, List.mem_ite_nil_right, List.mem_singleton,
    List.mem_cons, List.not_mem_nil, or_false, not_any_eq_iff (fun c : Nat × Nat × Nat => c.2.1),
    not_any_ne_and_eq_iff (fun c : Nat × Nat × Nat => c.2.1) cs hq, or_assoc]
  exact or_congr_right (or_congr_right (or_congr_right (or_congr_right (or_congr and_comm
    (or_congr and_comm Iff.rfl)))))

theorem allowedB_iff {cs : List (Nat × Nat × Nat)} (hc : TriplesInGroups cs) {i : Nat} {S : Finset Nat}
    (hS : ∀ x ∈ S, x / 3 = i) :
    (S = ∅ ∨ ∃ T ∈ constrainedPowerSetB cs (3 * i) (3 * i + 1) (3 * i + 2), T.toFinset = S) ↔
      AdmissibleB cs S := by
  have key : ∀ T : List Nat, (∀ x ∈ T, x ∈ [3 * i, 3 * i + 1, 3 * i + 2]) → (T.toFinset = S ↔
      (3 * i ∈ T ↔ 3 * i ∈ S) ∧ (3 * i + 1 ∈ T ↔ 3 * i + 1 ∈ S) ∧ (3 * i + 2 ∈ T ↔ 3 * i + 2 ∈ S)) :=
    fun T hT => by
      rw [toFinset_eq_iff_of_subset _ T hT fun x hx => by have := hS x hx; simp; omega]
      simp only [List.forall_mem_cons, List.not_mem_nil, false_implies, implies_true, and_true]
  rw [show (∅ : Finset Nat) = ([] : List Nat).toFinset from rfl, eq_comm, key [] (by simp)]
  simp only [mem_constrainedPowerSetB (by omega : 3 * i ≠ 3 * i + 1), or_and_right, exists_or,
    and_assoc, exists_eq_left]
  rw [key [3 * i] (by simp), key [3 * i + 1] (by simp), key [3 * i + 2] (by simp),
    key [3 * i, 3 * i + 1] (by simp), key [3 * i, 3 * i + 2] (by simp),
    key [3 * i + 1, 3 * i + 2] (by simp), key [3 * i, 3 * i + 1, 3 * i + 2] (by simp)]
  have hrhs : AdmissibleB cs S ↔
      ((∃ c ∈ cs, c.2.1 = 3 * i) → 3 * i ∈ S → 3 * i + 2 ∈ S → 3 * i + 1 ∈ S) ∧
      ((∃ c ∈ cs, c.2.1 = 3 * i + 1) → 3 * i + 1 ∈ S → 3 * i + 2 ∈ S → 3 * i ∈ S) := by
    have other : ∀ c ∈ cs, c = (3 * i + 1, 3 * i, 3 * i + 2) ∨ c = (3 * i, 3 * i + 1, 3 * i + 2) ∨
        c.2.1 / 3 ≠ i := fun c hc' => by
      obtain ⟨j, rfl | rfl⟩ := hc c hc' <;> by_cases hj : j = i
      · exact .inr (.inl (hj ▸ rfl))
      · exact .inr (.inr (by dsimp only; omega))
      · exact .inl (hj ▸ rfl)
      · exact .inr (.inr (by dsimp only; omega))
    constructor
    · refine fun h => ⟨fun ⟨c, hc', h2⟩ ha hd => ?_, fun ⟨c, hc', h2⟩ hb hd => ?_⟩ <;>
        rcases other c hc' with rfl | rfl | hne
      · exact h _ hc' ha hd
      · simp at h2
      · omega
      · simp at h2
      · exact h _ hc' hb hd
      · omega
    · rintro ⟨h1, h2⟩ c hc' hb hd
      rcases other c hc' with rfl | rfl | hne
      · exact h1 ⟨_, hc', rfl⟩ hb hd
      · exact h2 ⟨_, hc', rfl⟩ hb hd
      · exact absurd (hS _ hb) hne
  rw [hrhs]
  simp only [List.mem_singleton, List.mem_cons, List.not_mem_nil, or_false, true_or, false_or,
    true_iff, false_iff, add_right_eq_self, self_eq_add_right, one_ne_zero, or_true, add_left_inj,
    add_right_inj, OfNat.ofNat_ne_zero, OfNat.ofNat_ne_one, OfNat.one_ne_ofNat, not_false_eq_true]
  by_cases ha : 3 * i ∈ S <;> by_cases hb : 3 * i + 1 ∈ S <;> by_cases hd : 3 * i + 2 ∈ S <;>
    simp only [ha, hb, hd, not_true_eq_false, not_false_eq_true, true_and, false_and, and_false,
      and_true, false_or, or_false, true_implies, false_implies, implies_true, iff_true, true_iff,
      imp_false, not_not]

theorem familyIn_constrainedPowerSetB (cs : List (Nat × Nat × Nat)) (k : Nat) :
    FamilyIn (· / 3) (fun i => constrainedPowerSetB cs (3 * i) (3 * i + 1) (3 * i + 2)) k := by
  intro i _ T hT
  rcases (mem_constrainedPowerSetB (by omega)).mp hT with
    rfl | rfl | rfl | rfl | ⟨rfl, -⟩ | ⟨rfl, -⟩ | rfl <;> simp <;> omega

theorem familyNodup_constrainedPowerSetB (cs : List (Nat × Nat × Nat)) (k : Nat) :
    FamilyNodup (fun i => constrainedPowerSetB cs (3 * i) (3 * i + 1) (3 * i + 2)) k := by
  intro i _
  have hsub : List.Sublist (constrainedPowerSetB cs (3 * i) (3 * i + 1) (3 * i + 2))
      [[3 * i], [3 * i + 1], [3 * i + 2], [3 * i, 3 * i + 1], [3 * i, 3 * i + 2],
        [3 * i + 1, 3 * i + 2], [3 * i, 3 * i + 1, 3 * i + 2]] := by
    simp only [constrainedPowerSetB]; split_ifs <;> simp
  refine List.Nodup.sublist (hsub.map _) (List.Nodup.of_map
    (fun s : Finset Nat => (decide (3 * i ∈ s), decide (3 * i + 1 ∈ s), decide (3 * i + 2 ∈ s))) ?_)
  simp

theorem admissibleB_iff_slices {cs : List (Nat × Nat × Nat)} (hc : TriplesInGroups cs)
    {s : Finset Nat} {k : Nat} (hs : ∀ x ∈ s, x / 3 < k) :
    AdmissibleB cs s ↔ ∀ i < k, AdmissibleB cs (slice (· / 3) s i) := by
  simp only [AdmissibleB, slice, Finset.mem_filter]
  have hg : ∀ c ∈ cs, c.1 / 3 = c.2.1 / 3 ∧ c.2.2 / 3 = c.2.1 / 3 := fun c hc' => by
    obtain ⟨j, rfl | rfl⟩ := hc c hc' <;> dsimp only <;> omega
  constructor
  · exact fun h i _ c hc' ⟨hb, hi⟩ ⟨hd, _⟩ => ⟨h c hc' hb hd, (hg c hc').1.trans hi⟩
  · exact fun h c hc' hb hd =>
      (h _ (hs _ hb) c hc' ⟨hb, rfl⟩ ⟨hd, (hg c hc').2⟩).1

/-- **`adm_join_results_b` is exact**: for `N` divisible by three, the bitmaps of
`adm_join_results_b(N, part_constraints_b(N, p, W))` are the nonempty subsets of
`{0, …, N - 1}` that meet no constrained group `{a, b, c}` in exactly `{b, c}`, each once. -/
theorem admJoinResultsB_bitmaps (N p W : Nat) (hN : 3 ∣ N) :
    ((admJoinResultsB N (partConstraintsB N p W)).map bitmapOf).Nodup ∧
    ∀ B, B ∈ (admJoinResultsB N (partConstraintsB N p W)).map bitmapOf ↔
      0 < B ∧ B < 2 ^ N ∧ ∀ c ∈ partConstraintsB N p W,
        B.testBit c.2.1 → B.testBit c.2.2 → B.testBit c.1 := by
  have hc := triplesInGroups_partConstraintsB N p W
  obtain ⟨hnd, hmem⟩ := groupProduct_bitmaps (by decide) hN
    (familyIn_constrainedPowerSetB _ _) (familyNodup_constrainedPowerSetB _ _)
    (AdmissibleB (partConstraintsB N p W)) fun s hs => by
      rw [admissibleB_iff_slices hc hs]
      exact forall₂_congr fun i _ => (allowedB_iff hc fun x hx => (Finset.mem_filter.mp hx).2).symm
  refine ⟨hnd, fun B => (hmem B).trans (and_congr_right fun _ => and_congr_right fun hB => ?_)⟩
  simp only [AdmissibleB, mem_bitsBelow hB]

/-- **Both generators are exact**: `adm_join_results` for even `N` and `adm_join_results_b` for
`N` divisible by three list each admissible nonempty subset of `{0, …, N - 1}` once, and
nothing else. -/
theorem admJoinResults_exact (N p W : Nat) :
    (2 ∣ N → ((admJoinResults N (partConstraints N p W)).map bitmapOf).Nodup ∧
      ∀ B, B ∈ (admJoinResults N (partConstraints N p W)).map bitmapOf ↔
        0 < B ∧ B < 2 ^ N ∧ ∀ c ∈ partConstraints N p W, B.testBit c.2 → B.testBit c.1) ∧
    (3 ∣ N → ((admJoinResultsB N (partConstraintsB N p W)).map bitmapOf).Nodup ∧
      ∀ B, B ∈ (admJoinResultsB N (partConstraintsB N p W)).map bitmapOf ↔
        0 < B ∧ B < 2 ^ N ∧ ∀ c ∈ partConstraintsB N p W,
          B.testBit c.2.1 → B.testBit c.2.2 → B.testBit c.1) :=
  ⟨admJoinResults_bitmaps N p W, admJoinResultsB_bitmaps N p W⟩

end ParallelJoin
