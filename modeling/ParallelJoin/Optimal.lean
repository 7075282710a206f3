import ParallelJoin.Dp
import ParallelJoin.IntSplits

/-!
# The workers are optimal

Both workers meet `SplitScheme`, so `run_optimal` applies to them.

* The sets they split (`splitSets`) are the admissible sets of `adm_join_results(_b)` sorted by
  size, less the singletons; `admJoinResults_bitmaps` and `admJoinResultsB_bitmaps` make every
  part of a split that is not a singleton one of them (`known_of_adm`).
* A left-deep plan fits a set when its left spine holds admissible sets (`FitsL`). Its last
  join is `(S \ {u}) ⋈ {u}` with `u` valid, the split `try_splits` makes; conversely such a
  split extends any fitting plan of `S \ {u}`.
* A bushy plan fits a set when all its nodes are admissible (`FitsB`); `mem_bushySplits` says
  its root split is one of `try_splits_b`.
* Each scheme is assembled from three lemmas: the parts of a split are known (`…_parts`), a
  fitting plan starts with a split (`…_decompose`), and a split composes fitting plans
  (`…_compose`).

* The worker has its table only up to 26 relations (`tableAllocOk_iff`), and the split
  routines compute on `int`s the model's values only up to ordinal 30 (`IntSplits.lean`): the
  results below are bounded there, and the source goes wrong past the bound
  (`worker_leftDeep_thirtyTwo`, `worker_bushy_thirtyThree`, `bushySplits_spec_thirtyThree`).

Results:
* `leftDeepSplits_spec`: on a set of `adm_join_results`, `try_splits` tries exactly the pairs
  `(S \ {u}, {u})` with `S \ {u}` admissible, each once, and reads only entries computed before.
* `worker_leftDeep_optimal`: the left-deep worker returns a relation whose cost is the least
  over the left-deep plans of the orders that respect its constraints.
* `worker_bushy_optimal`: the bushy worker returns a relation whose cost is the least over the
  join trees whose nodes are all admissible under its constraints.
* `bushySplits_spec`: on a set of `adm_join_results_b`, `try_splits_b` tries exactly the
  ordered pairs of nonempty admissible complementary parts, each once, and reads only entries
  computed before.
-/

namespace ParallelJoin

open JoinTree

/-! ## The sets a worker splits -/

/-- The sets of `join_res` the worker splits, in the order it splits them. -/
def splitSets (joinRes : List (List Nat)) : List (List Nat) :=
  (sortBySize joinRes).filter fun q => 1 < q.length

theorem splitLoop_eq_foldlM {R : Type} (split : List Nat → Table R → Except Fault (Table R))
    (sorted : List (List Nat)) (P : Table R) :
    splitLoop split sorted P = (sorted.filter fun q => 1 < q.length).foldlM (fun P q => split q P) P := by
  induction sorted generalizing P with
  | nil => rfl
  | cons q sorted ih =>
    unfold splitLoop at ih ⊢
    rw [List.foldlM_cons, List.filter_cons]
    by_cases h : 1 < q.length
    · simp only [h, if_true, decide_True, List.foldlM_cons]
      cases split q P <;> simp [ih]
    · simp only [h, if_false, decide_False]
      exact ih P

theorem mem_splitSets {joinRes : List (List Nat)} {q : List Nat} :
    q ∈ splitSets joinRes ↔ q ∈ joinRes ∧ 1 < q.length := by
  simp [splitSets, sortBySize, (List.perm_insertionSort _ joinRes).mem_iff]

theorem splitSets_sorted (joinRes : List (List Nat)) :
    (splitSets joinRes).Pairwise fun a b => a.length ≤ b.length := by
  haveI : IsTotal (List Nat) fun a b => a.length ≤ b.length := ⟨fun a b => le_total _ _⟩
  haveI : IsTrans (List Nat) fun a b => a.length ≤ b.length := ⟨fun _ _ _ => le_trans⟩
  exact (List.sorted_insertionSort _ joinRes).filter _

theorem splitSets_nodup {joinRes : List (List Nat)} (hnd : (joinRes.map bitmapOf).Nodup) :
    ((splitSets joinRes).map bitmapOf).Nodup :=
  (((List.perm_insertionSort _ joinRes).map bitmapOf).nodup_iff.mpr hnd).sublist
    ((List.filter_sublist _).map _)

/-- The ordinals below `N` set in `B`, as a list. -/
theorem exists_list_of_lt {N B : Nat} (hB : B < 2 ^ N) :
    ∃ xs : List Nat, xs.Nodup ∧ (∀ x ∈ xs, x < N) ∧ bitmapOf xs = B :=
  ⟨(List.range N).filter (B.testBit ·), (List.nodup_range N).filter _,
    fun x hx => List.mem_range.mp (List.mem_of_mem_filter hx),
    Nat.eq_of_testBit_eq fun x => by
      by_cases hx : x < N
      · simp [hx]
      · simp [hx, testBit_eq_false_of_le hB (Nat.le_of_not_lt hx)]⟩

/-- A proper part of the set of `q` has fewer ordinals. -/
theorem length_lt_of_subBits {q xs : List Nat} (hq : q.Nodup) (hxs : xs.Nodup)
    (hsub : SubBits (bitmapOf xs) (bitmapOf q)) (hne : bitmapOf xs ≠ bitmapOf q) :
    xs.length < q.length := by
  rw [← List.toFinset_card_of_nodup hxs, ← List.toFinset_card_of_nodup hq]
  refine Finset.card_lt_card ⟨fun x hx => ?_, fun h => hne ?_⟩
  · simpa using hsub x (by simpa using hx)
  · exact bitmapOf_eq_iff_toFinset.mpr (Finset.Subset.antisymm
      (fun x hx => by simpa using hsub x (by simpa using hx)) h)

section Known

variable {N : Nat} {joinRes : List (List Nat)} {Adm : Nat → Prop}

/-- A nonempty admissible set of ordinals below `N`, smaller than `q`, is a seeded singleton or
a set split before `q`. -/
theorem known_of_adm (hgen : ∀ B, B ∈ joinRes.map bitmapOf ↔ 0 < B ∧ B < 2 ^ N ∧ Adm B)
    (hmem : ∀ q ∈ joinRes, q.Nodup) {q xs : List Nat} (hxs : xs.Nodup) (hne : xs ≠ [])
    (hN : ∀ x ∈ xs, x < N) (hadm : Adm (bitmapOf xs)) (hlt : xs.length < q.length) :
    Known N (splitSets joinRes) q (bitmapOf xs) := by
  match xs, hne with
  | [v], _ => exact .inl ⟨v, hN v (List.mem_singleton_self v), bitmapOf_singleton v⟩
  | v :: w :: ys, _ =>
    obtain ⟨q', hq', he⟩ := List.mem_map.mp ((hgen _).mpr ⟨Nat.pos_of_ne_zero
      (by simp [bitmapOf_eq_zero_iff]), bitmapOf_lt_two_pow hN, hadm⟩)
    have hlen := length_eq_of_bitmapOf_eq (hmem q' hq') hxs he
    exact .inr ⟨q', mem_splitSets.mpr ⟨hq', by simp [hlen]⟩, he, hlen ▸ hlt⟩

/-- The set of all `N` ordinals, when admissible, is split last. -/
theorem exists_full (hgen : ∀ B, B ∈ joinRes.map bitmapOf ↔ 0 < B ∧ B < 2 ^ N ∧ Adm B)
    (hmem : ∀ q ∈ joinRes, q.Nodup) (h2 : 2 ≤ N) (hadm : Adm (2 ^ N - 1)) :
    ∃ q ∈ splitSets joinRes, bitmapOf q = 2 ^ N - 1 := by
  obtain ⟨q, hq, he⟩ := List.mem_map.mp ((hgen _).mpr ⟨Nat.sub_pos_of_lt (Nat.one_lt_two_pow
    (by omega)), Nat.sub_lt (Nat.two_pow_pos N) Nat.one_pos, hadm⟩)
  have hlen := length_eq_of_bitmapOf_eq (hmem q hq) (List.nodup_range N)
    (he.trans (bitmapOf_range N).symm)
  exact ⟨q, mem_splitSets.mpr ⟨hq, by simp only [hlen, List.length_range]; omega⟩, he⟩

/-- A nonempty admissible proper part of the set of `q` is known before `q`. -/
theorem known_of_subBits (hgen : ∀ B, B ∈ joinRes.map bitmapOf ↔ 0 < B ∧ B < 2 ^ N ∧ Adm B)
    (hmem : ∀ q ∈ joinRes, q.Nodup) {q : List Nat} (hq : q.Nodup) (hqN : ∀ x ∈ q, x < N)
    {B : Nat} (hpos : 0 < B) (hne : B ≠ bitmapOf q) (hsub : SubBits B (bitmapOf q)) (hB : Adm B) :
    Known N (splitSets joinRes) q B := by
  obtain ⟨xs, hxs, hxN, rfl⟩ := exists_list_of_lt (lt_two_pow_of_subBits (bitmapOf_lt_two_pow hqN) hsub)
  exact known_of_adm hgen hmem hxs (by rintro rfl; simp [bitmapOf] at hpos) hxN hB
    (length_lt_of_subBits hq hxs hsub hne)

end Known

/-! ## Left-deep plans -/

section LeftDeep

variable (cs : List (Nat × Nat))

/-- The left-deep plans the worker searches for the bitmap `B`: left-deep trees over `B`'s
ordinals, each once, whose left spine holds admissible sets; a leaf fits its singleton. -/
def FitsL (B : Nat) (t : JoinTree) : Prop :=
  bitmapOf t.leaves = B ∧ t.leaves.Nodup ∧ t.isLeftDeep ∧
    (t.leaves.length = 1 ∨ ∀ X ∈ t.spine, Admissible cs X.toFinset)

variable {cs}

theorem valid_eq_true {q : List Nat} {u : Nat} (hu : u ∈ q) :
    valid q cs u = true ↔ ∀ c ∈ cs, c.1 = u → c.2 ∉ q := by
  simp only [valid, Bool.not_eq_true', List.any_eq_false, Bool.and_eq_true, beq_iff_eq,
    List.elem_iff, not_and]
  exact forall₂_congr fun c _ => ⟨fun h h1 => h ⟨h1, h1 ▸ hu⟩, fun h h1 => h h1.1⟩

theorem mem_leftDeepSplits {q : List Nat} {lr : Nat × Nat} :
    lr ∈ leftDeepSplits q cs ↔
      ∃ u ∈ q, valid q cs u ∧ lr = (andNot (bitmapOf q) (1 <<< u), 1 <<< u) := by
  simp only [leftDeepSplits, List.mem_map, List.mem_filter, and_assoc, eq_comm]

theorem andNot_eq_bitmapOf_erase {q : List Nat} (hq : q.Nodup) (u : Nat) :
    andNot (bitmapOf q) (1 <<< u) = bitmapOf (q.erase u) :=
  Nat.eq_of_testBit_eq fun x => by
    simp only [testBit_andNot, testBit_bitmapOf, Nat.one_shiftLeft, Nat.testBit_two_pow,
      hq.mem_erase_iff]
    by_cases hx : x ∈ q <;> by_cases hux : u = x <;> simp [hx, hux, Ne.symm]

/-- Taking the bit of a member out and putting it back gives the set. -/
theorem andNot_or_one_shiftLeft {q : List Nat} {u : Nat} (hu : u ∈ q) :
    andNot (bitmapOf q) (1 <<< u) ||| 1 <<< u = bitmapOf q :=
  andNot_or_of_subBits fun x hx => by
    simp only [Nat.one_shiftLeft, Nat.testBit_two_pow, decide_eq_true_eq] at hx
    simp [← hx, hu]

/-- Appending a new ordinal and taking its bit out again gives the list's set. -/
theorem andNot_bitmapOf_append {l : List Nat} {u : Nat} (hu : u ∉ l) :
    andNot (bitmapOf (l ++ [u])) (1 <<< u) = bitmapOf l :=
  Nat.eq_of_testBit_eq fun x => by
    by_cases hx : x = u
    · subst hx; simp [hu]
    · simp [hx, Ne.symm hx]

theorem admissible_toFinset_iff {xs : List Nat} :
    Admissible cs xs.toFinset ↔ ∀ c ∈ cs, (bitmapOf xs).testBit c.2 → (bitmapOf xs).testBit c.1 := by
  simp [Admissible]

/-- Removing a valid ordinal keeps a set admissible. -/
theorem admissible_erase {q : List Nat} {u : Nat} (hq : q.Nodup) (hadm : Admissible cs q.toFinset)
    (hv : ∀ c ∈ cs, c.1 = u → c.2 ∉ q) : Admissible cs (q.erase u).toFinset := by
  intro c hc h2
  simp only [List.mem_toFinset, hq.mem_erase_iff] at h2 ⊢
  exact ⟨fun h1 => hv c hc h1 h2.2, hadm c hc (by simpa using h2.2) |> List.mem_toFinset.mp⟩

theorem leaves_mem_spine : ∀ t : JoinTree, t.leaves ∈ t.spine
  | .leaf _ => List.mem_singleton_self _
  | .join _ _ => List.mem_cons_self _ _

/-- The second ordinal of a constraint is never the first of another. -/
theorem partConstraints_fst_ne_snd {N p W : Nat} {c c' : Nat × Nat}
    (hc : c ∈ partConstraints N p W) (hc' : c' ∈ partConstraints N p W) : c'.1 ≠ c.2 := by
  obtain ⟨i, -, rfl⟩ := mem_partConstraints.mp hc
  obtain ⟨j, -, rfl⟩ := mem_partConstraints.mp hc'
  rw [partPair_eq, partPair_eq]
  rcases eq_or_ne i j with rfl | hij
  · split_ifs <;> simp
  · split_ifs <;> simp <;> omega

/-- Every nonempty set has a valid ordinal: if `u` is not, the other end of its constraint
is. -/
theorem exists_valid (N p W : Nat) {q : List Nat} (hne : q ≠ []) :
    ∃ u ∈ q, ∀ c ∈ partConstraints N p W, c.1 = u → c.2 ∉ q := by
  obtain ⟨u, hu⟩ := List.exists_mem_of_ne_nil q hne
  by_cases h : ∀ c ∈ partConstraints N p W, c.1 = u → c.2 ∉ q
  · exact ⟨u, hu, h⟩
  push_neg at h
  obtain ⟨c, hc, -, h2⟩ := h
  exact ⟨c.2, h2, fun c' hc' h1 => absurd h1 (partConstraints_fst_ne_snd hc hc')⟩

theorem partConstraints_lt {N p W : Nat} (hW : 2 * Nat.clog 2 W ≤ N) {c : Nat × Nat}
    (hc : c ∈ partConstraints N p W) : c.1 < N ∧ c.2 < N ∧ c.1 ≠ c.2 := by
  obtain ⟨i, hi, rfl⟩ := mem_partConstraints.mp hc
  rw [partPair_eq]; split <;> dsimp only <;> omega

/-- Facts about `adm_join_results` the scheme uses. -/
theorem admJoinResults_facts {N : Nat} (p W : Nat) (hN : 2 ∣ N) :
    (∀ q ∈ admJoinResults N (partConstraints N p W), q.Nodup ∧ ∀ x ∈ q, x < N) ∧
    ∀ q ∈ admJoinResults N (partConstraints N p W), Admissible (partConstraints N p W) q.toFinset := by
  refine ⟨fun q hq => ?_, fun q hq => ?_⟩
  · obtain ⟨-, hnd, hlt⟩ := mem_groupProduct (familyIn_constrainedPowerSet _ _) hq
    exact ⟨hnd, fun x hx => by have := hlt x hx; omega⟩
  · exact admissible_toFinset_iff.mpr
      (((admJoinResults_bitmaps N p W hN).2 (bitmapOf q)).mp (List.mem_map_of_mem _ hq)).2.2

/-- The parts of a left-deep split, `S \ {u}` and `{u}`, are known before `S`. -/
theorem leftDeepSplits_parts {N p W : Nat} (hN : 2 ∣ N) {q : List Nat}
    (hq : q ∈ splitSets (admJoinResults N (partConstraints N p W))) {lr : Nat × Nat}
    (hlr : lr ∈ leftDeepSplits q (partConstraints N p W)) :
    lr.1 &&& lr.2 = 0 ∧ lr.1 ||| lr.2 = bitmapOf q ∧
      Known N (splitSets (admJoinResults N (partConstraints N p W))) q lr.1 ∧
      Known N (splitSets (admJoinResults N (partConstraints N p W))) q lr.2 := by
  obtain ⟨hmem, hadm⟩ := admJoinResults_facts p W hN
  obtain ⟨hq', hlen⟩ := mem_splitSets.mp hq
  obtain ⟨u, hu, hv, rfl⟩ := mem_leftDeepSplits.mp hlr
  obtain ⟨hqnd, hqN⟩ := hmem q hq'
  have hlen' := List.length_erase_of_mem hu
  refine ⟨andNot_and_self _ _, andNot_or_one_shiftLeft hu, ?_, .inl ⟨u, hqN u hu, rfl⟩⟩
  rw [andNot_eq_bitmapOf_erase hqnd]
  refine known_of_adm (admJoinResults_bitmaps N p W hN).2 (fun q hq => (hmem q hq).1)
    (hqnd.erase u) (fun h => ?_) (fun x hx => hqN x (List.mem_of_mem_erase hx))
    (admissible_toFinset_iff.mp (admissible_erase hqnd (hadm q hq') ((valid_eq_true hu).mp hv)))
    (by omega)
  rw [h, List.length_nil] at hlen'
  omega

/-- The last join of a fitting left-deep plan adds a valid ordinal `u`: it is a split of
`try_splits`, and both sides fit. -/
theorem fitsL_decompose (hne : ∀ c ∈ cs, c.1 ≠ c.2) {q : List Nat} {l r : JoinTree}
    (h : FitsL cs (bitmapOf q) (.join l r)) :
    (bitmapOf l.leaves, bitmapOf r.leaves) ∈ leftDeepSplits q cs ∧
      FitsL cs (bitmapOf l.leaves) l ∧ FitsL cs (bitmapOf r.leaves) r := by
  obtain ⟨hbits, hnd, hld, hsp⟩ := h
  cases r with
  | join _ _ => simp [isLeftDeep] at hld
  | leaf u =>
    simp only [leaves_join, leaves_leaf] at hbits hnd hsp
    have hu : u ∉ l.leaves := fun h => (List.nodup_append.mp hnd).2.2 h (List.mem_singleton_self u)
    have hsp' : ∀ X ∈ (l.leaves ++ [u]) :: l.spine, Admissible cs X.toFinset :=
      hsp.resolve_left fun h1 => by
        simp only [List.length_append, List.length_singleton, add_left_eq_self,
          List.length_eq_zero] at h1
        exact l.leaves_ne_nil h1
    have huq : u ∈ q := by simpa using (congrArg (Nat.testBit · u) hbits).symm
    refine ⟨mem_leftDeepSplits.mpr ⟨u, huq, (valid_eq_true huq).mpr fun c hc h1 h2 => ?_,
        Prod.ext (by rw [← hbits, andNot_bitmapOf_append hu]) (bitmapOf_singleton u)⟩,
      ⟨rfl, (List.nodup_append.mp hnd).1, by simpa [isLeftDeep] using hld,
        .inr fun X hX => hsp' X (List.mem_cons_of_mem _ hX)⟩,
      ⟨rfl, List.nodup_singleton u, rfl, .inl rfl⟩⟩
    -- a constraint `(u, b)` with `b` in `l` breaks the spine set of `l`
    have h2' : c.2 ∈ l.leaves := by
      have := congrArg (Nat.testBit · c.2) hbits
      simp only [testBit_bitmapOf, List.mem_append, List.mem_singleton] at this
      simpa [h1 ▸ (hne c hc).symm, h2] using this
    exact hu (h1 ▸ List.mem_toFinset.mp (hsp' l.leaves (List.mem_cons_of_mem _ (leaves_mem_spine l))
      c hc (List.mem_toFinset.mpr h2')))

/-- A split `(S \ {u}, {u})` of an admissible `S` by a valid `u` extends a fitting plan of
`S \ {u}` by the leaf `u`. -/
theorem fitsL_compose {q : List Nat} (hqnd : q.Nodup) (hadm : Admissible cs q.toFinset)
    {lr : Nat × Nat} (hlr : lr ∈ leftDeepSplits q cs) {l r : JoinTree} (hl : FitsL cs lr.1 l)
    (hr : FitsL cs lr.2 r) : FitsL cs (bitmapOf q) (.join l r) := by
  obtain ⟨u, hu, hv, rfl⟩ := mem_leftDeepSplits.mp hlr
  obtain rfl := eq_leaf_of_bitmapOf hr.2.1 hr.1
  obtain ⟨hlb, hlnd, hld, hlsp⟩ := hl
  have hul : u ∉ l.leaves := fun h => by
    have := congrArg (Nat.testBit · u) hlb
    simp [h] at this
  have hS : bitmapOf (l.leaves ++ [u]) = bitmapOf q := by
    rw [bitmapOf_append, hlb, bitmapOf_singleton, andNot_or_one_shiftLeft hu]
  have hlq : Admissible cs l.leaves.toFinset := by
    rw [bitmapOf_eq_iff_toFinset.mp (hlb.trans (andNot_eq_bitmapOf_erase hqnd u))]
    exact admissible_erase hqnd hadm ((valid_eq_true hu).mp hv)
  refine ⟨hS, hlnd.append (List.nodup_singleton u) (List.disjoint_singleton.mpr hul),
    by simpa [isLeftDeep] using hld, .inr fun X hX => ?_⟩
  simp only [spine, leaves_leaf, List.mem_cons] at hX
  rcases hX with rfl | hX
  · rw [bitmapOf_eq_iff_toFinset.mp hS]; exact hadm
  · rcases hlsp with h1 | h1
    · cases l with
      | leaf v => simp only [spine, List.mem_singleton] at hX; subst hX; exact hlq
      | join a b =>
        have := List.length_pos.mpr a.leaves_ne_nil
        have := List.length_pos.mpr b.leaves_ne_nil
        simp only [leaves_join, List.length_append] at h1; omega
    · exact h1 X hX

/-- **The left-deep worker meets the scheme.** -/
theorem splitScheme_leftDeep (p W : Nat) {N : Nat} (hN : 2 ∣ N) :
    SplitScheme N (FitsL (partConstraints N p W)) (splitSets (admJoinResults N (partConstraints N p W)))
      (fun q => leftDeepSplits q (partConstraints N p W)) := by
  obtain ⟨hmem, hadm⟩ := admJoinResults_facts p W hN
  refine ⟨splitSets_sorted _, splitSets_nodup (admJoinResults_bitmaps N p W hN).1, fun q hq => ?_,
    fun B t h => ⟨h.1, h.2.1⟩, fun i _ => ⟨bitmapOf_singleton i, List.nodup_singleton i, rfl, .inl rfl⟩,
    fun q hq _ hlr => leftDeepSplits_parts hN hq hlr, fun q hq => ?_,
    fun q _ l r h => fitsL_decompose (fun c hc => (pairsInGroups_partConstraints N p W c hc).2) h,
    fun q hq _ hlr l r hl hr => ?_⟩
  · obtain ⟨hq', hlen⟩ := mem_splitSets.mp hq
    exact ⟨(hmem q hq').1, hlen, (hmem q hq').2⟩
  · -- a split exists: some ordinal of the set is valid
    obtain ⟨u, hu, hv⟩ := exists_valid N p W (List.ne_nil_of_length_pos
      (show 0 < q.length by have := (mem_splitSets.mp hq).2; omega))
    exact List.ne_nil_of_mem (mem_leftDeepSplits.mpr ⟨u, hu, (valid_eq_true hu).mpr hv, rfl⟩)
  · have hq' := (mem_splitSets.mp hq).1
    exact fitsL_compose (hmem q hq').1 (hadm q hq') hlr hl hr

/-- The `valid[]` scan keeps exactly the ordinals whose removal leaves an admissible set. -/
theorem valid_iff_admissible_erase {cs : List (Nat × Nat)} (hcs : PairsInGroups cs)
    {q : List Nat} (hq : q.Nodup) (hadm : Admissible cs q.toFinset) {u : Nat} (hu : u ∈ q) :
    valid q cs u = true ↔ Admissible cs (q.erase u).toFinset := by
  rw [valid_eq_true hu]
  refine ⟨admissible_erase hq hadm, fun h c hc h1 h2 => ?_⟩
  -- the other end of a constraint from `u` stays after `u` is removed, and pulls `u` back in
  have h2' : c.2 ∈ (q.erase u).toFinset := by
    rw [List.mem_toFinset, hq.mem_erase_iff]; exact ⟨h1 ▸ (hcs c hc).2.symm, h2⟩
  have := List.mem_toFinset.mp (h c hc h2')
  rw [h1] at this
  exact hq.not_mem_erase this

/-- **The left-deep splits.** For `N` even and at most 30, a constraint list
`part_constraints(N, p, W)` and a set `S` of at least two ordinals that `adm_join_results`
produces, the `int` pairs `(bitmap & ~(1 << u), 1 << u)` that `try_splits` tries are the model's,
and they are exactly the pairs `(S \ {u}, {u})` for the members `u` of `S` with `S \ {u}`
admissible, each tried once, and every part read is a seeded singleton or a set the worker
splits before `S`. -/
theorem leftDeepSplits_spec (N p W : Nat) (hN : 2 ∣ N) (hN30 : N ≤ 30) (q : List Nat)
    (hq : q ∈ admJoinResults N (partConstraints N p W)) (hlen : 2 ≤ q.length) :
    (intLeftDeepSplits q (partConstraints N p W)).map (fun lr => (lr.1.toInt, lr.2.toInt)) =
      (leftDeepSplits q (partConstraints N p W)).map (fun lr => ((lr.1 : Int), (lr.2 : Int))) ∧
    (∀ l r, (l, r) ∈ leftDeepSplits q (partConstraints N p W) ↔
      ∃ u ∈ q, l = bitmapOf (q.erase u) ∧ r = 1 <<< u ∧
        Admissible (partConstraints N p W) (q.erase u).toFinset) ∧
    (leftDeepSplits q (partConstraints N p W)).Nodup ∧
    ∀ lr ∈ leftDeepSplits q (partConstraints N p W),
      Known N (splitSets (admJoinResults N (partConstraints N p W))) q lr.1 ∧
      Known N (splitSets (admJoinResults N (partConstraints N p W))) q lr.2 := by
  obtain ⟨hmem, hadm⟩ := admJoinResults_facts p W hN
  have hnd := (hmem q hq).1
  refine ⟨intLeftDeepSplits_toInt _ fun x hx => by have := (hmem q hq).2 x hx; omega,
    fun l r => ?_, ?_, fun lr hlr =>
    (leftDeepSplits_parts hN (mem_splitSets.mpr ⟨hq, hlen⟩) hlr).2.2⟩
  · simp only [mem_leftDeepSplits, Prod.mk.injEq, andNot_eq_bitmapOf_erase hnd]
    refine exists_congr fun u => and_congr_right fun hu => ?_
    rw [valid_iff_admissible_erase (pairsInGroups_partConstraints N p W) hnd (hadm q hq) hu]
    tauto
  · -- the splits differ in the bit kept on the right
    exact (hnd.filter _).map fun u v h => one_shiftLeft_injective (Prod.mk.inj h).2

/-- With the constraint `(0, 1)`, the set `{2, 0, 1}` splits off `2` and `1`, never `0`. -/
theorem leftDeepSplits_spec_three :
    (intLeftDeepSplits [2, 0, 1] (partConstraints 4 0 2)).map (fun lr => (lr.1.toInt, lr.2.toInt)) =
      (leftDeepSplits [2, 0, 1] (partConstraints 4 0 2)).map (fun lr => ((lr.1 : Int), (lr.2 : Int))) ∧
    (∀ l r, (l, r) ∈ leftDeepSplits [2, 0, 1] (partConstraints 4 0 2) ↔
      ∃ u ∈ [2, 0, 1], l = bitmapOf ([2, 0, 1].erase u) ∧ r = 1 <<< u ∧
        Admissible (partConstraints 4 0 2) ([2, 0, 1].erase u).toFinset) ∧
    (leftDeepSplits [2, 0, 1] (partConstraints 4 0 2)).Nodup ∧
    ∀ lr ∈ leftDeepSplits [2, 0, 1] (partConstraints 4 0 2),
      Known 4 (splitSets (admJoinResults 4 (partConstraints 4 0 2))) [2, 0, 1] lr.1 ∧
      Known 4 (splitSets (admJoinResults 4 (partConstraints 4 0 2))) [2, 0, 1] lr.2 :=
  leftDeepSplits_spec 4 0 2 (by decide) (by decide) [2, 0, 1] (by decide) (by decide)

end LeftDeep

/-! ## Bushy plans -/

section Bushy

variable (cs : List (Nat × Nat × Nat))

/-- A bushy plan of `B`: its leaves make `B`, each once, and every node is admissible. -/
def FitsB (B : Nat) (t : JoinTree) : Prop :=
  bitmapOf t.leaves = B ∧ t.leaves.Nodup ∧ NodesAdmissible cs t

variable {cs}

theorem leaves_mem_nodes : ∀ t : JoinTree, t.leaves ∈ t.nodes
  | .leaf _ => by simp
  | .join _ _ => by simp

theorem nodesAdmissible_join {l r : JoinTree} :
    NodesAdmissible cs (.join l r) ↔ AdmissibleB cs (l.leaves ++ r.leaves).toFinset ∧
      NodesAdmissible cs l ∧ NodesAdmissible cs r := by
  simp only [NodesAdmissible, nodes_join, List.mem_cons, List.mem_append, forall_eq_or_imp,
    or_imp, forall_and, forall_eq]

/-- No constraint has its second and third ordinals equal, so a singleton is admissible. -/
theorem admissibleBits_one_shiftLeft (N p W x : Nat) :
    AdmissibleBits (partConstraintsB N p W) (1 <<< x) := by
  intro c hc h1 h2
  obtain ⟨j, rfl | rfl⟩ := triplesInGroups_partConstraintsB N p W c hc <;>
    simp only [Nat.one_shiftLeft, Nat.testBit_two_pow, decide_eq_true_eq] at h1 h2 <;> omega

/-- Facts about `adm_join_results_b` the scheme uses. -/
theorem admJoinResultsB_facts {N : Nat} (p W : Nat) (hN : 3 ∣ N) :
    (∀ q ∈ admJoinResultsB N (partConstraintsB N p W), q.Nodup ∧ ∀ x ∈ q, x < N) ∧
    ∀ q ∈ admJoinResultsB N (partConstraintsB N p W),
      AdmissibleBits (partConstraintsB N p W) (bitmapOf q) := by
  refine ⟨fun q hq => ?_, fun q hq =>
    (((admJoinResultsB_bitmaps N p W hN).2 (bitmapOf q)).mp (List.mem_map_of_mem _ hq)).2.2⟩
  obtain ⟨-, hnd, hlt⟩ := mem_groupProduct (familyIn_constrainedPowerSetB _ _) hq
  exact ⟨hnd, fun x hx => by have := hlt x hx; omega⟩

/-- The parts of a bushy split, `L` and `S \ L`, are known before `S`. -/
theorem bushySplits_parts {N p W : Nat} (hN : 3 ∣ N) {q : List Nat}
    (hq : q ∈ splitSets (admJoinResultsB N (partConstraintsB N p W))) {lr : Nat × Nat}
    (hlr : lr ∈ bushySplits q (partConstraintsB N p W) N) :
    lr.1 &&& lr.2 = 0 ∧ lr.1 ||| lr.2 = bitmapOf q ∧
      Known N (splitSets (admJoinResultsB N (partConstraintsB N p W))) q lr.1 ∧
      Known N (splitSets (admJoinResultsB N (partConstraintsB N p W))) q lr.2 := by
  obtain ⟨hmem, hadm⟩ := admJoinResultsB_facts p W hN
  obtain ⟨hqnd, hqN⟩ := hmem q (mem_splitSets.mp hq).1
  have hgen := (admJoinResultsB_bitmaps N p W hN).2
  have hnd : ∀ q ∈ admJoinResultsB N (partConstraintsB N p W), q.Nodup := fun q hq => (hmem q hq).1
  obtain ⟨hpos, hne, hsub, hr, hL, hR⟩ :=
    (mem_bushySplits hN hqN (hadm q (mem_splitSets.mp hq).1) lr.1 lr.2).mp hlr
  rw [hr, Nat.land_comm, Nat.lor_comm]
  exact ⟨andNot_and_self _ _, andNot_or_of_subBits hsub,
    known_of_subBits hgen hnd hqnd hqN hpos hne hsub hL,
    known_of_subBits hgen hnd hqnd hqN (andNot_pos hsub hne) (andNot_ne_self hsub hpos)
      (subBits_andNot _ _) hR⟩

/-- Every set split has a bushy split: take out one ordinal, the last of its group when that
is present. -/
theorem bushySplits_ne_nil {N p W : Nat} (hN : 3 ∣ N) {q : List Nat}
    (hq : q ∈ splitSets (admJoinResultsB N (partConstraintsB N p W))) :
    bushySplits q (partConstraintsB N p W) N ≠ [] := by
  obtain ⟨hmem, hadm⟩ := admJoinResultsB_facts p W hN
  obtain ⟨hq', hlen⟩ := mem_splitSets.mp hq
  obtain ⟨hqnd, hqN⟩ := hmem q hq'
  obtain ⟨y, hy⟩ := List.exists_mem_of_ne_nil q (List.ne_nil_of_length_pos (by omega))
  obtain ⟨x, hxq, hx⟩ : ∃ x ∈ q, x % 3 = 2 ∨ 3 * (x / 3) + 2 ∉ q := by
    by_cases h : 3 * (y / 3) + 2 ∈ q
    exacts [⟨_, h, .inl (by omega)⟩, ⟨y, hy, .inr h⟩]
  refine List.ne_nil_of_mem ((mem_bushySplits hN hqN (hadm q hq') (1 <<< x) _).mpr
    ⟨by simp [Nat.two_pow_pos], fun h => ?_, fun i hi => ?_, rfl,
      admissibleBits_one_shiftLeft N p W x, ?_⟩)
  · have := length_eq_of_bitmapOf_eq hqnd (List.nodup_singleton x)
      (h.symm.trans (bitmapOf_singleton x).symm)
    simp only [List.length_singleton] at this; omega
  · simp only [Nat.one_shiftLeft, Nat.testBit_two_pow, decide_eq_true_eq] at hi
    simp [← hi, hxq]
  · intro c hc h1 h2
    have hS := hadm q hq' c hc
    simp only [testBit_andNot, testBit_bitmapOf, Nat.one_shiftLeft, Nat.testBit_two_pow,
      Bool.and_eq_true, Bool.not_eq_true', decide_eq_true_eq, decide_eq_false_iff_not] at h1 h2 hS ⊢
    refine ⟨hS h1.1 h2.1, fun he => ?_⟩
    obtain ⟨j, rfl | rfl⟩ := triplesInGroups_partConstraintsB N p W c hc <;> dsimp only at he h2 <;>
    · have hg : 3 * (x / 3) + 2 = 3 * j + 2 := by omega
      exact hx.elim (fun _ => by omega) fun hx => hx (hg ▸ h2.1)

/-- The root join of a fitting bushy plan is a split of `try_splits_b`, and both sides fit. -/
theorem fitsB_decompose {N p W : Nat} (hN : 3 ∣ N) {q : List Nat} (hqN : ∀ x ∈ q, x < N)
    (hadm : AdmissibleBits (partConstraintsB N p W) (bitmapOf q)) {l r : JoinTree}
    (h : FitsB (partConstraintsB N p W) (bitmapOf q) (.join l r)) :
    (bitmapOf l.leaves, bitmapOf r.leaves) ∈ bushySplits q (partConstraintsB N p W) N ∧
      FitsB (partConstraintsB N p W) (bitmapOf l.leaves) l ∧
      FitsB (partConstraintsB N p W) (bitmapOf r.leaves) r := by
  obtain ⟨hbits, hnd', hnodes⟩ := h
  obtain ⟨-, hl, hr⟩ := nodesAdmissible_join.mp hnodes
  obtain ⟨hlnd, hrnd, hdisj⟩ := List.nodup_append.mp hnd'
  rw [leaves_join] at hbits
  have hrbits : bitmapOf r.leaves = andNot (bitmapOf q) (bitmapOf l.leaves) :=
    Nat.eq_of_testBit_eq fun x => by
      rw [← hbits]
      by_cases hx : x ∈ l.leaves
      · simp [hx, show x ∉ r.leaves from hdisj hx]
      · simp [hx]
  have hsub : SubBits (bitmapOf l.leaves) (bitmapOf q) := fun x hx => by
    rw [← hbits]; simp only [testBit_bitmapOf, decide_eq_true_eq, List.mem_append] at hx ⊢
    exact .inl hx
  refine ⟨(mem_bushySplits hN hqN hadm _ _).mpr ⟨Nat.pos_of_ne_zero
      (by simp [bitmapOf_eq_zero_iff, l.leaves_ne_nil]), fun he => ?_, hsub, hrbits,
      admissibleBits_bitmapOf.mpr (hl _ (leaves_mem_nodes l)),
      hrbits ▸ admissibleBits_bitmapOf.mpr (hr _ (leaves_mem_nodes r))⟩,
    ⟨rfl, hlnd, hl⟩, ⟨rfl, hrnd, hr⟩⟩
  -- the right side is nonempty, so the left one is a proper part
  obtain ⟨z, hz⟩ := List.exists_mem_of_ne_nil _ r.leaves_ne_nil
  have := congrArg (Nat.testBit · z) (he.trans hbits.symm)
  simp [hz, show z ∉ l.leaves from fun h => hdisj h hz] at this

/-- A bushy split joins fitting plans of its parts into a fitting plan of the set. -/
theorem fitsB_compose {N p W : Nat} (hN : 3 ∣ N) {q : List Nat} (hqN : ∀ x ∈ q, x < N)
    (hadm : AdmissibleBits (partConstraintsB N p W) (bitmapOf q)) {lr : Nat × Nat}
    (hlr : lr ∈ bushySplits q (partConstraintsB N p W) N) {l r : JoinTree}
    (hl : FitsB (partConstraintsB N p W) lr.1 l) (hr : FitsB (partConstraintsB N p W) lr.2 r) :
    FitsB (partConstraintsB N p W) (bitmapOf q) (.join l r) := by
  obtain ⟨-, -, hsub, hr', -, -⟩ := (mem_bushySplits hN hqN hadm lr.1 lr.2).mp hlr
  obtain ⟨hlb, hlnd, hl⟩ := hl
  obtain ⟨hrb, hrnd, hr⟩ := hr
  have hS : bitmapOf (l.leaves ++ r.leaves) = bitmapOf q := by
    rw [bitmapOf_append, hlb, hrb, hr', Nat.lor_comm]; exact andNot_or_of_subBits hsub
  refine ⟨hS, hlnd.append hrnd fun x hxl hxr => ?_, nodesAdmissible_join.mpr
    ⟨by rw [bitmapOf_eq_iff_toFinset.mp hS, ← admissibleBits_bitmapOf]; exact hadm, hl, hr⟩⟩
  have h1 := congrArg (Nat.testBit · x) hlb
  have h2 := congrArg (Nat.testBit · x) (hrb.trans hr')
  simp only [testBit_bitmapOf, hxl, hxr, decide_True, testBit_andNot] at h1 h2
  simp [← h1] at h2

/-- **The bushy worker meets the scheme.** -/
theorem splitScheme_bushy (p W : Nat) {N : Nat} (hN : 3 ∣ N) :
    SplitScheme N (FitsB (partConstraintsB N p W))
      (splitSets (admJoinResultsB N (partConstraintsB N p W)))
      (fun q => bushySplits q (partConstraintsB N p W) N) := by
  obtain ⟨hmem, hadm⟩ := admJoinResultsB_facts p W hN
  refine ⟨splitSets_sorted _, splitSets_nodup (admJoinResultsB_bitmaps N p W hN).1, fun q hq => ?_,
    fun B t h => ⟨h.1, h.2.1⟩, fun i _ => ⟨bitmapOf_singleton i, List.nodup_singleton i, fun X hX => ?_⟩,
    fun q hq _ hlr => bushySplits_parts hN hq hlr, fun q hq => bushySplits_ne_nil hN hq,
    fun q hq l r h => ?_, fun q hq _ hlr l r hl hr => ?_⟩
  · obtain ⟨hq', hlen⟩ := mem_splitSets.mp hq
    exact ⟨(hmem q hq').1, hlen, (hmem q hq').2⟩
  · rw [nodes_leaf, List.mem_singleton] at hX
    rw [hX, ← admissibleBits_bitmapOf, bitmapOf_singleton]
    exact admissibleBits_one_shiftLeft N p W i
  · have hq' := (mem_splitSets.mp hq).1
    exact fitsB_decompose hN (hmem q hq').2 (hadm q hq') h
  · have hq' := (mem_splitSets.mp hq).1
    exact fitsB_compose hN (hmem q hq').2 (hadm q hq') hlr hl hr

/-- **The splits of `try_splits_b` on a set of `adm_join_results_b`**: for `N` a multiple of 3
and at most 30, and a set `S` of at least two ordinals that `adm_join_results_b` produces, the
`int` pairs `(bitmapl, bitmap - bitmapl)` tried are the model's, and they are exactly the ordered
pairs `(L, S \ L)` of nonempty sets both admissible, each tried once, and every part read is a
seeded singleton or a set the worker splits before `S`. -/
theorem bushySplits_spec (N p W : Nat) (hN : 3 ∣ N) (hN30 : N ≤ 30) (q : List Nat)
    (hq : q ∈ admJoinResultsB N (partConstraintsB N p W)) (hlen : 2 ≤ q.length) :
    (intBushySplits q (partConstraintsB N p W) N).map (fun lr => (lr.1.toInt, lr.2.toInt)) =
      (bushySplits q (partConstraintsB N p W) N).map (fun lr => ((lr.1 : Int), (lr.2 : Int))) ∧
    (∀ l r, (l, r) ∈ bushySplits q (partConstraintsB N p W) N ↔
      l &&& r = 0 ∧ l ||| r = bitmapOf q ∧ 0 < l ∧ 0 < r ∧
        AdmissibleBits (partConstraintsB N p W) l ∧ AdmissibleBits (partConstraintsB N p W) r) ∧
    (bushySplits q (partConstraintsB N p W) N).Nodup ∧
    ∀ lr ∈ bushySplits q (partConstraintsB N p W) N,
      Known N (splitSets (admJoinResultsB N (partConstraintsB N p W))) q lr.1 ∧
      Known N (splitSets (admJoinResultsB N (partConstraintsB N p W))) q lr.2 := by
  obtain ⟨hmem, hadm⟩ := admJoinResultsB_facts p W hN
  refine ⟨intBushySplits_toInt _ N fun x hx => by have := (hmem q hq).2 x hx; omega,
    fun l r => ?_, nodup_bushySplits q N p W, fun lr hlr =>
    (bushySplits_parts hN (mem_splitSets.mpr ⟨hq, hlen⟩) hlr).2.2⟩
  rw [mem_bushySplits hN (hmem q hq).2 (hadm q hq)]
  constructor
  · rintro ⟨hpos, hne, hsub, rfl, hL, hR⟩
    exact ⟨by rw [Nat.land_comm]; exact andNot_and_self _ _,
      by rw [Nat.lor_comm]; exact andNot_or_of_subBits hsub, hpos, andNot_pos hsub hne, hL, hR⟩
  · rintro ⟨hand, hor, hpos, hrpos, hL, hR⟩
    obtain ⟨hsub, rfl⟩ := subBits_andNot_of_and_eq_zero hand hor
    exact ⟨hpos, ne_of_and_eq_zero hand hor hrpos.ne', hsub, rfl, hL, hR⟩

/-- The constrained group `{0, 1, 2}` of the second of two workers. -/
theorem bushySplits_spec_three :
    (intBushySplits [0, 1, 2] (partConstraintsB 3 1 2) 3).map (fun lr => (lr.1.toInt, lr.2.toInt)) =
      (bushySplits [0, 1, 2] (partConstraintsB 3 1 2) 3).map (fun lr => ((lr.1 : Int), (lr.2 : Int))) ∧
    (∀ l r, (l, r) ∈ bushySplits [0, 1, 2] (partConstraintsB 3 1 2) 3 ↔
      l &&& r = 0 ∧ l ||| r = bitmapOf [0, 1, 2] ∧ 0 < l ∧ 0 < r ∧
        AdmissibleBits (partConstraintsB 3 1 2) l ∧ AdmissibleBits (partConstraintsB 3 1 2) r) ∧
    (bushySplits [0, 1, 2] (partConstraintsB 3 1 2) 3).Nodup ∧
    ∀ lr ∈ bushySplits [0, 1, 2] (partConstraintsB 3 1 2) 3,
      Known 3 (splitSets (admJoinResultsB 3 (partConstraintsB 3 1 2))) [0, 1, 2] lr.1 ∧
      Known 3 (splitSets (admJoinResultsB 3 (partConstraintsB 3 1 2))) [0, 1, 2] lr.2 :=
  bushySplits_spec 3 1 2 (by decide) (by decide) [0, 1, 2] (by decide) (by decide)

/-- With 33 relations and one worker, `adm_join_results_b` lists the set `{0, 32}`. On 32 bits
`1 << 32` is `0`, so `bitmapl` is `0` for `{32}` and `bitmap` for `{0}` and `{0, 32}`:
`try_splits_b` tries neither of the two splits of the set. -/
theorem bushySplits_spec_thirtyThree :
    ∃ q ∈ admJoinResultsB 33 (partConstraintsB 33 0 1), 2 ≤ q.length ∧
      intBushySplits q (partConstraintsB 33 0 1) 33 = [] ∧
      (bushySplits q (partConstraintsB 33 0 1) 33).length = 2 := by
  obtain ⟨q, hq, hb⟩ := List.mem_map.mp (((admJoinResultsB_bitmaps 33 0 1 (by decide)).2
    (bitmapOf [0, 32])).mpr ⟨by decide, by decide, by decide⟩)
  have hmem : ∀ x, x ∈ q ↔ x ∈ [0, 32] := bitmapOf_eq_iff.mp hb
  have hc : (fun x => q.contains x) = fun x => [0, 32].contains x :=
    funext fun x => by simp only [List.elem_eq_mem, hmem]
  have hperm : q.Perm [0, 32] := List.perm_of_nodup_nodup_toFinset_eq
    ((admJoinResultsB_facts 0 1 (by decide)).1 q hq).1 (by decide) (Finset.ext fun x => by simp [hmem])
  refine ⟨q, hq, by rw [hperm.length_eq]; decide, ?_, ?_⟩
  · rw [intBushySplits, hc, intBitmapOf_eq, hb]
    decide
  · rw [bushySplits, hc, hb]
    decide

end Bushy

/-! ## The left-deep worker -/

section Worker

variable {R C : Type} [LinearOrder C] (o : Oracle R C)

/-- `c` is the least cost of a plan over all `N` relations whose tree satisfies `A`, and some
such plan costs `c`. -/
structure IsMinCost (N : Nat) (rels : List R) (A : JoinTree → Prop) (c : C) : Prop where
  le_plan : ∀ t, t.leaves.Perm (List.range N) → A t →
    ∃ y, o.plan N rels t = some y ∧ c ≤ o.totalCost y
  attained : ∃ t y, t.leaves.Perm (List.range N) ∧ A t ∧ o.plan N rels t = some y ∧
    o.totalCost y = c

theorem workerTable_leftDeep (N p W : Nat) (rels : List R) :
    workerTable o .leftDeep N p W rels =
      (splitSets (admJoinResults N (partConstraints N p W))).foldlM (fun P q =>
        trySplitList o (q.length != N) (bitmapOf q) (leftDeepSplits q (partConstraints N p W)) P)
        (seedTable N rels) :=
  splitLoop_eq_foldlM _ _ _

theorem workerTable_bushy (N p W : Nat) (rels : List R) :
    workerTable o .bushy N p W rels =
      (splitSets (admJoinResultsB N (partConstraintsB N p W))).foldlM (fun P q =>
        trySplitList o (q.length != N) (bitmapOf q) (bushySplits q (partConstraintsB N p W) N) P)
        (seedTable N rels) :=
  splitLoop_eq_foldlM _ _ _

variable {o}

/-- With its table allocated, the worker copies out the entry at the set of all ordinals. -/
theorem worker_eq_ok {pType : PType} {N p W : Nat} {rels : List R} {P : Table R} {r : R}
    (hfit : N ≤ 26) (h : workerTable o pType N p W rels = .ok P) (hr : P (2 ^ N - 1) = some r) :
    worker o pType N p W rels = .ok r := by
  rw [worker, if_pos (tableAllocOk_iff.mpr hfit), h, Nat.one_shiftLeft]
  simp only [bind, Except.bind, hr]; rfl

theorem bitmapOf_of_perm {l : List Nat} {N : Nat} (h : l.Perm (List.range N)) :
    bitmapOf l = 2 ^ N - 1 := by
  rw [← bitmapOf_range]; exact bitmapOf_eq_iff.mpr fun i => h.mem_iff

theorem perm_range_of_bitmapOf {l : List Nat} {N : Nat} (hnd : l.Nodup)
    (h : bitmapOf l = 2 ^ N - 1) : l.Perm (List.range N) :=
  List.perm_of_nodup_nodup_toFinset_eq hnd (List.nodup_range N)
    (bitmapOf_eq_iff_toFinset.mp (h.trans (bitmapOf_range N).symm))

/-- The relation optimal at the set of all `N` ordinals has the least cost over the trees of
all `N` relations that fit it. -/
theorem isMinCost_of_optimal {N : Nat} {rels : List R} {Fits : Nat → JoinTree → Prop}
    {A : JoinTree → Prop} {r : R} (hlen : rels.length = N) (hdisj : o.DisjointRels rels)
    (hacc : o.AcceptsDisjoint) (hFits : ∀ B t, Fits B t → bitmapOf t.leaves = B ∧ t.leaves.Nodup)
    (hA : ∀ t, t.leaves.Perm (List.range N) → (Fits (2 ^ N - 1) t ↔ A t))
    (hro : Optimal o N rels Fits (2 ^ N - 1) r) : IsMinCost o N rels A (o.totalCost r) := by
  refine ⟨fun t hperm ht => ?_, ?_⟩
  · obtain ⟨y, hy⟩ : ∃ y, o.plan N rels t = some y := Oracle.plan_isSome hacc hdisj
      (hperm.nodup_iff.mpr (List.nodup_range N)) fun i hi =>
        hlen ▸ List.mem_range.mp (hperm.mem_iff.mp hi)
    exact ⟨y, hy, hro.le_plan t y ((hA t hperm).mpr ht) hy⟩
  · obtain ⟨t, y, hfit, hy, hc⟩ := hro.attained
    have hperm := perm_range_of_bitmapOf (hFits _ t hfit).2 (hFits _ t hfit).1
    exact ⟨t, y, hperm, (hA t hperm).mp hfit, hy, hc⟩

/-- The left-deep worker's relation has the least cost over the left-deep trees whose order
respects its constraints. -/
theorem worker_leftDeep_minCost (o : Oracle R C) (N p W : Nat) (rels : List R) (hN : 2 ∣ N)
    (h2 : 2 ≤ N) (hfit : N ≤ 26) (hW : 2 * Nat.clog 2 W ≤ N) (hlen : rels.length = N)
    (hdisj : o.DisjointRels rels) (hacc : o.AcceptsDisjoint) (hmono : o.CostMonotone) :
    ∃ r, worker o .leftDeep N p W rels = .ok r ∧
      IsMinCost o N rels (fun t => t.isLeftDeep ∧ Respects t.leaves (partConstraints N p W))
        (o.totalCost r) := by
  obtain ⟨P, hrun, hopt⟩ := run_optimal (splitScheme_leftDeep p W hN) hacc hmono hlen hdisj
  obtain ⟨q0, hq0, hfull⟩ := exists_full (admJoinResults_bitmaps N p W hN).2
    (fun q hq => ((admJoinResults_facts p W hN).1 q hq).1) h2
    fun c hc _ => by simpa using (partConstraints_lt hW hc).1
  obtain ⟨r, hr, hro⟩ := hopt q0 hq0
  rw [hfull] at hr hro
  refine ⟨r, worker_eq_ok hfit ((workerTable_leftDeep o N p W rels).trans hrun) hr,
    isMinCost_of_optimal hlen hdisj hacc (fun B t h => ⟨h.1, h.2.1⟩) (fun t hperm => ?_) hro⟩
  -- a left-deep tree over all `N` ordinals fits iff its order respects the constraints
  have hnd := hperm.nodup_iff.mpr (List.nodup_range N)
  have hcs : ∀ c ∈ partConstraints N p W, c.1 ≠ c.2 ∧ c.2 ∈ t.leaves := fun c hc =>
    ⟨(partConstraints_lt hW hc).2.2,
      hperm.mem_iff.mpr (List.mem_range.mpr (partConstraints_lt hW hc).2.1)⟩
  have hlenN : t.leaves.length ≠ 1 := by rw [hperm.length_eq, List.length_range]; omega
  refine ⟨fun ⟨_, _, hld, hsp⟩ => ⟨hld, ?_⟩, fun ⟨hld, hresp⟩ => ⟨bitmapOf_of_perm hperm, hnd, hld, .inr ?_⟩⟩
  all_goals obtain ⟨x, rest, rfl⟩ := eq_leftDeep t hld
  all_goals simp only [leaves_leftDeep] at *
  · exact (respects_iff_spine hnd hcs).mpr (hsp.resolve_left hlenN)
  · exact (respects_iff_spine hnd hcs).mp hresp

/-- The bushy worker's relation has the least cost over the trees whose nodes are admissible
under its constraints. -/
theorem worker_bushy_minCost (o : Oracle R C) (N p W : Nat) (rels : List R) (hN : 3 ∣ N)
    (hpos : 0 < N) (hfit : N ≤ 26) (hlen : rels.length = N) (hdisj : o.DisjointRels rels)
    (hacc : o.AcceptsDisjoint) (hmono : o.CostMonotone) :
    ∃ r, worker o .bushy N p W rels = .ok r ∧
      IsMinCost o N rels (NodesAdmissible (partConstraintsB N p W)) (o.totalCost r) := by
  obtain ⟨P, hrun, hopt⟩ := run_optimal (splitScheme_bushy p W hN) hacc hmono hlen hdisj
  obtain ⟨q0, hq0, hfull⟩ := exists_full (admJoinResultsB_bitmaps N p W hN).2
    (fun q hq => ((admJoinResultsB_facts p W hN).1 q hq).1) (by omega) fun c hc _ h3 => by
      obtain ⟨j, rfl | rfl⟩ := triplesInGroups_partConstraintsB N p W c hc <;>
        simp only [Nat.testBit_two_pow_sub_one, decide_eq_true_eq] at h3 ⊢ <;> omega
  obtain ⟨r, hr, hro⟩ := hopt q0 hq0
  rw [hfull] at hr hro
  exact ⟨r, worker_eq_ok hfit ((workerTable_bushy o N p W rels).trans hrun) hr,
    isMinCost_of_optimal hlen hdisj hacc (fun B t h => ⟨h.1, h.2.1⟩) (fun t hperm =>
      ⟨fun h => h.2.2, fun h => ⟨bitmapOf_of_perm hperm,
        hperm.nodup_iff.mpr (List.nodup_range N), h⟩⟩) hro⟩

/-! ## Optimality of one worker -/

/-- **The left-deep worker is optimal.** With `N` even and at most 26, constraints among the
first `N` ordinals, relations with disjoint relids and an oracle that accepts disjoint pairs at a cost
monotone in its inputs', the worker with `part_id = p` never passes NULL to `make_join_rel`
and returns a relation whose cost is the least among the left-deep plans of the orders that
respect its constraints; one such plan has that cost. -/
theorem worker_leftDeep_optimal (o : Oracle R C) (N p W : Nat) (rels : List R) (hN : 2 ∣ N)
    (h2 : 2 ≤ N) (hfit : N ≤ 26) (hW : 2 * Nat.clog 2 W ≤ N) (hlen : rels.length = N)
    (hdisj : o.DisjointRels rels) (hacc : o.AcceptsDisjoint) (hmono : o.CostMonotone) :
    ∃ r, worker o .leftDeep N p W rels = .ok r ∧
      (∀ x rest, (x :: rest).Perm (List.range N) → Respects (x :: rest) (partConstraints N p W) →
        ∃ y, o.plan N rels (leftDeep x rest) = some y ∧ o.totalCost r ≤ o.totalCost y) ∧
      ∃ x rest y, (x :: rest).Perm (List.range N) ∧ Respects (x :: rest) (partConstraints N p W) ∧
        o.plan N rels (leftDeep x rest) = some y ∧ o.totalCost y = o.totalCost r := by
  obtain ⟨r, hr, hmin⟩ := worker_leftDeep_minCost o N p W rels hN h2 hfit hW hlen hdisj hacc hmono
  refine ⟨r, hr, fun x rest hperm hresp => hmin.le_plan _ (by rwa [leaves_leftDeep])
    ⟨isLeftDeep_leftDeep x rest, by rwa [leaves_leftDeep]⟩, ?_⟩
  obtain ⟨t, y, hperm, ⟨hld, hresp⟩, hy, hc⟩ := hmin.attained
  obtain ⟨x, rest, rfl⟩ := eq_leftDeep t hld
  rw [leaves_leftDeep] at hperm hresp
  exact ⟨x, rest, y, hperm, hresp, hy, hc⟩

/-- Four relations of cost 0 and four workers: worker 1 returns a relation as cheap as every
left-deep plan of the orders it admits, and one of them costs as much. -/
theorem worker_leftDeep_optimal_four :
    ∃ r, worker sumOracle .leftDeep 4 1 4 [([0], 0), ([1], 0), ([2], 0), ([3], 0)] = .ok r ∧
      (∀ x rest, (x :: rest).Perm (List.range 4) → Respects (x :: rest) (partConstraints 4 1 4) →
        ∃ y, sumOracle.plan 4 [([0], 0), ([1], 0), ([2], 0), ([3], 0)] (leftDeep x rest) = some y ∧
          sumOracle.totalCost r ≤ sumOracle.totalCost y) ∧
      ∃ x rest y, (x :: rest).Perm (List.range 4) ∧ Respects (x :: rest) (partConstraints 4 1 4) ∧
        sumOracle.plan 4 [([0], 0), ([1], 0), ([2], 0), ([3], 0)] (leftDeep x rest) = some y ∧
        sumOracle.totalCost y = sumOracle.totalCost r :=
  worker_leftDeep_optimal sumOracle 4 1 4 _ (by decide) (by decide) (by decide)
    (by rw [show (4 : Nat) = 2 ^ 2 from rfl, Nat.clog_pow 2 2 (by decide)]; decide) rfl (by decide)
    sumOracle_acceptsDisjoint sumOracle_costMonotone

/-- Thirty-two relations with one worker: `1 << 32` has no `int` value, its 32-bit value `0`
leaves no table, and the worker faults. From 27 relations on `palloc` already refuses the table
(`tableAllocOk_iff`). -/
theorem worker_leftDeep_thirtyTwo :
    2 ∣ 32 ∧ 2 * Nat.clog 2 1 ≤ 32 ∧ sumOracle.AcceptsDisjoint ∧ sumOracle.CostMonotone ∧
      sumOracle.DisjointRels ((List.range 32).map fun i => ([i], 0)) ∧ intShiftLeft 32 = 0 ∧
      worker sumOracle .leftDeep 32 0 1 ((List.range 32).map fun i => ([i], 0)) =
        .error .tableAlloc :=
  ⟨by decide, by rw [Nat.clog_one_right]; decide, sumOracle_acceptsDisjoint,
    sumOracle_costMonotone, sumOracle_disjointRels_range 32, by decide, rfl⟩

end Worker

end ParallelJoin
