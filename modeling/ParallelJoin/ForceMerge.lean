import ParallelJoin.Clump
import ParallelJoin.Worker

/-!
# The force phase: clump order, exhaustiveness and the gather test

`construct_rel_based_on_plan` folds `force_merge_clump` over the clumps of `try_merge_clump`,
from NIL (`parallel_eval.c:97-108`). Each call ends in one insertion: the recursion of
`force_merge_clump` drops the clumps it absorbs and inserts the last merged clump into what is
left of the list (`forceMergeClump_eq_insertClump`).

* The insertion (`parallel_eval.c:198-214`) puts `rel` after the leading clumps at least as
  large and before the first smaller one (`insertClump_eq`). The append branch for a singleton
  agrees with this because no relation has an empty `relids`; the results below assume so of
  the initial relations, and joins inherit it.
* A clump enters the list when it is inserted; the scan tries `make_join_rel(old_rel, rel)`
  with every clump `old_rel` already in the list, so a clump inserted is rejected by every clump
  that entered before it.
* `force_merge_clump` decides `generate_gather_paths` by `bms_num_members(joinrel->relids)`, a
  count of base relids (`parallel_eval.c:181`); `try_merge_clump` counts the relids of the
  guide tree node (`:149`), and `try_splits` and `try_splits_b` the initial relations of the set
  (`parallel_worker.c:329`, `:560`). An initial relation that is the result of a sub-joinlist
  covers several base relids, and there the counts differ.

Results:
* `forceMergeClump_sizeDesc`: a force merge keeps a size-descending list size-descending,
  inserts like the scan of `parallel_eval.c:206-213` when nothing joins, and the list is
  size-descending before every insertion of the force phase.
* `constructRelBasedOnPlan_rejects`: after the force phase, the clumps left, in the order they
  entered (`insertedClumps`), reject every join of an earlier one with a later one; the
  assembler returns NULL only with two or more such clumps left.
* `forceMergeClump_gather_three`: a join of two of three initial relations, the first covering
  two base relids, gets no gather paths from `force_merge_clump`, while `try_merge_clump`,
  `try_splits` and `try_splits_b` give the same join gather paths.
-/

namespace ParallelJoin

variable {R C : Type} {o : Oracle R C}

/-! ## `try_merge_clump` and the scan -/

/-- **Inversion of an inner node of `try_merge_clump`**: both children's clump lists, then their
concatenation or the one join of two single clumps. -/
theorem tryMergeClump_node_eq_ok {levelsNeeded : Nat} {rels : List R} {relids : List Nat}
    {left right : GuideTree} {l : List R}
    (h : tryMergeClump o levelsNeeded rels (.node relids left right) = .ok l) :
    ∃ l1 l2, tryMergeClump o levelsNeeded rels left = .ok l1 ∧
      tryMergeClump o levelsNeeded rels right = .ok l2 ∧
      (l = l1 ++ l2 ∨ ∃ rel1 rel2 j, l1 = [rel1] ∧ l2 = [rel2] ∧
        o.joinRel (decide (relids.length < levelsNeeded)) rel1 rel2 = some j ∧ l = [j]) := by
  simp only [tryMergeClump, bind_eq_ok] at h
  obtain ⟨l1, h1, l2, h2, h⟩ := h
  refine ⟨l1, l2, h1, h2, ?_⟩
  split at h
  · cases h; exact .inl rfl
  · split at h
    · split at h
      · split at h
        · cases h; exact .inr ⟨_, _, _, rfl, rfl, ‹_›, rfl⟩
        · cases h; exact .inl rfl
      · cases h; exact .inl rfl
    · cases h

/-- `try_merge_clump` returns at least one clump. -/
theorem tryMergeClump_ne_nil {levelsNeeded : Nat} {rels : List R} :
    ∀ (bt : GuideTree) {l : List R}, tryMergeClump o levelsNeeded rels bt = .ok l → l ≠ []
  | .leaf relid, l, h => by
    simp only [tryMergeClump] at h
    split at h
    · cases h; exact List.cons_ne_nil _ _
    · cases h
  | .node relids left right, l, h => by
    obtain ⟨l1, l2, h1, -, rfl | ⟨-, -, j, -, -, -, rfl⟩⟩ := tryMergeClump_node_eq_ok h
    · simp [tryMergeClump_ne_nil left h1]
    · exact List.cons_ne_nil _ _

/-- Every clump of `try_merge_clump` has relids when every initial relation has. -/
theorem tryMergeClump_card_pos {levelsNeeded : Nat} {rels : List R}
    (hrels : ∀ r ∈ rels, 0 < (o.relids r).card) :
    ∀ (bt : GuideTree) {l : List R}, tryMergeClump o levelsNeeded rels bt = .ok l →
      ∀ r ∈ l, 0 < (o.relids r).card
  | .leaf relid, l, h => by
    simp only [tryMergeClump] at h
    split at h
    · cases h
      simpa using hrels _ (List.mem_iff_getElem?.mpr ⟨_, ‹_›⟩)
    · cases h
  | .node relids left right, l, h => by
    obtain ⟨l1, l2, h1, h2, rfl | ⟨rel1, rel2, j, rfl, rfl, hj, rfl⟩⟩ := tryMergeClump_node_eq_ok h
    · exact fun r hr => (List.mem_append.mp hr).elim (tryMergeClump_card_pos hrels left h1 r)
        (tryMergeClump_card_pos hrels right h2 r)
    · have hp1 := tryMergeClump_card_pos hrels left h1 rel1 (List.mem_singleton_self _)
      intro r hr
      rw [List.mem_singleton.mp hr, o.relids_joinRel hj]
      exact hp1.trans_le (Finset.card_le_card Finset.subset_union_left)

/-- The scan finds no clump exactly when every clump rejects `rel`. -/
theorem findJoin_eq_none_iff {levelsNeeded : Nat} {rel : R} :
    ∀ {l : List R}, findJoin o levelsNeeded rel l = none ↔ ∀ a ∈ l, o.makeJoinRel a rel = none
  | [] => by simp [findJoin]
  | old :: l => by
    unfold findJoin
    split
    · rename_i j hj
      simp only [List.mem_cons, forall_eq_or_imp, hj, reduceCtorEq, false_and, iff_false,
        not_false_eq_true]
    · rename_i hj
      rw [Option.map_eq_none', findJoin_eq_none_iff, List.forall_mem_cons]
      exact ⟨fun h => ⟨hj, h⟩, And.right⟩

/-- The scan leaves the other clumps in their order. -/
theorem findJoin_sublist {levelsNeeded : Nat} {rel : R} :
    ∀ {l rest : List R} {j : R}, findJoin o levelsNeeded rel l = some (rest, j) → rest.Sublist l
  | [], _, _, h => by cases h
  | old :: l, rest, j, h => by
    unfold findJoin at h
    split at h
    · cases h; exact List.sublist_cons_self _ _
    · obtain ⟨⟨rest', j'⟩, h', he⟩ := Option.map_eq_some'.mp h
      cases he
      exact (findJoin_sublist h').cons₂ old

/-- The clump a force merge inserts: `rel` joined in turn with every clump the recursion of
`force_merge_clump` absorbs (`parallel_eval.c:170-197`). -/
def mergedClump (o : Oracle R C) (levelsNeeded : Nat) (frelList : List R) (rel : R) : R :=
  match _h : findJoin o levelsNeeded rel frelList with
  | some (rest, joinrel) => mergedClump o levelsNeeded rest joinrel
  | none => rel
termination_by frelList.length
decreasing_by exact findJoin_length o _h

/-- The clumps the force phase inserts into `frel_list`, in the order it inserts them: the order
in which clumps enter the list. -/
def insertedClumps (o : Oracle R C) (levelsNeeded : Nat) : List R → List R → List R
  | _, [] => []
  | frelList, rel :: rels => mergedClump o levelsNeeded frelList rel ::
      insertedClumps o levelsNeeded (forceMergeClump o levelsNeeded frelList rel) rels

theorem mergedClump_of_some {levelsNeeded : Nat} {l rest : List R} {rel j : R}
    (h : findJoin o levelsNeeded rel l = some (rest, j)) :
    mergedClump o levelsNeeded l rel = mergedClump o levelsNeeded rest j := by
  rw [mergedClump]
  split <;> simp_all

theorem mergedClump_of_none {levelsNeeded : Nat} {l : List R} {rel : R}
    (h : findJoin o levelsNeeded rel l = none) : mergedClump o levelsNeeded l rel = rel := by
  rw [mergedClump]
  split <;> simp_all

/-- **A force merge is one insertion**: after the merges, the last merged clump, which covers
`rel`, is inserted into what is left of the list, and no clump left joins it. -/
theorem forceMergeClump_eq_insertClump (o : Oracle R C) (levelsNeeded : Nat) (l : List R)
    (rel : R) :
    ∃ l' rel', rel' = mergedClump o levelsNeeded l rel ∧ l'.Sublist l ∧
      o.relids rel ⊆ o.relids rel' ∧ findJoin o levelsNeeded rel' l' = none ∧
      forceMergeClump o levelsNeeded l rel = insertClump o l' rel' := by
  induction l, rel using forceMergeClump.induct o levelsNeeded with
  | case1 l rel rest j h ih =>
    obtain ⟨l', rel', hm, hsub, hrel, hnone, heq⟩ := ih
    obtain ⟨old, -, hj⟩ := findJoin_spec h
    refine ⟨l', rel', hm.trans (mergedClump_of_some h).symm, hsub.trans (findJoin_sublist h), ?_,
      hnone, ?_⟩
    · exact (hj ▸ Finset.subset_union_right).trans hrel
    · rw [forceMergeClump_of_some o h, heq]
  | case2 l rel h => exact ⟨l, rel, (mergedClump_of_none h).symm, List.Sublist.refl l, subset_rfl,
      h, forceMergeClump_of_none o h⟩

/-! ## Size-descending clump lists -/

/-- `bms_num_members(rel->relids)` does not increase along the clump list. -/
def SizeDesc (o : Oracle R C) (l : List R) : Prop :=
  l.Pairwise fun a b => (o.relids b).card ≤ (o.relids a).card

instance (o : Oracle R C) (l : List R) : Decidable (SizeDesc o l) :=
  inferInstanceAs (Decidable (List.Pairwise _ l))

/-- The leading clumps at least as large as `s`. -/
def atLeast (o : Oracle R C) (s : Nat) (r : R) : Bool := decide (s ≤ (o.relids r).card)

theorem insertAfterLarger_eq (s : Nat) (rel : R) :
    ∀ l : List R, insertAfterLarger o s rel l =
      l.takeWhile (atLeast o s) ++ rel :: l.dropWhile (atLeast o s)
  | [] => rfl
  | nxt :: rest => by
    unfold insertAfterLarger
    by_cases h : s > (o.relids nxt).card
    · simp [h, atLeast, List.takeWhile_cons, List.dropWhile_cons, Nat.not_le.mpr h]
    · simp [h, atLeast, List.takeWhile_cons, List.dropWhile_cons, Nat.le_of_not_lt h,
        insertAfterLarger_eq s rel rest]

/-- **The insertion of `force_merge_clump`** puts `rel` after the leading clumps at least as
large and before the first smaller one, when every clump has relids. -/
theorem insertClump_eq {l : List R} (rel : R) (hpos : ∀ r ∈ l, 0 < (o.relids r).card) :
    insertClump o l rel = l.takeWhile (atLeast o (o.relids rel).card) ++
      rel :: l.dropWhile (atLeast o (o.relids rel).card) := by
  unfold insertClump
  split
  · rfl
  · split
    · -- a singleton: every clump is at least as large
      rename_i h1
      rw [List.takeWhile_eq_self_iff.mpr fun r hr => by simpa [atLeast, h1] using hpos r hr,
        List.dropWhile_eq_nil_iff.mpr fun r hr => by simpa [atLeast, h1] using hpos r hr]
    · split
      · rename_i _ h2
        simp [List.takeWhile_cons, List.dropWhile_cons, atLeast, Nat.not_le.mpr h2]
      · rename_i _ h2
        simp [List.takeWhile_cons, List.dropWhile_cons, atLeast, Nat.le_of_not_lt h2,
          insertAfterLarger_eq]

/-- In a size-descending list, the clumps after the leading ones at least as large as `s` are
all smaller than `s`. -/
theorem lt_of_mem_dropWhile (s : Nat) :
    ∀ {l : List R}, SizeDesc o l → ∀ b ∈ l.dropWhile (atLeast o s), (o.relids b).card < s
  | [], _, b, hb => by simp at hb
  | a :: l, hl, b, hb => by
    obtain ⟨ha, hl⟩ := List.pairwise_cons.mp hl
    by_cases has : atLeast o s a
    · rw [List.dropWhile_cons_of_pos has] at hb
      exact lt_of_mem_dropWhile s hl b hb
    · rw [List.dropWhile_cons_of_neg has] at hb
      have has' : (o.relids a).card < s := by simpa [atLeast] using has
      rcases List.mem_cons.mp hb with rfl | hb
      · exact has'
      · exact (ha b hb).trans_lt has'

/-- **The insertion into a size-descending list**: `rel` goes between the clumps at least as
large and the smaller ones, and the list stays size-descending. -/
theorem insertClump_split {l : List R} (rel : R) (hl : SizeDesc o l)
    (hpos : ∀ r ∈ l, 0 < (o.relids r).card) :
    ∃ A B, l = A ++ B ∧ insertClump o l rel = A ++ rel :: B ∧
      (∀ a ∈ A, (o.relids rel).card ≤ (o.relids a).card) ∧
      (∀ b ∈ B, (o.relids b).card < (o.relids rel).card) ∧ SizeDesc o (insertClump o l rel) := by
  have hA : ∀ a ∈ l.takeWhile (atLeast o (o.relids rel).card),
      (o.relids rel).card ≤ (o.relids a).card := fun a ha => by
    simpa [atLeast] using List.mem_takeWhile_imp ha
  have hB := lt_of_mem_dropWhile (o.relids rel).card hl
  refine ⟨_, _, (List.takeWhile_append_dropWhile _ _).symm, insertClump_eq rel hpos, hA, hB, ?_⟩
  rw [insertClump_eq rel hpos]
  have hAB := (List.takeWhile_append_dropWhile (atLeast o (o.relids rel).card) l).symm ▸ hl
  obtain ⟨hpA, hpB, hcross⟩ := List.pairwise_append.mp hAB
  refine List.pairwise_append.mpr ⟨hpA, List.pairwise_cons.mpr ⟨fun b hb => (hB b hb).le, hpB⟩,
    fun a ha b hb => ?_⟩
  rcases List.mem_cons.mp hb with rfl | hb
  · exact hA a ha
  · exact hcross a ha b hb

/-- **Step lemma of the order**: a force merge keeps a size-descending list of clumps with relids
size-descending, and every clump of the result has relids. -/
theorem sizeDesc_forceMergeClump (levelsNeeded : Nat) {l : List R} {rel : R} (hl : SizeDesc o l)
    (hpos : ∀ r ∈ l, 0 < (o.relids r).card) (hrel : 0 < (o.relids rel).card) :
    SizeDesc o (forceMergeClump o levelsNeeded l rel) ∧
      ∀ r ∈ forceMergeClump o levelsNeeded l rel, 0 < (o.relids r).card := by
  obtain ⟨l', rel', -, hsub, hsup, -, heq⟩ := forceMergeClump_eq_insertClump o levelsNeeded l rel
  have hpos' : ∀ r ∈ l', 0 < (o.relids r).card := fun r hr => hpos r (hsub.subset hr)
  obtain ⟨-, -, -, -, -, -, hsort⟩ := insertClump_split rel' (List.Pairwise.sublist hsub hl) hpos'
  rw [heq]
  refine ⟨hsort, fun r hr => ?_⟩
  rcases List.mem_cons.mp ((insertClump_perm l' rel').subset hr) with rfl | hr
  · exact hrel.trans_le (Finset.card_le_card hsup)
  · exact hpos' r hr

/-- **Run lemma of the order**: the force phase keeps a size-descending list of clumps with
relids so, whatever clumps it folds in, as long as they have relids. -/
theorem sizeDesc_foldl_forceMergeClump (o : Oracle R C) (levelsNeeded : Nat) :
    ∀ (l : List R) {acc : List R}, SizeDesc o acc → (∀ r ∈ acc ++ l, 0 < (o.relids r).card) →
      SizeDesc o (l.foldl (fun f r => forceMergeClump o levelsNeeded f r) acc) ∧
        ∀ r ∈ l.foldl (fun f r => forceMergeClump o levelsNeeded f r) acc, 0 < (o.relids r).card
  | [], _, hs, hp => ⟨hs, by simpa using hp⟩
  | rel :: l, acc, hs, hp => by
    simp only [List.mem_append, List.mem_cons] at hp
    obtain ⟨hs', hp'⟩ := sizeDesc_forceMergeClump levelsNeeded hs (fun r hr => hp r (.inl hr))
      (hp rel (.inr (.inl rfl)))
    exact sizeDesc_foldl_forceMergeClump o levelsNeeded l hs' fun r hr =>
      (List.mem_append.mp hr).elim (hp' r) fun h => hp r (.inr (.inr h))

/-- **The force phase keeps the clump list size-descending**, for relations with relids. A force
merge of a size-descending list is size-descending; when no clump joins `rel`, it inserts `rel`
after the clumps at least as large and before the smaller ones. In the force phase of
`construct_rel_based_on_plan`, the list before each call is size-descending, and the call inserts
into what is left of it after its merges, which is size-descending too. -/
theorem forceMergeClump_sizeDesc (o : Oracle R C) (levelsNeeded : Nat) :
    (∀ (frelList : List R) (rel : R), SizeDesc o frelList →
      (∀ r ∈ rel :: frelList, 0 < (o.relids r).card) →
      SizeDesc o (forceMergeClump o levelsNeeded frelList rel) ∧
      (findJoin o levelsNeeded rel frelList = none →
        ∃ A B, frelList = A ++ B ∧ forceMergeClump o levelsNeeded frelList rel = A ++ rel :: B ∧
          (∀ a ∈ A, (o.relids rel).card ≤ (o.relids a).card) ∧
          ∀ b ∈ B, (o.relids b).card < (o.relids rel).card)) ∧
    ∀ (rels : List R) (bt : GuideTree) (pre : List R) (rel : R) (post : List R),
      (∀ r ∈ rels, 0 < (o.relids r).card) →
      tryMergeClump o levelsNeeded rels bt = .ok (pre ++ rel :: post) →
      SizeDesc o (pre.foldl (fun f r => forceMergeClump o levelsNeeded f r) []) ∧
      ∃ l' rel', l'.Sublist (pre.foldl (fun f r => forceMergeClump o levelsNeeded f r) []) ∧
        SizeDesc o l' ∧ findJoin o levelsNeeded rel' l' = none ∧
        forceMergeClump o levelsNeeded (pre.foldl (fun f r => forceMergeClump o levelsNeeded f r) [])
          rel = insertClump o l' rel' := by
  refine ⟨fun frelList rel hs hp => ?_, fun rels bt pre rel post hrels h => ?_⟩
  · rw [List.forall_mem_cons] at hp
    refine ⟨(sizeDesc_forceMergeClump levelsNeeded hs hp.2 hp.1).1, fun hnone => ?_⟩
    obtain ⟨A, B, hl, heq, hA, hB, -⟩ := insertClump_split rel hs hp.2
    exact ⟨A, B, hl, (forceMergeClump_of_none o hnone).trans heq, hA, hB⟩
  · have hpos := tryMergeClump_card_pos hrels bt h
    have hacc := (sizeDesc_foldl_forceMergeClump o levelsNeeded pre List.Pairwise.nil
      fun r hr => hpos r (List.mem_append_left _ (by simpa using hr))).1
    obtain ⟨l', rel', -, hsub, -, hnone, heq⟩ :=
      forceMergeClump_eq_insertClump o levelsNeeded
        (pre.foldl (fun f r => forceMergeClump o levelsNeeded f r) []) rel
    exact ⟨hacc, l', rel', hsub, List.Pairwise.sublist hsub hacc, hnone, heq⟩

/-- An oracle over relations given as a list of relids and a cost that rejects every join. -/
def rejectAll : Oracle (List Nat × Nat) Nat := pairOracle fun _ _ => false

/-- Two clumps of sizes 2 and 1 take a third of size 2 between them; the guide tree
`(0 ⋈ 1) ⋈ 2` leaves three clumps. -/
theorem forceMergeClump_sizeDesc_rejectAll :
    (SizeDesc rejectAll (forceMergeClump rejectAll 3 [([0, 1], 0), ([2], 0)] ([3, 4], 0)) ∧
      ∃ A B, [([0, 1], 0), ([2], 0)] = A ++ B ∧
        forceMergeClump rejectAll 3 [([0, 1], 0), ([2], 0)] ([3, 4], 0) = A ++ ([3, 4], 0) :: B ∧
        (∀ a ∈ A, (rejectAll.relids ([3, 4], 0)).card ≤ (rejectAll.relids a).card) ∧
        ∀ b ∈ B, (rejectAll.relids b).card < (rejectAll.relids ([3, 4], 0)).card) ∧
    SizeDesc rejectAll ([([0], 0)].foldl (fun f r => forceMergeClump rejectAll 3 f r) []) :=
  have h := forceMergeClump_sizeDesc rejectAll 3
  ⟨⟨(h.1 _ _ (by decide) (by decide)).1, (h.1 _ _ (by decide) (by decide)).2 rfl⟩,
    (h.2 [([0], 0), ([1], 0), ([2], 0)]
      (.node [0, 1, 2] (.node [0, 1] (.leaf 0) (.leaf 1)) (.leaf 2))
      [([0], 0)] ([1], 0) [([2], 0)] (by decide) rfl).1⟩

/-! ## Exhaustiveness of the force phase -/

/-- **Step lemma of exhaustiveness.** Let `E` be the clumps of `l` in the order they entered,
with every join of an earlier one with a later one rejected. After a force merge, the clumps are
those of `E` the merge did not absorb, in their order, then the clump it inserted, and every join
of an earlier one with a later one is still rejected. -/
theorem entry_forceMergeClump (levelsNeeded : Nat) {l : List R} (rel : R) {E : List R}
    (hE : E.Perm l) (hrej : E.Pairwise fun a b => o.makeJoinRel a b = none) :
    ∃ E₀, E₀.Sublist E ∧
      (E₀ ++ [mergedClump o levelsNeeded l rel]).Perm (forceMergeClump o levelsNeeded l rel) ∧
      (E₀ ++ [mergedClump o levelsNeeded l rel]).Pairwise fun a b => o.makeJoinRel a b = none := by
  obtain ⟨l', rel', rfl, hsub, -, hnone, heq⟩ := forceMergeClump_eq_insertClump o levelsNeeded l rel
  obtain ⟨E₀, hE₀, hsubE⟩ := List.exists_perm_sublist hsub hE.symm
  refine ⟨E₀, hsubE, ?_, ?_⟩
  · rw [heq]
    exact (List.perm_append_singleton _ E₀).trans
      ((hE₀.cons _).trans (insertClump_perm l' _).symm)
  · refine List.pairwise_append.mpr
      ⟨hrej.sublist hsubE, List.pairwise_singleton _ _, fun a ha b hb => ?_⟩
    rw [List.mem_singleton.mp hb]
    exact findJoin_eq_none_iff.mp hnone a (hE₀.subset ha)

/-- **Run lemma of exhaustiveness**: over the force phase, from any list whose clumps in entry
order `E` reject every join of an earlier one with a later one, the clumps left, in the order
they entered, are some of `E` followed by some of the clumps the phase inserts, in order, and
still reject every such join. -/
theorem exists_entry_foldl_forceMergeClump (o : Oracle R C) (levelsNeeded : Nat) :
    ∀ (l : List R) {acc E : List R}, E.Perm acc →
      (E.Pairwise fun a b => o.makeJoinRel a b = none) →
      ∃ E' : List R, E'.Sublist (E ++ insertedClumps o levelsNeeded acc l) ∧
        E'.Perm (l.foldl (fun f r => forceMergeClump o levelsNeeded f r) acc) ∧
        E'.Pairwise fun a b => o.makeJoinRel a b = none
  | [], _, E, hE, hrej => ⟨E, by simp [insertedClumps], hE, hrej⟩
  | rel :: l, _, _, hE, hrej => by
    obtain ⟨E₀, hsub, hperm, hrej'⟩ := entry_forceMergeClump levelsNeeded rel hE hrej
    obtain ⟨E', hE', hperm', hrej''⟩ := exists_entry_foldl_forceMergeClump o levelsNeeded l hperm hrej'
    refine ⟨E', hE'.trans ?_, hperm', hrej''⟩
    rw [insertedClumps, List.append_assoc, List.singleton_append]
    exact hsub.append (List.Sublist.refl _)

theorem forceMergeClump_ne_nil (levelsNeeded : Nat) (l : List R) (rel : R) :
    forceMergeClump o levelsNeeded l rel ≠ [] := by
  obtain ⟨l', rel', -, -, -, -, heq⟩ := forceMergeClump_eq_insertClump o levelsNeeded l rel
  rw [heq]
  exact List.ne_nil_of_length_pos (by simp [(insertClump_perm l' rel').length_eq])

theorem foldl_forceMergeClump_ne_nil (levelsNeeded : Nat) :
    ∀ (l : List R) {acc : List R}, acc ≠ [] →
      l.foldl (fun f r => forceMergeClump o levelsNeeded f r) acc ≠ []
  | [], _, h => h
  | rel :: l, acc, _ =>
    foldl_forceMergeClump_ne_nil levelsNeeded l (forceMergeClump_ne_nil levelsNeeded acc rel)

/-- `construct_rel_based_on_plan` returns NULL exactly when the force phase does not leave one
clump. -/
theorem constructRelBasedOnPlan_eq_ok_none {levelsNeeded : Nat} {rels : List R} {bt : GuideTree}
    {l : List R} (h : tryMergeClump o levelsNeeded rels bt = .ok l) :
    constructRelBasedOnPlan o levelsNeeded rels bt = .ok none ↔
      (if 1 < l.length then l.foldl (fun f r => forceMergeClump o levelsNeeded f r) []
        else l).length ≠ 1 := by
  simp only [constructRelBasedOnPlan, h, bind, Except.bind]
  generalize (if 1 < l.length then _ else l) = relList
  rcases relList with _ | ⟨y, _ | ⟨z, t⟩⟩ <;> simp [pure, Except.pure]

/-- **Exhaustiveness of the force phase.** After the force phase of
`construct_rel_based_on_plan`, the clumps left, listed in the order they entered the list (in
the order of the insertions), reject every join of an earlier one with a later one, the
orientation `make_join_rel(old_rel, rel)` of the scan. `construct_rel_based_on_plan` returns
NULL only when two or more such clumps are left. -/
theorem constructRelBasedOnPlan_rejects (o : Oracle R C) (levelsNeeded : Nat) (rels : List R)
    (bt : GuideTree) (l : List R) (h : tryMergeClump o levelsNeeded rels bt = .ok l) :
    (∃ E : List R, E.Sublist (if 1 < l.length then insertedClumps o levelsNeeded [] l else l) ∧
      E.Perm (if 1 < l.length then l.foldl (fun f r => forceMergeClump o levelsNeeded f r) []
        else l) ∧
      E.Pairwise fun a b => o.makeJoinRel a b = none) ∧
    (constructRelBasedOnPlan o levelsNeeded rels bt = .ok none →
      ∃ E : List R, 2 ≤ E.length ∧ E.Sublist (insertedClumps o levelsNeeded [] l) ∧
        E.Perm (l.foldl (fun f r => forceMergeClump o levelsNeeded f r) []) ∧
        E.Pairwise fun a b => o.makeJoinRel a b = none) := by
  have hfold := exists_entry_foldl_forceMergeClump o levelsNeeded l (List.Perm.refl [])
    List.Pairwise.nil
  rw [List.nil_append] at hfold
  obtain ⟨x, t, rfl⟩ := List.exists_cons_of_ne_nil (tryMergeClump_ne_nil bt h)
  refine ⟨?_, fun hnone => ?_⟩
  · split
    · exact hfold
    · -- one clump: no pair
      rename_i hlen
      obtain rfl : t = [] :=
        List.eq_nil_of_length_eq_zero (by simp only [List.length_cons] at hlen; omega)
      exact ⟨[x], List.Sublist.refl _, List.Perm.refl _, List.pairwise_singleton _ x⟩
  · rw [constructRelBasedOnPlan_eq_ok_none h] at hnone
    have hlen : 1 < (x :: t).length := by
      by_contra hlen
      rw [if_neg hlen] at hnone
      simp only [List.length_cons] at hnone hlen
      omega
    rw [if_pos hlen] at hnone
    have hne : 0 < ((x :: t).foldl (fun f r => forceMergeClump o levelsNeeded f r) []).length :=
      List.length_pos.mpr
        (foldl_forceMergeClump_ne_nil levelsNeeded t (forceMergeClump_ne_nil levelsNeeded [] x))
    obtain ⟨E, hsub, hE, hrej⟩ := hfold
    exact ⟨E, by rw [hE.length_eq]; omega, hsub, hE, hrej⟩

/-- Under an oracle that rejects every join, the guide tree `(0 ⋈ 1) ⋈ 2` leaves three clumps,
and the assembler returns NULL. -/
theorem constructRelBasedOnPlan_rejects_rejectAll :
    (∃ E : List (List Nat × Nat),
      E.Sublist (if 1 < [([0], 0), ([1], 0), ([2], 0)].length then
        insertedClumps rejectAll 3 [] [([0], 0), ([1], 0), ([2], 0)]
        else [([0], 0), ([1], 0), ([2], 0)]) ∧
      E.Perm (if 1 < [([0], 0), ([1], 0), ([2], 0)].length then
        [([0], 0), ([1], 0), ([2], 0)].foldl (fun f r => forceMergeClump rejectAll 3 f r) []
        else [([0], 0), ([1], 0), ([2], 0)]) ∧
      E.Pairwise fun a b => rejectAll.makeJoinRel a b = none) ∧
    ∃ E : List (List Nat × Nat), 2 ≤ E.length ∧
      E.Sublist (insertedClumps rejectAll 3 [] [([0], 0), ([1], 0), ([2], 0)]) ∧
      E.Perm ([([0], 0), ([1], 0), ([2], 0)].foldl (fun f r => forceMergeClump rejectAll 3 f r) []) ∧
      E.Pairwise fun a b => rejectAll.makeJoinRel a b = none :=
  have h := constructRelBasedOnPlan_rejects rejectAll 3 [([0], 0), ([1], 0), ([2], 0)]
    (.node [0, 1, 2] (.node [0, 1] (.leaf 0) (.leaf 1)) (.leaf 2)) _ rfl
  have hf : ∀ l rel, forceMergeClump rejectAll 3 l rel = insertClump rejectAll l rel :=
    fun _ _ => forceMergeClump_of_none rejectAll (findJoin_eq_none_iff.mpr fun _ _ => rfl)
  ⟨h.1, h.2 (by simp only [constructRelBasedOnPlan, hf]; rfl)⟩

/-! ## The gather test -/

/-- An oracle over relations given as their base relids and whether their cheapest paths came
with gather paths: it joins every pair, `desirable_join` answers `desirable`, and path generation
records the flag it was given. -/
def gatherOracle (desirable : Bool) : Oracle (List Nat × Bool) Nat where
  makeJoinRel a b := some (a.1 ++ b.1, false)
  setCheapest g r := (r.1, g)
  desirableJoin _ _ := desirable
  relids r := r.1.toFinset
  totalCost r := r.1.length
  relids_makeJoinRel a b r h := by cases h; exact List.toFinset_append
  relids_setCheapest _ _ := rfl

/-- **`force_merge_clump` decides gather paths by base relids.** Three initial relations, the
first covering the base relids `0, 1`, and `levels_needed = 3`. `force_merge_clump` joins the
first two without gather paths: the join has 3 base relids, though it covers two of the three
initial relations. `try_merge_clump`, `try_splits` and `try_splits_b` join the same two relations
with gather paths. -/
theorem forceMergeClump_gather_three :
    forceMergeClump (gatherOracle false) 3 [([0, 1], false)] ([2], false) = [([0, 1, 2], false)] ∧
    tryMergeClump (gatherOracle true) 3 [([0, 1], false), ([2], false), ([3], false)]
      (.node [0, 1] (.leaf 0) (.leaf 1)) = .ok [([0, 1, 2], true)] ∧
    (trySplits (gatherOracle false) [0, 1] []
      (seedTable 3 [([0, 1], false), ([2], false), ([3], false)]) 3).map (· 3) =
      .ok (some ([2, 0, 1], true)) ∧
    (trySplitsB (gatherOracle false) [0, 1] []
      (seedTable 3 [([0, 1], false), ([2], false), ([3], false)]) 3).map (· 3) =
      .ok (some ([2, 0, 1], true)) := by
  refine ⟨?_, rfl, rfl, rfl⟩
  rw [forceMergeClump_of_some (gatherOracle false)
    (show findJoin _ 3 ([2], false) [([0, 1], false)] = some ([], ([0, 1, 2], false)) by decide),
    forceMergeClump_nil]

end ParallelJoin
