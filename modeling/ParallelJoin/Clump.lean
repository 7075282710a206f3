import ParallelJoin.Plans

/-!
# The clump assembler

Model of `construct_rel_based_on_plan`, `try_merge_clump` and `force_merge_clump`
(`parallel_eval.c:83-215`). The guide tree's type (`parallel_tree.h`) is not in the source; the
assembler reads a leaf's first relid and an inner node's relid list and children, and
`GuideTree` keeps these.

* `try_merge_clump` returns the clumps of a subtree: a leaf's initial relation, or the two
  children's clumps, joined into one when both are single, `desirable_join` holds and
  `make_join_rel` accepts. `list_nth` past `initial_rels` and the `Assert` of line 141 are
  `Fault.assertion`.
* `force_merge_clump` scans its list for the first clump that joins `rel`, removes it and
  starts again with the join; the list is one shorter each time, so the recursion ends. When no
  clump joins, `rel` goes in by size (`insertClump`). The size of a clump is the number of its
  relids, `bms_num_members(rel->relids)`.
* A clump list is a partition of a set of relids when the clumps' relids are pairwise disjoint
  and make up the set (`IsPartition`).

Results:
* `tryMergeClump_partition`: the clumps of a tree with distinct leaves partition its leaves'
  relations, and there is at least one.
* `forceMergeClump_partition`: a force merge of disjoint clumps keeps their union.
* `constructRelBasedOnPlan_spec`: the assembler returns NULL or a relation of all the initial
  relations, and the relation when the oracle accepts disjoint pairs.
-/

namespace ParallelJoin

/-- The guide tree: a leaf holds its relid, an inner node its relid list and its children. -/
inductive GuideTree
  | leaf (relid : Nat)
  | node (relids : List Nat) (left right : GuideTree)
  deriving DecidableEq, Repr

/-- The relids at the leaves, left to right. -/
def GuideTree.leaves : GuideTree → List Nat
  | leaf i => [i]
  | node _ l r => l.leaves ++ r.leaves

variable {R C : Type} (o : Oracle R C)

/-! ## The model -/

/-- `try_merge_clump(root, levels_needed, initial_rels, bt)` (`parallel_eval.c:115-159`). -/
def tryMergeClump (levelsNeeded : Nat) (initialRels : List R) : GuideTree → Except Fault (List R)
  | .leaf relid =>
    match initialRels[relid]? with
    | some rel => pure [rel]
    | none => throw .assertion
  | .node relids left right => do
    let list1 ← tryMergeClump levelsNeeded initialRels left
    let list2 ← tryMergeClump levelsNeeded initialRels right
    if 1 < list1.length || 1 < list2.length then pure (list1 ++ list2)
    else
      match list1, list2 with
      | [rel1], [rel2] =>
        if o.desirableJoin rel1 rel2 then
          match o.joinRel (decide (relids.length < levelsNeeded)) rel1 rel2 with
          | some joinrel => pure [joinrel]
          | none => pure (list1 ++ list2)
        else pure (list1 ++ list2)
      | _, _ => throw .assertion

/-- The scan of `force_merge_clump` (`parallel_eval.c:171-196`): the first `old_rel` of the list
that `make_join_rel(root, old_rel, rel)` accepts, the list without it, and the join with its
paths. -/
def findJoin (levelsNeeded : Nat) (rel : R) : List R → Option (List R × R)
  | [] => none
  | old :: rest =>
    match o.makeJoinRel old rel with
    | some joinrel =>
      some (rest, o.setCheapest (decide ((o.relids joinrel).card < levelsNeeded)) joinrel)
    | none => (findJoin levelsNeeded rel rest).map fun p => (old :: p.1, p.2)

/-- The search for the place of `rel` (`parallel_eval.c:206-213`): after the clumps at least as
large. -/
def insertAfterLarger (relSize : Nat) (rel : R) : List R → List R
  | [] => [rel]
  | nxt :: rest =>
    if relSize > (o.relids nxt).card then rel :: nxt :: rest
    else nxt :: insertAfterLarger relSize rel rest

/-- The insertion of `rel` when no clump joins it (`parallel_eval.c:198-214`): at the end for a
singleton or an empty list, at the front when larger than the first clump, else after the
clumps at least as large. -/
def insertClump (frelList : List R) (rel : R) : List R :=
  match frelList with
  | [] => [rel]
  | head :: rest =>
    if (o.relids rel).card = 1 then frelList ++ [rel]
    else if (o.relids rel).card > (o.relids head).card then rel :: frelList
    else head :: insertAfterLarger o (o.relids rel).card rel rest

theorem findJoin_length {levelsNeeded : Nat} {rel : R} :
    ∀ {l rest : List R} {j : R}, findJoin o levelsNeeded rel l = some (rest, j) →
      rest.length < l.length
  | [], _, _, h => by cases h
  | old :: l, rest, j, h => by
    unfold findJoin at h
    split at h
    · cases h; simp
    · obtain ⟨⟨rest', j'⟩, h', he⟩ := Option.map_eq_some'.mp h
      cases he
      simpa using findJoin_length h'

/-- `force_merge_clump(root, levels_needed, frelList, rel)` (`parallel_eval.c:161-215`). -/
def forceMergeClump (levelsNeeded : Nat) (frelList : List R) (rel : R) : List R :=
  match _h : findJoin o levelsNeeded rel frelList with
  | some (rest, joinrel) => forceMergeClump levelsNeeded rest joinrel
  | none => insertClump o frelList rel
termination_by frelList.length
decreasing_by exact findJoin_length o _h

/-- `construct_rel_based_on_plan(root, levels_needed, initial_rels, bt)`
(`parallel_eval.c:83-113`); `none` is its NULL. -/
def constructRelBasedOnPlan (levelsNeeded : Nat) (initialRels : List R) (bt : GuideTree) :
    Except Fault (Option R) := do
  let relList ← tryMergeClump o levelsNeeded initialRels bt
  let relList := if 1 < relList.length then
      relList.foldl (fun frelList rel => forceMergeClump o levelsNeeded frelList rel) []
    else relList
  match relList with
  | [rel] => pure (some rel)
  | _ => pure none

theorem forceMergeClump_of_some {levelsNeeded : Nat} {l rest : List R} {rel j : R}
    (h : findJoin o levelsNeeded rel l = some (rest, j)) :
    forceMergeClump o levelsNeeded l rel = forceMergeClump o levelsNeeded rest j := by
  rw [forceMergeClump]
  split <;> simp_all

theorem forceMergeClump_of_none {levelsNeeded : Nat} {l : List R} {rel : R}
    (h : findJoin o levelsNeeded rel l = none) :
    forceMergeClump o levelsNeeded l rel = insertClump o l rel := by
  rw [forceMergeClump]
  split <;> simp_all

/-! ## Partitions -/

namespace Oracle

/-- The union of the relids of a clump list. -/
def unionRelids (l : List R) : Finset Nat := l.foldr (fun r s => o.relids r ∪ s) ∅

variable {o}

@[simp] theorem unionRelids_nil : o.unionRelids [] = ∅ := rfl

@[simp] theorem unionRelids_cons (r : R) (l : List R) :
    o.unionRelids (r :: l) = o.relids r ∪ o.unionRelids l := rfl

theorem mem_unionRelids {l : List R} {z : Nat} : z ∈ o.unionRelids l ↔ ∃ r ∈ l, z ∈ o.relids r := by
  induction l with
  | nil => simp
  | cons r l ih => simp [ih]

theorem unionRelids_append (l l' : List R) :
    o.unionRelids (l ++ l') = o.unionRelids l ∪ o.unionRelids l' := by
  induction l with
  | nil => simp
  | cons r l ih => simp [ih, Finset.union_assoc]

theorem unionRelids_perm {l l' : List R} (h : l.Perm l') : o.unionRelids l = o.unionRelids l' := by
  ext z; simp only [mem_unionRelids, h.mem_iff]

theorem relids_subset_unionRelids {l : List R} {r : R} (hr : r ∈ l) : o.relids r ⊆ o.unionRelids l :=
  fun _ hz => mem_unionRelids.mpr ⟨r, hr, hz⟩

end Oracle

/-- The clumps' relids are pairwise disjoint and make up `s`. -/
def IsPartition (l : List R) (s : Finset Nat) : Prop :=
  o.DisjointRels l ∧ o.unionRelids l = s

variable {o}

theorem disjointRels_perm {l l' : List R} (h : l.Perm l') : o.DisjointRels l ↔ o.DisjointRels l' :=
  h.pairwise_iff fun hab => hab.symm

theorem disjointRels_cons {r : R} {l : List R} :
    o.DisjointRels (r :: l) ↔ Disjoint (o.relids r) (o.unionRelids l) ∧ o.DisjointRels l := by
  rw [Oracle.DisjointRels, List.pairwise_cons]
  refine and_congr_left' ⟨fun h => Finset.disjoint_left.mpr fun z hz hz' => ?_,
    fun h r' hr' => h.mono_right (Oracle.relids_subset_unionRelids hr')⟩
  obtain ⟨r', hr', hz'⟩ := Oracle.mem_unionRelids.mp hz'
  exact Finset.disjoint_left.mp (h r' hr') hz hz'

theorem isPartition_perm {l l' : List R} {s : Finset Nat} (h : l.Perm l') (hp : IsPartition o l s) :
    IsPartition o l' s :=
  ⟨(disjointRels_perm h).mp hp.1, (Oracle.unionRelids_perm h).symm.trans hp.2⟩

/-- Two partitions of disjoint sets make one of their union. -/
theorem IsPartition.append {l l' : List R} {s s' : Finset Nat} (h : IsPartition o l s)
    (h' : IsPartition o l' s') (hd : Disjoint s s') : IsPartition o (l ++ l') (s ∪ s') := by
  refine ⟨List.pairwise_append.mpr ⟨h.1, h'.1, fun a ha b hb => ?_⟩,
    by rw [Oracle.unionRelids_append, h.2, h'.2]⟩
  exact (hd.mono (h.2 ▸ Oracle.relids_subset_unionRelids ha)
    (h'.2 ▸ Oracle.relids_subset_unionRelids hb))

/-! ## `try_merge_clump` -/

theorem isPartition_singleton (r : R) : IsPartition o [r] (o.relids r) :=
  ⟨List.pairwise_singleton _ r, by simp⟩

/-- **The clumps of a tree** with distinct leaves, all naming initial relations, partition the
leaves' relations, and there is at least one. -/
theorem tryMergeClump_partition (levelsNeeded : Nat) {rels : List R} (hdisj : o.DisjointRels rels) :
    ∀ bt : GuideTree, bt.leaves.Nodup → (∀ i ∈ bt.leaves, i < rels.length) →
      ∃ l, tryMergeClump o levelsNeeded rels bt = .ok l ∧ l ≠ [] ∧
        IsPartition o l (o.cover rels (bitmapOf bt.leaves))
  | .leaf i, _, hi => by
    have hi' : i < rels.length := hi i (List.mem_singleton_self i)
    refine ⟨[rels[i]], by simp only [tryMergeClump, List.getElem?_eq_getElem hi']; rfl, by simp, ?_⟩
    rw [GuideTree.leaves, bitmapOf_singleton, Oracle.cover_one_shiftLeft hi', Oracle.relidsAt,
      List.getElem?_eq_getElem hi']
    exact isPartition_singleton _
  | .node relids left right, hnd, hi => by
    simp only [GuideTree.leaves, List.nodup_append, List.mem_append] at hnd hi
    obtain ⟨l1, h1, hne1, hp1⟩ := tryMergeClump_partition levelsNeeded hdisj left hnd.1
      fun i h => hi i (.inl h)
    obtain ⟨l2, h2, hne2, hp2⟩ := tryMergeClump_partition levelsNeeded hdisj right hnd.2.1
      fun i h => hi i (.inr h)
    have hd := Oracle.disjoint_cover hdisj (Oracle.bitmapOf_and_eq_zero hnd.2.2)
    have hcat := hp1.append hp2 hd
    rw [GuideTree.leaves, bitmapOf_append, Oracle.cover_or]
    simp only [tryMergeClump, h1, h2, bind, Except.bind]
    split
    · exact ⟨_, rfl, by simp [hne1], hcat⟩
    · rename_i hlen
      simp only [Bool.or_eq_true, decide_eq_true_eq, not_or, not_lt] at hlen
      match l1, l2, hne1, hne2, hlen with
      | [rel1], [rel2], _, _, _ =>
        have hr1 : o.relids rel1 = o.cover rels (bitmapOf left.leaves) := by simpa using hp1.2
        have hr2 : o.relids rel2 = o.cover rels (bitmapOf right.leaves) := by simpa using hp2.2
        dsimp only
        by_cases hdes : o.desirableJoin rel1 rel2 = true
        · rw [if_pos hdes]
          cases hj : o.joinRel (decide (relids.length < levelsNeeded)) rel1 rel2 with
          | some j =>
            exact ⟨[j], rfl, by simp, by
              rw [← hr1, ← hr2, ← o.relids_joinRel hj]; exact isPartition_singleton j⟩
          | none => exact ⟨_, rfl, by simp, hcat⟩
        · rw [if_neg hdes]
          exact ⟨_, rfl, by simp, hcat⟩

/-! ## `force_merge_clump` -/

/-- The scan finds a clump of the list, and the join covers it and `rel`. -/
theorem findJoin_spec {levelsNeeded : Nat} {rel : R} :
    ∀ {l rest : List R} {j : R}, findJoin o levelsNeeded rel l = some (rest, j) →
      ∃ old, (old :: rest).Perm l ∧ o.relids j = o.relids old ∪ o.relids rel
  | [], _, _, h => by cases h
  | old :: l, rest, j, h => by
    unfold findJoin at h
    split at h
    · rename_i j0 hj0
      cases h
      exact ⟨old, List.Perm.refl _, by rw [o.relids_setCheapest, o.relids_makeJoinRel _ _ _ hj0]⟩
    · obtain ⟨⟨rest', j'⟩, h', he⟩ := Option.map_eq_some'.mp h
      cases he
      obtain ⟨old', hperm, hrel⟩ := findJoin_spec h'
      exact ⟨old', (List.Perm.swap old old' rest').trans (hperm.cons old), hrel⟩

theorem insertAfterLarger_perm (relSize : Nat) (rel : R) :
    ∀ l : List R, (insertAfterLarger o relSize rel l).Perm (rel :: l)
  | [] => List.Perm.refl _
  | nxt :: rest => by
    unfold insertAfterLarger
    split
    · exact List.Perm.refl _
    · exact ((insertAfterLarger_perm relSize rel rest).cons nxt).trans (List.Perm.swap rel nxt rest)

/-- The insertion puts `rel` somewhere in the list. -/
theorem insertClump_perm (l : List R) (rel : R) : (insertClump o l rel).Perm (rel :: l) := by
  unfold insertClump
  split
  · exact List.Perm.refl _
  · split
    · exact List.perm_append_singleton rel _
    · split
      · exact List.Perm.refl _
      · exact ((insertAfterLarger_perm _ _ _).cons _).trans (List.Perm.swap _ _ _)

theorem forceMergeClump_nil (levelsNeeded : Nat) (rel : R) :
    forceMergeClump o levelsNeeded [] rel = [rel] := by
  rw [forceMergeClump_of_none o (show findJoin o levelsNeeded rel [] = none from rfl)]
  rfl

/-- **Step lemma of a force merge**: joining `rel` to a clump of a disjoint list gives a
disjoint list over the same union. -/
theorem isPartition_findJoin {levelsNeeded : Nat} {l rest : List R} {rel j : R}
    (h : findJoin o levelsNeeded rel l = some (rest, j)) (hd : o.DisjointRels (rel :: l)) :
    o.DisjointRels (j :: rest) ∧ o.unionRelids (j :: rest) = o.unionRelids (rel :: l) := by
  obtain ⟨old, hperm, hj⟩ := findJoin_spec h
  have hd' := (disjointRels_perm (hperm.symm.cons rel)).mp hd
  obtain ⟨hrel, hd''⟩ := disjointRels_cons.mp hd'
  obtain ⟨hold, hrest⟩ := disjointRels_cons.mp hd''
  simp only [Oracle.unionRelids_cons, Finset.disjoint_union_right] at hrel
  have hunion : o.unionRelids l = o.relids old ∪ o.unionRelids rest := by
    rw [← Oracle.unionRelids_cons, Oracle.unionRelids_perm hperm]
  refine ⟨disjointRels_cons.mpr ⟨?_, hrest⟩, ?_⟩
  · rw [hj]; exact Finset.disjoint_union_left.mpr ⟨hold, hrel.2⟩
  · rw [Oracle.unionRelids_cons, Oracle.unionRelids_cons, hj, hunion, Finset.union_comm (o.relids old),
      Finset.union_assoc]

/-- **A force merge keeps the partition**: the clumps it returns partition the relids of the
clumps it was given and of `rel`. -/
theorem forceMergeClump_partition (levelsNeeded : Nat) (l : List R) (rel : R)
    (hd : o.DisjointRels (rel :: l)) :
    IsPartition o (forceMergeClump o levelsNeeded l rel) (o.unionRelids (rel :: l)) := by
  induction l, rel using forceMergeClump.induct o levelsNeeded with
  | case1 l rel rest j h ih =>
    obtain ⟨hd', hu⟩ := isPartition_findJoin h hd
    rw [forceMergeClump_of_some o h, ← hu]
    exact ih hd'
  | case2 l rel h =>
    rw [forceMergeClump_of_none o h]
    exact isPartition_perm (insertClump_perm l rel).symm ⟨hd, rfl⟩

/-! ## `construct_rel_based_on_plan` -/

theorem disjoint_unionRelids {l : List R} {s : Finset Nat} (h : ∀ a ∈ l, Disjoint (o.relids a) s) :
    Disjoint (o.unionRelids l) s :=
  Finset.disjoint_left.mpr fun _ hz => by
    obtain ⟨a, ha, hz⟩ := Oracle.mem_unionRelids.mp hz
    exact Finset.disjoint_left.mp (h a ha) hz

/-- **Run lemma of the force phase**: folding the force merge over disjoint clumps gives a
partition of their union. -/
theorem foldl_forceMergeClump_partition (levelsNeeded : Nat) :
    ∀ (l acc : List R), o.DisjointRels (acc ++ l) →
      IsPartition o (l.foldl (fun f r => forceMergeClump o levelsNeeded f r) acc)
        (o.unionRelids (acc ++ l))
  | [], acc, hd => ⟨by simpa using hd, by simp⟩
  | r :: l, acc, hd => by
    have hperm : (acc ++ r :: l).Perm ((r :: acc) ++ l) := List.perm_middle
    obtain ⟨hra, hl, hcross⟩ := List.pairwise_append.mp ((disjointRels_perm hperm).mp hd)
    have hp := forceMergeClump_partition levelsNeeded acc r hra
    have hacc' : o.DisjointRels (forceMergeClump o levelsNeeded acc r ++ l) :=
      List.pairwise_append.mpr ⟨hp.1, hl, fun a ha b hb =>
        (disjoint_unionRelids fun c hc => hcross c hc b hb).mono_left
          (hp.2 ▸ Oracle.relids_subset_unionRelids ha)⟩
    rw [List.foldl_cons, Oracle.unionRelids_perm hperm, Oracle.unionRelids_append, ← hp.2,
      ← Oracle.unionRelids_append]
    exact foldl_forceMergeClump_partition levelsNeeded l _ hacc'

/-- With an oracle that accepts disjoint pairs, the force phase joins disjoint clumps into
one. -/
theorem foldl_forceMergeClump_singleton (levelsNeeded : Nat) (hacc : o.AcceptsDisjoint) :
    ∀ (l : List R) (x : R), o.DisjointRels (x :: l) →
      ∃ y, l.foldl (fun f r => forceMergeClump o levelsNeeded f r) [x] = [y]
  | [], x, _ => ⟨x, rfl⟩
  | r :: l, x, hd => by
    obtain ⟨hx, hr, hl⟩ : (∀ b ∈ r :: l, Disjoint (o.relids x) (o.relids b)) ∧
        (∀ b ∈ l, Disjoint (o.relids r) (o.relids b)) ∧ o.DisjointRels l := by
      simpa only [Oracle.DisjointRels, List.pairwise_cons] using hd
    obtain ⟨j, hj⟩ := hacc x r (hx r (List.mem_cons_self r l))
    have hf : findJoin o levelsNeeded r [x] =
        some ([], o.setCheapest (decide ((o.relids j).card < levelsNeeded)) j) := by
      simp [findJoin, hj]
    rw [List.foldl_cons, forceMergeClump_of_some o hf, forceMergeClump_nil]
    refine foldl_forceMergeClump_singleton levelsNeeded hacc l _ (List.pairwise_cons.mpr ⟨fun b hb => ?_, hl⟩)
    rw [o.relids_setCheapest, o.relids_makeJoinRel _ _ _ hj]
    exact Finset.disjoint_union_left.mpr ⟨hx b (List.mem_cons_of_mem r hb), hr b hb⟩

theorem cover_eq_unionRelids {rels : List R} {B : Nat} (hB : ∀ i < rels.length, B.testBit i) :
    o.cover rels B = o.unionRelids rels := by
  ext z
  rw [Oracle.mem_cover, Oracle.mem_unionRelids]
  constructor
  · rintro ⟨i, hi, -, hz⟩
    simp only [Oracle.relidsAt, List.getElem?_eq_getElem hi] at hz
    exact ⟨rels[i], List.getElem_mem hi, hz⟩
  · rintro ⟨r, hr, hz⟩
    obtain ⟨i, hi, rfl⟩ := List.mem_iff_getElem.mp hr
    exact ⟨i, hi, hB i hi, by simpa only [Oracle.relidsAt, List.getElem?_eq_getElem hi]⟩

/-- **The clump assembler.** For initial relations with disjoint relids and a guide tree whose
leaves are `0, …, N - 1`, each once: `try_merge_clump` returns at least one clump, and its
clumps partition the initial relations' relids; every force merge of disjoint clumps returns a
partition of their relids and the new one's; `construct_rel_based_on_plan` returns NULL or a
relation of exactly all the initial relids, and a relation when the oracle accepts every
disjoint pair. -/
theorem constructRelBasedOnPlan_spec (o : Oracle R C) (N : Nat) (rels : List R) (bt : GuideTree)
    (hlen : rels.length = N) (hdisj : o.DisjointRels rels)
    (hleaves : bt.leaves.Perm (List.range N)) :
    (∃ l, tryMergeClump o N rels bt = .ok l ∧ l ≠ [] ∧ IsPartition o l (o.unionRelids rels)) ∧
    (∀ (frelList : List R) (rel : R), o.DisjointRels (rel :: frelList) →
      IsPartition o (forceMergeClump o N frelList rel) (o.unionRelids (rel :: frelList))) ∧
    ∃ res, constructRelBasedOnPlan o N rels bt = .ok res ∧
      (∀ r, res = some r → o.relids r = o.unionRelids rels) ∧ (o.AcceptsDisjoint → res.isSome) := by
  obtain ⟨l, hl, hne, hp⟩ := tryMergeClump_partition N hdisj bt
    (hleaves.nodup_iff.mpr (List.nodup_range N))
    fun i hi => hlen ▸ List.mem_range.mp (hleaves.mem_iff.mp hi)
  rw [cover_eq_unionRelids fun i hi => by simpa [hleaves.mem_iff, hlen] using hi] at hp
  refine ⟨⟨l, hl, hne, hp⟩, fun f r hd => forceMergeClump_partition N f r hd, ?_⟩
  -- the force phase, when there is more than one clump
  have hphase : IsPartition o (if 1 < l.length then
        l.foldl (fun f r => forceMergeClump o N f r) [] else l) (o.unionRelids rels) ∧
      (o.AcceptsDisjoint → ∃ y, (if 1 < l.length then
        l.foldl (fun f r => forceMergeClump o N f r) [] else l) = [y]) := by
    split
    · have hfold := foldl_forceMergeClump_partition N l [] (by simpa using hp.1)
      rw [List.nil_append, hp.2] at hfold
      refine ⟨hfold, fun hacc => ?_⟩
      obtain ⟨x, l', rfl⟩ := List.exists_cons_of_ne_nil hne
      rw [List.foldl_cons, forceMergeClump_nil]
      exact foldl_forceMergeClump_singleton N hacc l' x hp.1
    · refine ⟨hp, fun _ => ?_⟩
      match l, hne, ‹¬1 < l.length› with
      | [y], _, _ => exact ⟨y, rfl⟩
      | _ :: _ :: _, _, h => exact absurd (by simp) h
  simp only [constructRelBasedOnPlan, hl, bind, Except.bind]
  set relList := if 1 < l.length then l.foldl (fun f r => forceMergeClump o N f r) [] else l
  clear_value relList
  obtain ⟨hpart, hone⟩ := hphase
  rcases relList with _ | ⟨y, _ | ⟨z, t⟩⟩
  · exact ⟨none, rfl, by simp, fun hacc => absurd (hone hacc) (by simp)⟩
  · exact ⟨some y, rfl, fun r hr => by cases hr; simpa using hpart.2, fun _ => rfl⟩
  · exact ⟨none, rfl, by simp, fun hacc => absurd (hone hacc) (by simp)⟩

/-- Three relations of cost 0 under the guide tree `0 ⋈ (1 ⋈ 2)`. -/
theorem constructRelBasedOnPlan_spec_three :
    (∃ l, tryMergeClump sumOracle 3 [([0], 0), ([1], 0), ([2], 0)]
        (.node [0, 1, 2] (.leaf 0) (.node [1, 2] (.leaf 1) (.leaf 2))) = .ok l ∧ l ≠ [] ∧
      IsPartition sumOracle l (sumOracle.unionRelids [([0], 0), ([1], 0), ([2], 0)])) ∧
    (∀ (frelList : List (List Nat × Nat)) (rel : List Nat × Nat),
      sumOracle.DisjointRels (rel :: frelList) →
        IsPartition sumOracle (forceMergeClump sumOracle 3 frelList rel)
          (sumOracle.unionRelids (rel :: frelList))) ∧
    ∃ res, constructRelBasedOnPlan sumOracle 3 [([0], 0), ([1], 0), ([2], 0)]
        (.node [0, 1, 2] (.leaf 0) (.node [1, 2] (.leaf 1) (.leaf 2))) = .ok res ∧
      (∀ r, res = some r → sumOracle.relids r = sumOracle.unionRelids [([0], 0), ([1], 0), ([2], 0)]) ∧
      (sumOracle.AcceptsDisjoint → res.isSome) :=
  constructRelBasedOnPlan_spec sumOracle 3 _ _ rfl (by decide) (by decide)

end ParallelJoin
