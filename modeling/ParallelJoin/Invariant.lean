import ParallelJoin.Optimal

/-!
# The DP table invariant

What holds of a worker's table in every state it reaches, for any oracle: `Oracle` already
makes a successful join cover the union of its inputs' relids, and nothing more is assumed, so
joins may be rejected and a run may fault. The states reached are the seeded table and the table
after each completed split call of the loop of `worker` (`parallel_worker.c:637-660`): the
loop run over a prefix of the sorted sets without a fault.

* Every non-NULL `P[B]` covers exactly the initial relations of the set bits of `B`.
* Every non-NULL `P[B]` that is not a singleton sits at an admissible `B`: only
  `try_splits(_b)` writes there, and only at the bitmap of a set of `adm_join_results(_b)`.
* The two bitmaps handed to `make_join_rel` are disjoint, nonempty, and make up `bitmap`.

Results:
* `trySplitList_inv`: one split loop keeps the invariant.
* `workerTable_invariant`: the invariant after every prefix of the loop, and the shape of the
  splits, for both workers.
-/

namespace ParallelJoin

variable {R C : Type} (o : Oracle R C)

/-- The table invariant, for the admissibility `Adm` of a worker's constraints. -/
structure TableInv (rels : List R) (Adm : Nat → Prop) (P : Table R) : Prop where
  relids_eq : ∀ B x, P B = some x → o.relids x = o.cover rels B
  admissible : ∀ B x, P B = some x → (∀ i, B ≠ 1 <<< i) → Adm B

/-- A split of `B` as `make_join_rel` receives it: two disjoint nonempty parts of `B`. -/
def IsSplit (B : Nat) (lr : Nat × Nat) : Prop :=
  lr.1 &&& lr.2 = 0 ∧ lr.1 ≠ 0 ∧ lr.2 ≠ 0 ∧ lr.1 ||| lr.2 = B

variable {o} {rels : List R} {Adm : Nat → Prop}

/-! ## Seeding -/

theorem seedTable_eq_some {N : Nat} {B : Nat} {x : R} (h : seedTable N rels B = some x) :
    ∃ i < N, B = 1 <<< i ∧ rels[i]? = some x := by
  by_cases hB : ∃ i < N, B = 1 <<< i
  · obtain ⟨i, hi, rfl⟩ := hB
    exact ⟨i, hi, rfl, (seedTable_one_shiftLeft rels hi).symm.trans h⟩
  · push_neg at hB
    rw [seedTable, foldl_update_of_forall_ne rels _ _ B fun i hi h => hB i (List.mem_range.mp hi) h.symm] at h
    cases h

theorem seedTable_inv (N : Nat) : TableInv o rels Adm (seedTable N rels) where
  relids_eq B x h := by
    obtain ⟨i, -, rfl, hx⟩ := seedTable_eq_some h
    obtain ⟨hi, rfl⟩ := List.getElem?_eq_some_iff.mp hx
    rw [Oracle.cover_one_shiftLeft hi, Oracle.relidsAt, List.getElem?_eq_getElem hi]
  admissible B x h hB := by
    obtain ⟨i, -, rfl, -⟩ := seedTable_eq_some h
    exact absurd rfl (hB i)

/-! ## The loops -/

/-- **Run lemma of the worker's loop**: a split routine that keeps the invariant on every set
it is called on keeps it over the loop. -/
theorem splitLoop_inv {split : List Nat → Table R → Except Fault (Table R)}
    {sorted : List (List Nat)} {P P' : Table R}
    (hstep : ∀ q ∈ sorted, 1 < q.length → ∀ P P', TableInv o rels Adm P → split q P = .ok P' →
      TableInv o rels Adm P')
    (hinv : TableInv o rels Adm P) (h : splitLoop split sorted P = .ok P') :
    TableInv o rels Adm P' := by
  rw [splitLoop_eq_foldlM] at h
  induction sorted generalizing P with
  | nil => cases h; exact hinv
  | cons q sorted ih =>
    have hstep' := fun q' hq' => hstep q' (List.mem_cons_of_mem q hq')
    by_cases hq : 1 < q.length
    · rw [List.filter_cons_of_pos (by simpa using hq), List.foldlM_cons] at h
      cases hs : split q P with
      | error e => rw [hs] at h; cases h
      | ok P1 =>
        rw [hs] at h
        exact ih hstep' (hstep q (List.mem_cons_self _ _) hq P P1 hinv hs) h
    · rw [List.filter_cons_of_neg (by simpa using hq)] at h
      exact ih hstep' hinv h

variable [LinearOrder C]

/-- **Step lemma**: one split of an admissible `B` into parts that make it up keeps the
invariant. -/
theorem trySplit_inv {g : Bool} {B : Nat} {P P' : Table R} {lr : Nat × Nat}
    (hinv : TableInv o rels Adm P) (hor : lr.1 ||| lr.2 = B) (hadm : Adm B)
    (h : trySplit o g B P lr = .ok P') : TableInv o rels Adm P' := by
  unfold trySplit at h
  split at h
  · rename_i l r hl hr
    cases hk : keepCheaper o (P B) (o.joinRel g l r) with
    | error e => rw [hk] at h; cases h
    | ok v =>
      rw [hk] at h; cases h
      have hv : ∀ x, v = some x → o.relids x = o.cover rels B := fun x hx => by
        subst hx
        rcases keepCheaper_eq_some hk with hc | hc
        · exact hinv.relids_eq B x hc
        · rw [o.relids_joinRel hc, hinv.relids_eq _ _ hl, hinv.relids_eq _ _ hr, ← Oracle.cover_or, hor]
      constructor
      · intro B' x hx
        by_cases hB : B' = B
        · subst hB; rw [Function.update_same] at hx; exact hv x hx
        · rw [Function.update_noteq hB] at hx; exact hinv.relids_eq B' x hx
      · intro B' x hx hs
        by_cases hB : B' = B
        · exact hB ▸ hadm
        · rw [Function.update_noteq hB] at hx; exact hinv.admissible B' x hx hs
  · cases h

/-- **Run lemma of a split loop.** -/
theorem trySplitList_inv {g : Bool} {B : Nat} {spl : List (Nat × Nat)} {P P' : Table R}
    (hinv : TableInv o rels Adm P) (hor : ∀ lr ∈ spl, lr.1 ||| lr.2 = B) (hadm : Adm B)
    (h : trySplitList o g B spl P = .ok P') : TableInv o rels Adm P' := by
  induction spl generalizing P with
  | nil => cases h; exact hinv
  | cons lr spl ih =>
    unfold trySplitList at h ih
    rw [List.foldlM_cons] at h
    cases hs : trySplit o g B P lr with
    | error e => rw [hs] at h; cases h
    | ok P1 =>
      rw [hs] at h
      exact ih (trySplit_inv hinv (hor lr (List.mem_cons_self _ _)) hadm hs)
        (fun lr h => hor lr (List.mem_cons_of_mem _ h)) h

/-! ## The workers -/

/-- Admissibility under left-deep constraints, read on the bits of a bitmap. -/
def AdmissibleBitsL (cs : List (Nat × Nat)) (B : Nat) : Prop :=
  ∀ c ∈ cs, B.testBit c.2 → B.testBit c.1

theorem isSplit_of_splitScheme {N : Nat} {Fits : Nat → JoinTree → Prop}
    {qs : List (List Nat)} {spl : List Nat → List (Nat × Nat)} (hS : SplitScheme N Fits qs spl)
    {q : List Nat} (hq : q ∈ qs) {lr : Nat × Nat} (hlr : lr ∈ spl q) : IsSplit (bitmapOf q) lr :=
  have h := hS.split_parts q hq lr hlr
  ⟨h.1, h.2.2.1.ne_zero hS, h.2.2.2.ne_zero hS, h.2.1⟩

/-- **The table invariant** holds in every state a worker reaches: after the seeding and after
each split call of its loop (a prefix of the sorted sets), for either worker. The splits it
hands `make_join_rel` are splits of the set's bitmap. -/
theorem workerTable_invariant (o : Oracle R C) (N p W : Nat) (rels : List R) (n : Nat)
    (P : Table R) :
    (2 ∣ N → splitLoop (fun q P => trySplits o q (partConstraints N p W) P N)
        ((sortBySize (admJoinResults N (partConstraints N p W))).take n) (seedTable N rels) = .ok P →
      TableInv o rels (AdmissibleBitsL (partConstraints N p W)) P) ∧
    (3 ∣ N → splitLoop (fun q P => trySplitsB o q (partConstraintsB N p W) P N)
        ((sortBySize (admJoinResultsB N (partConstraintsB N p W))).take n) (seedTable N rels) = .ok P →
      TableInv o rels (AdmissibleBits (partConstraintsB N p W)) P) ∧
    (2 ∣ N → ∀ q ∈ admJoinResults N (partConstraints N p W), 1 < q.length →
      ∀ lr ∈ leftDeepSplits q (partConstraints N p W), IsSplit (bitmapOf q) lr) ∧
    (3 ∣ N → ∀ q ∈ admJoinResultsB N (partConstraintsB N p W), 1 < q.length →
      ∀ lr ∈ bushySplits q (partConstraintsB N p W) N, IsSplit (bitmapOf q) lr) := by
  have hL : 2 ∣ N → ∀ q ∈ admJoinResults N (partConstraints N p W), 1 < q.length →
      ∀ lr ∈ leftDeepSplits q (partConstraints N p W), IsSplit (bitmapOf q) lr :=
    fun hN q hq hlen _ hlr =>
      isSplit_of_splitScheme (splitScheme_leftDeep p W hN) (mem_splitSets.mpr ⟨hq, hlen⟩) hlr
  have hB : 3 ∣ N → ∀ q ∈ admJoinResultsB N (partConstraintsB N p W), 1 < q.length →
      ∀ lr ∈ bushySplits q (partConstraintsB N p W) N, IsSplit (bitmapOf q) lr :=
    fun hN q hq hlen _ hlr =>
      isSplit_of_splitScheme (splitScheme_bushy p W hN) (mem_splitSets.mpr ⟨hq, hlen⟩) hlr
  have hsorted : ∀ {js : List (List Nat)} {q}, q ∈ (sortBySize js).take n → q ∈ js := fun hq =>
    (List.perm_insertionSort _ _).mem_iff.mp (List.mem_of_mem_take hq)
  refine ⟨fun hN => splitLoop_inv (fun q hq hlen P P' hinv h => ?_) (seedTable_inv N),
    fun hN => splitLoop_inv (fun q hq hlen P P' hinv h => ?_) (seedTable_inv N), hL, hB⟩
  · exact trySplitList_inv hinv (fun lr hlr => (hL hN q (hsorted hq) hlen lr hlr).2.2.2)
      (fun c hc => ((admJoinResults_bitmaps N p W hN).2 _).mp (List.mem_map_of_mem _ (hsorted hq))
        |>.2.2 c hc) h
  · exact trySplitList_inv hinv (fun lr hlr => (hB hN q (hsorted hq) hlen lr hlr).2.2.2)
      ((admJoinResultsB_facts p W hN).2 q (hsorted hq)) h

end ParallelJoin
