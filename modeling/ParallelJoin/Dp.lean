import ParallelJoin.Worker

/-!
# The keep-the-minimum update and the dynamic program over sorted sets

Both split routines end in `trySplitList`: the loop of `trySplit` over a list of splits of
`bitmap`. `trySplitList_eq` says what it does when no split reads `P[bitmap]` and no input is
NULL: it folds `keepCheaper` over the join results, starting from `P[bitmap]`, and writes the
result back to `P[bitmap]` only. The fold keeps a cheapest join (`foldlM_keepCheaper_none`).

`SplitScheme` lists what the dynamic program needs of a split routine: the sets are sorted by
size, their splits are made of seeded singletons and of smaller sets, every plan that fits a
set starts with one of its splits, and every split composes fitting plans into one. The left-
deep and the bushy worker both meet it (`Optimal.lean`), so the run lemma is proved once.

Results:
* `trySplitList_eq`: the spec of one split loop.
* `optimal_of_cheapest`: when every split of a set joins two optimal relations, the cheapest
  join is optimal for the set; `RunInv.step` makes it the step lemma of the run.
* `run_optimal`: from the seeded table, the loop over a `SplitScheme` never faults and leaves,
  for each of its sets, a relation of least cost among the plans that fit the set
  (`Optimal`), given an oracle that accepts disjoint pairs with a monotone cost.
-/

namespace ParallelJoin

variable {R C : Type} {o : Oracle R C} [LinearOrder C]

/-! ## Bitmaps of sets of more than one ordinal -/

theorem one_shiftLeft_injective {i j : Nat} (h : 1 <<< i = 1 <<< j) : i = j := by
  simpa [eq_comm] using congrArg (Nat.testBit · i) h

theorem length_eq_of_bitmapOf_eq {xs ys : List Nat} (hx : xs.Nodup) (hy : ys.Nodup)
    (h : bitmapOf xs = bitmapOf ys) : xs.length = ys.length := by
  rw [← List.toFinset_card_of_nodup hx, ← List.toFinset_card_of_nodup hy,
    bitmapOf_eq_iff_toFinset.mp h]

theorem bitmapOf_ne_one_shiftLeft {q : List Nat} (hq : q.Nodup) (hlen : 1 < q.length) (i : Nat) :
    bitmapOf q ≠ 1 <<< i := fun h => by
  have := length_eq_of_bitmapOf_eq hq (List.nodup_singleton i) (h.trans (bitmapOf_singleton i).symm)
  simp [this] at hlen

/-- Disjoint parts of a bitmap, the second nonzero: the first is not the whole. -/
theorem ne_of_and_eq_zero {a b s : Nat} (hand : a &&& b = 0) (hor : a ||| b = s) (hb : b ≠ 0) :
    a ≠ s := by
  rintro rfl
  refine hb (Nat.eq_of_testBit_eq fun i => ?_)
  have h1 := congrArg (Nat.testBit · i) hand
  have h2 := congrArg (Nat.testBit · i) hor
  simp only [Nat.testBit_and, Nat.testBit_or, Nat.zero_testBit] at h1 h2 ⊢
  cases ha : a.testBit i <;> simp_all

/-! ## The seeded table -/

theorem foldl_update_of_forall_ne (rels : List R) (L : List Nat) (P : Table R) (B : Nat)
    (h : ∀ i ∈ L, 1 <<< i ≠ B) :
    L.foldl (fun P i => Function.update P (1 <<< i) rels[i]?) P B = P B := by
  induction L generalizing P with
  | nil => rfl
  | cons i L ih =>
    rw [List.foldl_cons, ih _ fun j hj => h j (List.mem_cons_of_mem i hj),
      Function.update_noteq (h i (List.mem_cons_self i L)).symm]

theorem seedTable_one_shiftLeft {N : Nat} (rels : List R) {i : Nat} (hi : i < N) :
    seedTable N rels (1 <<< i) = rels[i]? := by
  suffices ∀ L : List Nat, L.Nodup → i ∈ L → ∀ P : Table R,
      L.foldl (fun P i => Function.update P (1 <<< i) rels[i]?) P (1 <<< i) = rels[i]? from
    this _ (List.nodup_range N) (List.mem_range.mpr hi) _
  intro L hnd hiL P
  induction L generalizing P with
  | nil => simp at hiL
  | cons j L ih =>
    obtain ⟨hj, hnd⟩ := List.nodup_cons.mp hnd
    rw [List.foldl_cons]
    by_cases hij : i = j
    · subst hij
      rw [foldl_update_of_forall_ne rels L _ (1 <<< i) fun k hk h => hj (one_shiftLeft_injective h ▸ hk),
        Function.update_same]
    · exact ih hnd ((List.mem_cons.mp hiL).resolve_left hij) _

theorem seedTable_of_ne {N : Nat} (rels : List R) {B : Nat} (h : ∀ i, B ≠ 1 <<< i) :
    seedTable N rels B = none :=
  foldl_update_of_forall_ne rels _ _ B fun i _ hi => h i hi.symm

/-! ## One split list -/

/-- The join `trySplit` makes for the split `lr`; `none` also when an input is NULL. -/
def joinAt (o : Oracle R C) (gather : Bool) (P : Table R) (lr : Nat × Nat) : Option R :=
  match P lr.1, P lr.2 with
  | some l, some r => o.joinRel gather l r
  | _, _ => none

/-- **The spec of a split loop**: when no split reads `P[bitmap]` and every input is present,
`trySplitList` folds `keepCheaper` over the joins and writes the result to `P[bitmap]` only. -/
theorem trySplitList_eq {g : Bool} {B : Nat} {spl : List (Nat × Nat)} {P : Table R}
    (hne : ∀ lr ∈ spl, lr.1 ≠ B ∧ lr.2 ≠ B)
    (hin : ∀ lr ∈ spl, (P lr.1).isSome ∧ (P lr.2).isSome) :
    trySplitList o g B spl P =
      Function.update P B <$> (spl.map (joinAt o g P)).foldlM (keepCheaper o) (P B) := by
  induction spl generalizing P with
  | nil => simp [trySplitList, Function.update_eq_self]
  | cons lr spl ih =>
    obtain ⟨a, ha⟩ := Option.isSome_iff_exists.mp (hin lr (List.mem_cons_self _ _)).1
    obtain ⟨b, hb⟩ := Option.isSome_iff_exists.mp (hin lr (List.mem_cons_self _ _)).2
    have hjoin : joinAt o g P lr = o.joinRel g a b := by simp [joinAt, ha, hb]
    simp only [trySplitList, List.foldlM_cons, List.map_cons, hjoin] at ih ⊢
    simp only [trySplit, ha, hb]
    cases hk : keepCheaper o (P B) (o.joinRel g a b) with
    | error e => rfl
    | ok v =>
      have hne' : ∀ lr' ∈ spl, Function.update P B v lr'.1 = P lr'.1 ∧
          Function.update P B v lr'.2 = P lr'.2 := fun lr' h =>
        ⟨Function.update_noteq (hne lr' (List.mem_cons_of_mem _ h)).1 _ _,
          Function.update_noteq (hne lr' (List.mem_cons_of_mem _ h)).2 _ _⟩
      have hmap : spl.map (joinAt o g (Function.update P B v)) = spl.map (joinAt o g P) :=
        List.map_congr_left fun lr' h => by simp only [joinAt, (hne' lr' h).1, (hne' lr' h).2]
      refine (ih (fun lr' h => hne lr' (List.mem_cons_of_mem _ h)) fun lr' h => ?_).trans ?_
      · rw [(hne' lr' h).1, (hne' lr' h).2]; exact hin lr' (List.mem_cons_of_mem _ h)
      · have hidem : Function.update (Function.update P B v) B = Function.update P B :=
          funext fun w => Function.update_idem _ _ _
        rw [hmap, Function.update_same, hidem]
        rfl

section Keep

variable (o)

/-- From a present entry, the fold over present joins keeps a cheapest of the entry and the
joins. -/
theorem foldlM_keepCheaper_some {js : List (Option R)} (hjs : ∀ j ∈ js, j.isSome) (c : R) :
    ∃ v, js.foldlM (keepCheaper o) (some c) = .ok (some v) ∧ (v = c ∨ some v ∈ js) ∧
      o.totalCost v ≤ o.totalCost c ∧ ∀ j ∈ js, ∀ y, j = some y → o.totalCost v ≤ o.totalCost y := by
  induction js generalizing c with
  | nil => exact ⟨c, rfl, .inl rfl, le_rfl, by simp⟩
  | cons j js ih =>
    obtain ⟨x, rfl⟩ := Option.isSome_iff_exists.mp (hjs _ (List.mem_cons_self _ _))
    let c' := if o.totalCost c > o.totalCost x then x else c
    obtain ⟨v, hv, hmem, hle, hles⟩ := ih (fun j h => hjs j (List.mem_cons_of_mem _ h)) c'
    have hc' : o.totalCost c' ≤ o.totalCost c ∧ o.totalCost c' ≤ o.totalCost x := by
      by_cases h : o.totalCost c > o.totalCost x <;> simp [c', h, le_of_lt, not_lt.mp]
    refine ⟨v, ?_, ?_, hle.trans hc'.1, ?_⟩
    · rw [List.foldlM_cons]
      simpa only [keepCheaper, apply_ite some] using hv
    · rcases hmem with rfl | h
      · by_cases h : o.totalCost c > o.totalCost x <;> simp [c', h]
      · exact .inr (List.mem_cons_of_mem _ h)
    · simp only [List.mem_cons, forall_eq_or_imp, Option.some.injEq, forall_eq']
      exact ⟨hle.trans hc'.2, hles⟩

/-- From a NULL entry and at least one join, all present, the fold keeps a cheapest join. -/
theorem foldlM_keepCheaper_none (js : List (Option R)) (hjs : ∀ j ∈ js, j.isSome)
    (hne : js ≠ []) : ∃ v, js.foldlM (keepCheaper o) none = .ok (some v) ∧ some v ∈ js ∧
      ∀ j ∈ js, ∀ y, j = some y → o.totalCost v ≤ o.totalCost y := by
  obtain ⟨j, js, rfl⟩ := List.exists_cons_of_ne_nil hne
  obtain ⟨x, rfl⟩ := Option.isSome_iff_exists.mp (hjs _ (List.mem_cons_self _ _))
  obtain ⟨v, hv, hmem, hle, hles⟩ :=
    foldlM_keepCheaper_some o (fun j h => hjs j (List.mem_cons_of_mem _ h)) x
  refine ⟨v, hv, ?_, ?_⟩
  · rcases hmem with rfl | h
    · exact List.mem_cons_self _ _
    · exact List.mem_cons_of_mem _ h
  · simp only [List.mem_cons, forall_eq_or_imp, Option.some.injEq, forall_eq']
    exact ⟨hle, hles⟩

end Keep

theorem keepCheaper_eq_some {cur j : Option R} {r : R} (h : keepCheaper o cur j = .ok (some r)) :
    cur = some r ∨ j = some r := by
  rcases cur with _ | c <;> rcases j with _ | x
  · cases h
  · cases h; exact .inr rfl
  · cases h
  · simp only [keepCheaper] at h
    split at h <;> cases h
    · exact .inr rfl
    · exact .inl rfl

/-- The fold keeps any property that the entry and all joins have. -/
theorem foldlM_keepCheaper_inv (I : R → Prop) {js : List (Option R)} {cur v : Option R}
    (h : js.foldlM (keepCheaper o) cur = .ok v) (hcur : ∀ c, cur = some c → I c)
    (hjs : ∀ j ∈ js, ∀ r, j = some r → I r) : ∀ r, v = some r → I r := by
  induction js generalizing cur with
  | nil => exact fun r hr => hcur r (by cases h; exact hr)
  | cons j js ih =>
    rw [List.foldlM_cons] at h
    cases hk : keepCheaper o cur j with
    | error e => rw [hk] at h; cases h
    | ok w =>
      rw [hk] at h
      refine ih h (fun c hc => ?_) fun j' hj' => hjs j' (List.mem_cons_of_mem _ hj')
      subst hc
      rcases keepCheaper_eq_some hk with hc | hc
      · exact hcur c hc
      · exact hjs j (List.mem_cons_self _ _) c hc

/-! ## One split -/

/-- **Inversion of one split**: a split that does not fault read two present entries and stored
the kept value at `bitmap`. -/
theorem trySplit_eq_ok {g : Bool} {B : Nat} {P P' : Table R} {lr : Nat × Nat}
    (h : trySplit o g B P lr = .ok P') : ∃ l r v, P lr.1 = some l ∧ P lr.2 = some r ∧
      keepCheaper o (P B) (o.joinRel g l r) = .ok v ∧ P' = Function.update P B v := by
  unfold trySplit at h
  split at h
  · rename_i l r hl hr
    cases hk : keepCheaper o (P B) (o.joinRel g l r) with
    | error e => rw [hk] at h; cases h
    | ok v => rw [hk] at h; cases h; exact ⟨l, r, v, hl, hr, hk, rfl⟩
  · cases h

/-! ## The dynamic program -/

section Run

variable (o) (N : Nat) (rels : List R) (Fits : Nat → JoinTree → Prop)

/-- `r` is the best relation for the bitmap `B` among the plans that fit it: it covers `B`'s
relations, no fitting plan is cheaper, and one fitting plan costs the same. -/
structure Optimal (B : Nat) (r : R) : Prop where
  relids_eq : o.relids r = o.cover rels B
  le_plan : ∀ t x, Fits B t → o.plan N rels t = some x → o.totalCost r ≤ o.totalCost x
  attained : ∃ t x, Fits B t ∧ o.plan N rels t = some x ∧ o.totalCost x = o.totalCost r

variable (qs : List (List Nat)) (spl : List Nat → List (Nat × Nat))

/-- A part of a split of `q`: a seeded singleton, or a set of `qs` smaller than `q`. -/
def Known (q : List Nat) (b : Nat) : Prop :=
  (∃ i < N, b = 1 <<< i) ∨ ∃ q' ∈ qs, bitmapOf q' = b ∧ q'.length < q.length

/-- What the dynamic program needs of a split routine `spl` over the sets `qs`, with `Fits B t`
the plans it searches for the bitmap `B`. -/
structure SplitScheme : Prop where
  sorted : qs.Pairwise fun a b => a.length ≤ b.length
  nodup : (qs.map bitmapOf).Nodup
  mem : ∀ q ∈ qs, q.Nodup ∧ 1 < q.length ∧ ∀ x ∈ q, x < N
  fits_leaves : ∀ B t, Fits B t → bitmapOf t.leaves = B ∧ t.leaves.Nodup
  fits_leaf : ∀ i < N, Fits (1 <<< i) (.leaf i)
  split_parts : ∀ q ∈ qs, ∀ lr ∈ spl q, lr.1 &&& lr.2 = 0 ∧ lr.1 ||| lr.2 = bitmapOf q ∧
    Known N qs q lr.1 ∧ Known N qs q lr.2
  split_ne_nil : ∀ q ∈ qs, spl q ≠ []
  decompose : ∀ q ∈ qs, ∀ l r, Fits (bitmapOf q) (.join l r) →
    (bitmapOf l.leaves, bitmapOf r.leaves) ∈ spl q ∧ Fits (bitmapOf l.leaves) l ∧
      Fits (bitmapOf r.leaves) r
  compose : ∀ q ∈ qs, ∀ lr ∈ spl q, ∀ l r, Fits lr.1 l → Fits lr.2 r →
    Fits (bitmapOf q) (.join l r)

/-- The table after the sets `done`, before the sets `rest`. -/
structure RunInv (done rest : List (List Nat)) (P : Table R) : Prop where
  seeds : ∀ i < N, P (1 <<< i) = rels[i]?
  done_opt : ∀ q ∈ done, ∃ r, P (bitmapOf q) = some r ∧ Optimal o N rels Fits (bitmapOf q) r
  rest_none : ∀ q ∈ rest, P (bitmapOf q) = none

/-- The split `lr` of `P` reads two optimal relations, and `make_join_rel` joins them into `j`. -/
def OptimalJoin (g : Bool) (P : Table R) (lr : Nat × Nat) (j : R) : Prop :=
  ∃ a b, P lr.1 = some a ∧ P lr.2 = some b ∧ Optimal o N rels Fits lr.1 a ∧
    Optimal o N rels Fits lr.2 b ∧ o.joinRel g a b = some j

variable {o N rels Fits qs spl}

theorem OptimalJoin.joinAt {g : Bool} {P : Table R} {lr : Nat × Nat} {j : R}
    (h : OptimalJoin o N rels Fits g P lr j) : joinAt o g P lr = some j := by
  obtain ⟨a, b, ha, hb, -, -, hj⟩ := h
  simp [ParallelJoin.joinAt, ha, hb, hj]

theorem Known.ne_zero {q : List Nat} {b : Nat} (hS : SplitScheme N Fits qs spl)
    (h : Known N qs q b) : b ≠ 0 := by
  rcases h with ⟨i, -, rfl⟩ | ⟨q', hq', rfl, -⟩
  · simp [Nat.two_pow_pos]
  · obtain ⟨-, hlen, -⟩ := hS.mem q' hq'
    rw [Ne, bitmapOf_eq_zero_iff]
    rintro rfl
    simp at hlen

/-- A seeded singleton is optimal: its only fitting plan is the leaf. -/
theorem optimal_seed (hS : SplitScheme N Fits qs spl) (hlen : rels.length = N) {i : Nat}
    (hi : i < N) : Optimal o N rels Fits (1 <<< i) rels[i] where
  relids_eq := by rw [Oracle.cover_one_shiftLeft (hlen ▸ hi), Oracle.relidsAt, List.getElem?_eq_getElem]
  le_plan t x ht hx := by
    obtain ⟨hb, hnd⟩ := hS.fits_leaves _ t ht
    rw [JoinTree.eq_leaf_of_bitmapOf hnd hb] at hx
    simp [Oracle.plan, List.getElem?_eq_getElem (hlen ▸ hi)] at hx
    rw [hx]
  attained := ⟨.leaf i, _, hS.fits_leaf i hi, List.getElem?_eq_getElem (hlen ▸ hi), rfl⟩

theorem SplitScheme.mem_done {done rest : List (List Nat)} {q q' : List Nat}
    (hS : SplitScheme N Fits qs spl) (hqs : qs = done ++ q :: rest) (hq' : q' ∈ qs)
    (hlt : q'.length < q.length) : q' ∈ done := by
  have hsorted := hS.sorted
  rw [hqs, List.pairwise_append] at hsorted
  rw [hqs, List.mem_append] at hq'
  refine hq'.resolve_right fun h => ?_
  rcases List.mem_cons.mp h with rfl | h
  · exact lt_irrefl _ hlt
  · exact absurd (List.rel_of_pairwise_cons hsorted.2.1 h) (not_le.mpr hlt)

/-- A plan that fits one of the sets has as many leaves as the set. -/
theorem SplitScheme.length_leaves (hS : SplitScheme N Fits qs spl) {q : List Nat} (hq : q ∈ qs)
    {t : JoinTree} (ht : Fits (bitmapOf q) t) : t.leaves.length = q.length :=
  length_eq_of_bitmapOf_eq (hS.fits_leaves _ t ht).2 (hS.mem q hq).1 (hS.fits_leaves _ t ht).1

/-- The join of two optimal entries costs no more than the same join of any fitting plans. -/
theorem Optimal.join_le (hmono : o.CostMonotone) {g : Bool} {l r : Nat} {a b j xa xb x : R}
    (hS : SplitScheme N Fits qs spl) (ha : Optimal o N rels Fits l a)
    (hb : Optimal o N rels Fits r b) {tl tr : JoinTree} (htl : Fits l tl) (htr : Fits r tr)
    (hxa : o.plan N rels tl = some xa) (hxb : o.plan N rels tr = some xb)
    (hj : o.joinRel g a b = some j) (hx : o.joinRel g xa xb = some x) :
    o.totalCost j ≤ o.totalCost x :=
  hmono g a xa b xb j x
    (by rw [ha.relids_eq, Oracle.relids_plan hxa, (hS.fits_leaves _ _ htl).1])
    (by rw [hb.relids_eq, Oracle.relids_plan hxb, (hS.fits_leaves _ _ htr).1])
    (ha.le_plan tl xa htl hxa) (hb.le_plan tr xb htr hxb) hj hx

/-- When the parts of `q`'s splits hold optimal relations, every split joins two of them. -/
theorem RunInv.exists_optimalJoin (hS : SplitScheme N Fits qs spl) (hacc : o.AcceptsDisjoint)
    (hlen : rels.length = N) (hdisj : o.DisjointRels rels) {done rest : List (List Nat)}
    {q : List Nat} {P : Table R} (hqs : qs = done ++ q :: rest)
    (hI : RunInv o N rels Fits done (q :: rest) P) (g : Bool) :
    ∀ lr ∈ spl q, ∃ j, OptimalJoin o N rels Fits g P lr j := fun lr hlr => by
  have hknown : ∀ b, Known N qs q b → ∃ r, P b = some r ∧ Optimal o N rels Fits b r := by
    rintro b (⟨i, hi, rfl⟩ | ⟨q', hq', rfl, hlt⟩)
    · exact ⟨_, by rw [hI.seeds i hi, List.getElem?_eq_getElem (hlen ▸ hi)], optimal_seed hS hlen hi⟩
    · exact hI.done_opt q' (hS.mem_done hqs hq' hlt)
  obtain ⟨hand, -, hk1, hk2⟩ := hS.split_parts q (by simp [hqs]) lr hlr
  obtain ⟨a, ha, hoa⟩ := hknown _ hk1
  obtain ⟨b, hb, hob⟩ := hknown _ hk2
  obtain ⟨j, hj⟩ := hacc a b (by rw [hoa.relids_eq, hob.relids_eq]; exact Oracle.disjoint_cover hdisj hand)
  exact ⟨o.setCheapest g j, a, b, ha, hb, hoa, hob, by simp [Oracle.joinRel, hj]⟩

/-- **The cheapest split join is optimal**: when every split of `q` joins two optimal
relations, the cheapest of these joins is optimal for `q`. -/
theorem optimal_of_cheapest (hS : SplitScheme N Fits qs spl) (hacc : o.AcceptsDisjoint)
    (hmono : o.CostMonotone) (hdisj : o.DisjointRels rels) {q : List Nat} (hq : q ∈ qs)
    {P : Table R} (hsplit : ∀ lr ∈ spl q, ∃ j, OptimalJoin o N rels Fits (q.length != N) P lr j)
    {v : R} (hvmem : some v ∈ (spl q).map (joinAt o (q.length != N) P))
    (hvle : ∀ j ∈ (spl q).map (joinAt o (q.length != N) P), ∀ y, j = some y →
      o.totalCost v ≤ o.totalCost y) :
    Optimal o N rels Fits (bitmapOf q) v := by
  obtain ⟨hqnd, hqlen, -⟩ := hS.mem q hq
  obtain ⟨lr, hlr, hv⟩ := List.mem_map.mp hvmem
  obtain ⟨j, hsj⟩ := hsplit lr hlr
  obtain rfl : j = v := Option.some.inj (hsj.joinAt.symm.trans hv)
  obtain ⟨a, b, -, -, hoa, hob, hj⟩ := hsj
  obtain ⟨hand, hor, -⟩ := hS.split_parts q hq lr hlr
  refine ⟨?_, fun t x ht hx => ?_, ?_⟩
  · rw [o.relids_joinRel hj, hoa.relids_eq, hob.relids_eq, ← Oracle.cover_or, hor]
  · -- a fitting plan starts with a split, whose join of optimal parts is no dearer
    cases t with
    | leaf i =>
      exact absurd ((hS.fits_leaves _ _ ht).1.symm.trans (bitmapOf_singleton i))
        (bitmapOf_ne_one_shiftLeft hqnd hqlen i)
    | join tl tr =>
      obtain ⟨hmem, htl, htr⟩ := hS.decompose q hq tl tr ht
      obtain ⟨j', hsj'⟩ := hsplit _ hmem
      have hj2 := hsj'.joinAt
      obtain ⟨a', b', -, -, hoa', hob', hj1⟩ := hsj'
      obtain ⟨xa, xb, hxa, hxb, hx⟩ := Oracle.plan_join_eq_some.mp hx
      rw [← List.length_append, ← JoinTree.leaves_join, hS.length_leaves hq ht] at hx
      exact (hvle _ (List.mem_map_of_mem _ hmem) _ hj2).trans
        (hoa'.join_le hmono hS hob' htl htr hxa hxb hj1 hx)
  · -- the optimal parts' plans compose into a fitting plan of the same cost
    obtain ⟨tl, xa, htl, hxa, hca⟩ := hoa.attained
    obtain ⟨tr, xb, htr, hxb, hcb⟩ := hob.attained
    have ht := hS.compose q hq lr hlr tl tr htl htr
    have hd : Disjoint (o.relids xa) (o.relids xb) := by
      rw [Oracle.relids_plan hxa, Oracle.relids_plan hxb, (hS.fits_leaves _ _ htl).1,
        (hS.fits_leaves _ _ htr).1]
      exact Oracle.disjoint_cover hdisj hand
    obtain ⟨x, hx⟩ := hacc xa xb hd
    have hg : (tl.leaves.length + tr.leaves.length != N) = (q.length != N) := by
      rw [← List.length_append, ← JoinTree.leaves_join, hS.length_leaves hq ht]
    refine ⟨_, o.setCheapest (q.length != N) x, ht,
      Oracle.plan_join_eq_some.mpr ⟨xa, xb, hxa, hxb, ?_⟩, ?_⟩
    · rw [hg]; simp [Oracle.joinRel, hx]
    · refine (hmono.eq ?_ ?_ hca hcb (show o.joinRel (q.length != N) xa xb =
        some (o.setCheapest (q.length != N) x) by simp [Oracle.joinRel, hx]) hj)
      · rw [Oracle.relids_plan hxa, (hS.fits_leaves _ _ htl).1, hoa.relids_eq]
      · rw [Oracle.relids_plan hxb, (hS.fits_leaves _ _ htr).1, hob.relids_eq]

/-- **One step of the dynamic program**: when all parts of `q`'s splits hold optimal
relations and `P[q]` is NULL, the split loop of `q` leaves in `P[q]` an optimal relation. -/
theorem RunInv.step (hS : SplitScheme N Fits qs spl) (hacc : o.AcceptsDisjoint)
    (hmono : o.CostMonotone) (hlen : rels.length = N) (hdisj : o.DisjointRels rels)
    {done rest : List (List Nat)} {q : List Nat} {P : Table R} (hqs : qs = done ++ q :: rest)
    (hI : RunInv o N rels Fits done (q :: rest) P) :
    ∃ P', trySplitList o (q.length != N) (bitmapOf q) (spl q) P = .ok P' ∧
      RunInv o N rels Fits (done ++ [q]) rest P' := by
  have hq : q ∈ qs := by simp [hqs]
  obtain ⟨hqnd, hqlen, -⟩ := hS.mem q hq
  have hsplit := hI.exists_optimalJoin hS hacc hlen hdisj hqs (q.length != N)
  obtain ⟨v, hfold, hvmem, hvle⟩ := foldlM_keepCheaper_none o
    ((spl q).map (joinAt o (q.length != N) P))
    (fun j hj => by
      obtain ⟨lr, hlr, rfl⟩ := List.mem_map.mp hj
      obtain ⟨j, hsj⟩ := hsplit lr hlr
      simp [hsj.joinAt])
    (by simpa using hS.split_ne_nil q hq)
  have hne : ∀ lr ∈ spl q, lr.1 ≠ bitmapOf q ∧ lr.2 ≠ bitmapOf q := fun lr hlr => by
    obtain ⟨hand, hor, hk1, hk2⟩ := hS.split_parts q hq lr hlr
    exact ⟨ne_of_and_eq_zero hand hor (hk2.ne_zero hS),
      ne_of_and_eq_zero (by rw [Nat.land_comm, hand]) (by rw [Nat.lor_comm, hor]) (hk1.ne_zero hS)⟩
  have hin : ∀ lr ∈ spl q, (P lr.1).isSome ∧ (P lr.2).isSome := fun lr hlr => by
    obtain ⟨j, a, b, ha, hb, -⟩ := hsplit lr hlr
    simp [ha, hb]
  have hnd := hS.nodup
  rw [hqs, List.map_append, List.nodup_append, List.map_cons, List.nodup_cons] at hnd
  refine ⟨_, by rw [trySplitList_eq hne hin, hI.rest_none q (List.mem_cons_self _ _), hfold]; rfl,
    fun i hi => ?_, fun q' hq' => ?_, fun q' hq' => ?_⟩
  · rw [Function.update_noteq (bitmapOf_ne_one_shiftLeft hqnd hqlen i).symm, hI.seeds i hi]
  · rcases List.mem_append.mp hq' with hq' | hq'
    · rw [Function.update_noteq fun h : bitmapOf q' = bitmapOf q =>
        hnd.2.2 (List.mem_map_of_mem _ hq') (by rw [h]; exact List.mem_cons_self _ _)]
      exact hI.done_opt q' hq'
    · obtain rfl := List.mem_singleton.mp hq'
      exact ⟨v, Function.update_same _ _ _,
        optimal_of_cheapest hS hacc hmono hdisj hq hsplit hvmem hvle⟩
  · rw [Function.update_noteq fun h : bitmapOf q' = bitmapOf q =>
      hnd.2.1.1 (by rw [← h]; exact List.mem_map_of_mem _ hq')]
    exact hI.rest_none q' (List.mem_cons_of_mem _ hq')

/-- **The dynamic program is optimal**: from the seeded table, the split loop over a
`SplitScheme` runs without a fault and leaves an optimal relation for every set. -/
theorem run_optimal (hS : SplitScheme N Fits qs spl) (hacc : o.AcceptsDisjoint)
    (hmono : o.CostMonotone) (hlen : rels.length = N) (hdisj : o.DisjointRels rels) :
    ∃ P, qs.foldlM (fun P q => trySplitList o (q.length != N) (bitmapOf q) (spl q) P)
        (seedTable N rels) = .ok P ∧
      ∀ q ∈ qs, ∃ r, P (bitmapOf q) = some r ∧ Optimal o N rels Fits (bitmapOf q) r := by
  suffices h : ∀ rest done P, qs = done ++ rest → RunInv o N rels Fits done rest P →
      ∃ P', rest.foldlM (fun P q => trySplitList o (q.length != N) (bitmapOf q) (spl q) P) P =
        .ok P' ∧ RunInv o N rels Fits qs [] P' by
    obtain ⟨P, hrun, hI⟩ := h qs [] _ rfl ⟨fun i hi => seedTable_one_shiftLeft rels hi,
      by simp, fun q hq => seedTable_of_ne rels
        (bitmapOf_ne_one_shiftLeft (hS.mem q hq).1 (hS.mem q hq).2.1)⟩
    exact ⟨P, hrun, hI.done_opt⟩
  intro rest
  induction rest with
  | nil => exact fun done P hqs hI => ⟨P, rfl, by simpa [hqs] using hI⟩
  | cons q rest ih =>
    intro done P hqs hI
    obtain ⟨P', hstep, hI'⟩ := hI.step hS hacc hmono hlen hdisj hqs
    obtain ⟨P'', hrun, hI''⟩ := ih (done ++ [q]) P' (by simp [hqs]) hI'
    exact ⟨P'', by rw [List.foldlM_cons, hstep]; exact hrun, hI''⟩

end Run

end ParallelJoin
