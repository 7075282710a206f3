import ParallelJoin.Optimal

/-!
# The order of the split loop: `list_qsort` and sets of one size

`worker` sorts the admissible sets with `list_qsort(join_res, ptr_less)`
(`parallel_worker.c:632`). `ptr_less` compares sizes only, and the sort is not stable, so
the order among sets of one size is whatever the sort leaves. The model sorts with `sortBySize`,
a stable insertion sort. This module shows that the choice does not matter. The split routine
of a set reads only the entries of its parts and its own entry, and writes only its own entry.
So the routines of two sets of one size commute, and every order sorted by size yields the
table the model computes, or faults wherever the model faults.

Results:
* `trySplitList_eq_map`: a split loop writes `P[bitmap]` only, with a value read from the entries
  of its parts (`splitValue`).
* `trySplitList_comm`: the split loops of two bitmaps commute when neither reads the other's.
* `toOption_foldlM_perm`: a fold whose steps commute on items of one key gives the same result
  over any two orders sorted by that key.
* `splitLoop_sorted_perm`: the worker's table is the same for every size-sorted order of its
  admissible sets, for either variant and any oracle.
-/

namespace ParallelJoin

/-! ## Reordering a fold -/

section Reorder

variable {α σ ε : Type} (f : σ → α → Except ε σ)

theorem toOption_bind {β : Type} (x : Except ε σ) (k : σ → Except ε β) :
    (x >>= k).toOption = x.toOption.bind fun s => (k s).toOption := by
  cases x <;> rfl

theorem toOption_eq_some {x : Except ε σ} {s : σ} : x.toOption = some s ↔ x = .ok s := by
  cases x <;> simp [Except.toOption]

/-- The steps of two items commute from every state, up to which fault is reported. -/
def StepsCommute (a b : α) : Prop :=
  ∀ s, (f s a >>= (f · b)).toOption = (f s b >>= (f · a)).toOption

variable {f}

theorem toOption_foldlM_cons_cons (a b : α) (l : List α) (s : σ) :
    ((a :: b :: l).foldlM f s).toOption =
      (f s a >>= (f · b)).toOption.bind fun s2 => (l.foldlM f s2).toOption := by
  simp only [List.foldlM_cons, toOption_bind, Option.bind_assoc]

/-- An item moves to the front past items it commutes with. -/
theorem toOption_foldlM_move {a : α} {v : List α} :
    ∀ {u : List α}, (∀ x ∈ u, StepsCommute f a x) → ∀ s,
      ((u ++ a :: v).foldlM f s).toOption = ((a :: (u ++ v)).foldlM f s).toOption
  | [], _, _ => rfl
  | x :: u, hc, s => by
    have ih : ∀ s, ((u ++ a :: v).foldlM f s).toOption = ((a :: (u ++ v)).foldlM f s).toOption :=
      toOption_foldlM_move fun y hy => hc y (List.mem_cons_of_mem x hy)
    calc ((x :: u ++ a :: v).foldlM f s).toOption
        = (f s x).toOption.bind fun s1 => ((a :: (u ++ v)).foldlM f s1).toOption := by
          simp only [List.cons_append, List.foldlM_cons, toOption_bind, ih]
      _ = (f s x >>= (f · a)).toOption.bind fun s2 => ((u ++ v).foldlM f s2).toOption := by
          simp only [List.foldlM_cons, toOption_bind, Option.bind_assoc]
      _ = (f s a >>= (f · x)).toOption.bind fun s2 => ((u ++ v).foldlM f s2).toOption := by
          rw [hc x (List.mem_cons_self x u) s]
      _ = ((a :: (x :: u ++ v)).foldlM f s).toOption := (toOption_foldlM_cons_cons a x _ s).symm

/-- **Reordering a fold**: over two orders of the same items, both sorted by `key`, a fold whose
steps commute on items of one key gives the same result, up to which fault is reported. -/
theorem toOption_foldlM_perm (key : α → Nat) :
    ∀ {l1 l2 : List α}, l1.Perm l2 → l1.Pairwise (key · ≤ key ·) → l2.Pairwise (key · ≤ key ·) →
      (∀ a ∈ l1, ∀ b ∈ l1, key a = key b → StepsCommute f a b) →
      ∀ s, (l1.foldlM f s).toOption = (l2.foldlM f s).toOption
  | [], l2, hp, _, _, _, s => by rw [hp.nil_eq]
  | a :: l1, l2, hp, h1, h2, hc, s => by
    obtain ⟨u, v, rfl⟩ := List.append_of_mem (hp.mem_iff.mp (List.mem_cons_self a l1))
    have hp' : l1.Perm (u ++ v) := (List.perm_cons a).mp (hp.trans List.perm_middle)
    -- the items `a` passes are sorted both before it and after it, so they share its key
    have hkey : ∀ x ∈ u, key a = key x := fun x hx =>
      le_antisymm (List.rel_of_pairwise_cons h1 (hp'.mem_iff.mpr (List.mem_append_left v hx)))
        ((List.pairwise_append.mp h2).2.2 x hx a (List.mem_cons_self a v))
    have ih := toOption_foldlM_perm key hp' (List.pairwise_cons.mp h1).2
      (h2.sublist ((List.sublist_cons_self a v).append_left u))
      fun x hx y hy => hc x (List.mem_cons_of_mem a hx) y (List.mem_cons_of_mem a hy)
    rw [toOption_foldlM_move fun x hx => hc a (List.mem_cons_self a l1) x
      (List.mem_cons_of_mem a (hp'.mem_iff.mpr (List.mem_append_left v hx))) (hkey x hx)]
    simp only [List.foldlM_cons, toOption_bind, ih]

end Reorder

/-! ## A split loop writes its own entry -/

variable {R C : Type} [LinearOrder C] (o : Oracle R C)

/-- One split's update of the value of `P[bitmap]`, with the parts read from `P`. -/
def splitStep (g : Bool) (P : Table R) (v : Option R) (lr : Nat × Nat) :
    Except Fault (Option R) :=
  match P lr.1, P lr.2 with
  | some l, some r => keepCheaper o v (o.joinRel g l r)
  | _, _ => .error .nullJoinInput

/-- The value a split loop leaves in `P[bitmap]`, starting from `v`. -/
def splitValue (g : Bool) (P : Table R) (spl : List (Nat × Nat)) (v : Option R) :
    Except Fault (Option R) :=
  spl.foldlM (splitStep o g P) v

/-- No split of `spl` reads the entry `B`. -/
def PartsAvoid (spl : List (Nat × Nat)) (B : Nat) : Prop :=
  ∀ lr ∈ spl, lr.1 ≠ B ∧ lr.2 ≠ B

variable {o}

theorem trySplit_update {g : Bool} {B : Nat} {lr : Nat × Nat} (h : lr.1 ≠ B ∧ lr.2 ≠ B)
    (P : Table R) (v : Option R) :
    trySplit o g B (Function.update P B v) lr = Function.update P B <$> splitStep o g P v lr := by
  simp only [trySplit, splitStep, Function.update_noteq h.1, Function.update_noteq h.2,
    Function.update_same, Function.update_idem]
  cases P lr.1 <;> cases P lr.2
  case some.some l r => cases keepCheaper o v (o.joinRel g l r) <;> rfl
  all_goals rfl

theorem trySplitList_update {g : Bool} {B : Nat} {spl : List (Nat × Nat)} (h : PartsAvoid spl B)
    (P : Table R) (v : Option R) :
    trySplitList o g B spl (Function.update P B v) =
      Function.update P B <$> splitValue o g P spl v := by
  induction spl generalizing v with
  | nil => rfl
  | cons lr spl ih =>
    simp only [trySplitList, splitValue, List.foldlM_cons] at ih ⊢
    rw [trySplit_update (h lr (List.mem_cons_self lr spl))]
    cases splitStep o g P v lr with
    | error e => rfl
    | ok w => exact ih (fun lr' h' => h lr' (List.mem_cons_of_mem lr h')) w

/-- **The spec of a split loop, faults included**: it writes `P[bitmap]` only, with the value
`splitValue` computes from the entries of the parts and of `P[bitmap]`. -/
theorem trySplitList_eq_map {g : Bool} {B : Nat} {spl : List (Nat × Nat)} (h : PartsAvoid spl B)
    (P : Table R) :
    trySplitList o g B spl P = Function.update P B <$> splitValue o g P spl (P B) := by
  conv_lhs => rw [← Function.update_eq_self B P]
  exact trySplitList_update h P (P B)

/-- The value depends on the table only at the parts. -/
theorem splitValue_update {g : Bool} {B : Nat} {spl : List (Nat × Nat)} (h : PartsAvoid spl B)
    (P : Table R) (w v : Option R) :
    splitValue o g (Function.update P B w) spl v = splitValue o g P spl v := by
  induction spl generalizing v with
  | nil => rfl
  | cons lr spl ih =>
    obtain ⟨h1, h2⟩ := h lr (List.mem_cons_self lr spl)
    simp only [splitValue, List.foldlM_cons, splitStep, Function.update_noteq h1,
      Function.update_noteq h2] at ih ⊢
    simp only [ih fun lr' h' => h lr' (List.mem_cons_of_mem lr h')]

/-- Two split loops in a row: both values are read from the first table. -/
theorem trySplitList_bind_eq_ok {g1 g2 : Bool} {B1 B2 : Nat} {spl1 spl2 : List (Nat × Nat)}
    (hB : B1 ≠ B2) (h11 : PartsAvoid spl1 B1) (h21 : PartsAvoid spl2 B1) (h22 : PartsAvoid spl2 B2)
    (P Q : Table R) :
    (trySplitList o g1 B1 spl1 P >>= trySplitList o g2 B2 spl2) = .ok Q ↔
      ∃ v1 v2, splitValue o g1 P spl1 (P B1) = .ok v1 ∧ splitValue o g2 P spl2 (P B2) = .ok v2 ∧
        Q = Function.update (Function.update P B1 v1) B2 v2 := by
  simp only [bind_eq_ok, trySplitList_eq_map h11, trySplitList_eq_map h22, map_eq_ok]
  constructor
  · rintro ⟨_, ⟨v1, hv1, rfl⟩, v2, hv2, rfl⟩
    rw [splitValue_update h21, Function.update_noteq hB.symm] at hv2
    exact ⟨v1, v2, hv1, hv2, rfl⟩
  · rintro ⟨v1, v2, hv1, hv2, rfl⟩
    exact ⟨_, ⟨v1, hv1, rfl⟩, v2,
      by rw [splitValue_update h21, Function.update_noteq hB.symm, hv2], rfl⟩

/-- **Two split loops commute** when neither reads the other's entry: same table, or a fault
in both orders. -/
theorem trySplitList_comm {g1 g2 : Bool} {B1 B2 : Nat} {spl1 spl2 : List (Nat × Nat)}
    (hB : B1 ≠ B2) (h11 : PartsAvoid spl1 B1) (h12 : PartsAvoid spl1 B2)
    (h21 : PartsAvoid spl2 B1) (h22 : PartsAvoid spl2 B2) (P : Table R) :
    (trySplitList o g1 B1 spl1 P >>= trySplitList o g2 B2 spl2).toOption =
      (trySplitList o g2 B2 spl2 P >>= trySplitList o g1 B1 spl1).toOption := by
  apply Option.ext
  intro Q
  simp only [Option.mem_def, toOption_eq_some, trySplitList_bind_eq_ok hB h11 h21 h22,
    trySplitList_bind_eq_ok hB.symm h22 h12 h11, Function.update_comm hB]
  exact ⟨fun ⟨v1, v2, h1, h2, hQ⟩ => ⟨v2, v1, h2, h1, hQ⟩,
    fun ⟨v2, v1, h2, h1, hQ⟩ => ⟨v1, v2, h1, h2, hQ⟩⟩

/-! ## The worker's loop -/

section Scheme

variable {N : Nat} {Fits : Nat → JoinTree → Prop} {qs : List (List Nat)}
  {spl : List Nat → List (Nat × Nat)}

/-- A part of a split is no set of the size being split. -/
theorem Known.ne_bitmapOf (hS : SplitScheme N Fits qs spl) {q q' : List Nat} {b : Nat}
    (hk : Known N qs q b) (hq' : q' ∈ qs) (hlen : q'.length = q.length) : b ≠ bitmapOf q' := by
  obtain ⟨hnd', hlen', -⟩ := hS.mem q' hq'
  rcases hk with ⟨i, -, rfl⟩ | ⟨q'', hq'', rfl, hlt⟩
  · exact (bitmapOf_ne_one_shiftLeft hnd' hlen' i).symm
  · intro h
    have := length_eq_of_bitmapOf_eq (hS.mem q'' hq'').1 hnd' h
    omega

theorem partsAvoid_of_length_eq (hS : SplitScheme N Fits qs spl) {q q' : List Nat} (hq : q ∈ qs)
    (hq' : q' ∈ qs) (hlen : q'.length = q.length) : PartsAvoid (spl q) (bitmapOf q') :=
  fun lr hlr => ⟨((hS.split_parts q hq lr hlr).2.2.1.ne_bitmapOf hS hq' hlen),
    ((hS.split_parts q hq lr hlr).2.2.2.ne_bitmapOf hS hq' hlen)⟩

/-- Over a scheme's sets, every order sorted by size runs the split loops to the same table. -/
theorem toOption_foldlM_trySplitList_perm (hS : SplitScheme N Fits qs spl)
    {qs' : List (List Nat)} (hp : qs'.Perm qs)
    (hsorted : qs'.Pairwise fun a b => a.length ≤ b.length) (P : Table R) :
    (qs'.foldlM (fun P q => trySplitList o (q.length != N) (bitmapOf q) (spl q) P) P).toOption =
      (qs.foldlM (fun P q => trySplitList o (q.length != N) (bitmapOf q) (spl q) P) P).toOption := by
  refine toOption_foldlM_perm List.length hp hsorted hS.sorted (fun a ha b hb hab => ?_) P
  rw [hp.mem_iff] at ha hb
  by_cases h : a = b
  · subst h; exact fun _ => rfl
  · have hB : bitmapOf a ≠ bitmapOf b := fun he => h (List.inj_on_of_nodup_map hS.nodup ha hb he)
    exact trySplitList_comm hB (partsAvoid_of_length_eq hS ha ha rfl)
      (partsAvoid_of_length_eq hS ha hb hab.symm) (partsAvoid_of_length_eq hS hb ha hab)
      (partsAvoid_of_length_eq hS hb hb rfl)

end Scheme

/-- The split loop over any size-sorted permutation of the admissible sets, against the model's
sort. -/
theorem splitLoop_iff_of_perm {N : Nat} {Fits : Nat → JoinTree → Prop}
    {spl : List Nat → List (Nat × Nat)} {joinRes sorted : List (List Nat)}
    (hS : SplitScheme N Fits (splitSets joinRes) spl) (hp : sorted.Perm joinRes)
    (hsorted : sorted.Pairwise fun a b => a.length ≤ b.length) (P Q : Table R) :
    splitLoop (fun q P => trySplitList o (q.length != N) (bitmapOf q) (spl q) P) sorted P = .ok Q ↔
      splitLoop (fun q P => trySplitList o (q.length != N) (bitmapOf q) (spl q) P)
        (sortBySize joinRes) P = .ok Q := by
  rw [splitLoop_eq_foldlM, splitLoop_eq_foldlM, ← toOption_eq_some, ← toOption_eq_some]
  rw [toOption_foldlM_trySplitList_perm hS
    ((hp.trans (List.perm_insertionSort _ joinRes).symm).filter _)
    (hsorted.sublist (List.filter_sublist _)) P]
  rfl

/-- **`list_qsort`'s order among sets of one size does not matter.** For any oracle, and every
order of the admissible sets sorted by size (every order `list_qsort(join_res, ptr_less)` can
leave them in), the split loop of the left-deep worker (`N` even) and of the bushy worker (`N` a
multiple of 3) returns the table `workerTable` computes, and faults exactly when it faults. -/
theorem splitLoop_sorted_perm (o : Oracle R C) (N p W : Nat) (rels : List R)
    (sorted : List (List Nat)) (P : Table R)
    (hsorted : sorted.Pairwise fun a b => a.length ≤ b.length) :
    (2 ∣ N → sorted.Perm (admJoinResults N (partConstraints N p W)) →
      (splitLoop (fun q P => trySplits o q (partConstraints N p W) P N) sorted
        (seedTable N rels) = .ok P ↔ workerTable o .leftDeep N p W rels = .ok P)) ∧
    (3 ∣ N → sorted.Perm (admJoinResultsB N (partConstraintsB N p W)) →
      (splitLoop (fun q P => trySplitsB o q (partConstraintsB N p W) P N) sorted
        (seedTable N rels) = .ok P ↔ workerTable o .bushy N p W rels = .ok P)) :=
  ⟨fun hN hp => splitLoop_iff_of_perm (splitScheme_leftDeep p W hN) hp hsorted _ P,
    fun hN hp => splitLoop_iff_of_perm (splitScheme_bushy p W hN) hp hsorted _ P⟩

/-- Two relations: the order `[{1}, {0}, {0, 1}]` leaves the same table as the model's sort. -/
theorem splitLoop_sorted_perm_two :
    ∃ P, workerTable sumOracle .leftDeep 2 0 1 [([0], 0), ([1], 0)] = .ok P ∧
      [[1], [0], [0, 1]].Perm (admJoinResults 2 (partConstraints 2 0 1)) ∧
      (splitLoop (fun q P => trySplits sumOracle q (partConstraints 2 0 1) P 2) [[1], [0], [0, 1]]
        (seedTable 2 [([0], 0), ([1], 0)]) = .ok P ↔
        workerTable sumOracle .leftDeep 2 0 1 [([0], 0), ([1], 0)] = .ok P) :=
  ⟨_, rfl, by decide, (splitLoop_sorted_perm sumOracle 2 0 1 _ _ _ (by decide)).1 (by decide)
    (by decide)⟩

end ParallelJoin
