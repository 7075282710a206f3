import ParallelJoin.Worker

/-!
# The splits of `try_splits_b`

`try_splits_b` (`parallel_worker.c:353-575`) builds, for each group `(3i, 3i + 1, 3i + 2)`, a
list `Spower` of nonempty subsets of its members present in `sub_rels`, folds
`cartesian_product` over the groups into `A`, and splits `bitmap` into `(bitmapl,
bitmap - bitmapl)` for each `L` of `A` but the empty and the full one.

The `Spower` case tree is read through bit patterns: `spower_eq` writes it as the list of
patterns `spowerPat` mapped to their lists, and `mem_spowerPat_iff` decides the patterns once
for all 128 cases of presence and membership.

Results:
* `spower_allowed_iff`: a subset of one group is empty or in its `Spower` iff it holds only
  present members and, when the group is constrained by `(a, b, c)`, neither it nor the rest
  of the present members meets the group in exactly `{b, c}`.
* `mem_bushySplits`: the splits of a set `S` are exactly the pairs `(L, S \ L)` of nonempty
  proper parts of `S` with both parts admissible.
-/

namespace ParallelJoin

/-! ## `Spower` as bit patterns -/

/-- `spower` on the bit patterns `(q1 ∈ T, q2 ∈ T, q3 ∈ T)` of its lists. -/
def spowerPat (constrained p1 p2 p3 : Bool) : List (Bool × Bool × Bool) :=
  if p3 then
    (false, false, true) :: (if p2 then
      (false, true, false) :: ((if constrained then [] else [(false, true, true)]) ++
        if p1 then (if constrained then [] else [(true, false, false)]) ++
          [(true, true, false), (true, false, true), (true, true, true)]
        else [])
    else if p1 then [(true, false, false), (true, false, true)] else [])
  else if p2 then (false, true, false) :: (if p1 then [(true, true, false), (true, false, false)] else [])
  else if p1 then [(true, false, false)] else []

/-- The list of pattern `a`: the members of `(q1, q2, q3)` it selects, in order. -/
def patList (q1 q2 q3 : Nat) (a : Bool × Bool × Bool) : List Nat :=
  (if a.1 then [q1] else []) ++ (if a.2.1 then [q2] else []) ++ (if a.2.2 then [q3] else [])

theorem spower_eq (c : Bool) (present : Nat → Bool) (q1 q2 q3 : Nat) :
    spower c present q1 q2 q3 =
      (spowerPat c (present q1) (present q2) (present q3)).map (patList q1 q2 q3) := by
  unfold spower spowerPat
  cases c <;> cases present q1 <;> cases present q2 <;> cases present q3 <;> rfl

/-- The patterns of `Spower`, with the empty one, are those of present members and, when
constrained, with neither the pattern nor the rest of the present members equal to
`{q2, q3}`; for a constrained group, the present members are not `{q2, q3}` themselves. -/
theorem mem_spowerPat_iff {c p1 p2 p3 : Bool} (hp : c → ¬(p2 ∧ p3 ∧ ¬p1)) (a1 a2 a3 : Bool) :
    ((a1, a2, a3) = (false, false, false) ∨ (a1, a2, a3) ∈ spowerPat c p1 p2 p3) ↔
      ((a1 → p1) ∧ (a2 → p2) ∧ (a3 → p3)) ∧
      (c → ¬(a2 ∧ a3 ∧ ¬a1) ∧ ¬((p2 ∧ ¬a2) ∧ (p3 ∧ ¬a3) ∧ ¬(p1 ∧ ¬a1))) := by
  -- all 128 cases in one decision; its instance is larger than the default bound
  revert c p1 p2 p3 hp a1 a2 a3
  set_option synthInstance.maxSize 256 in decide

theorem not_mem_spowerPat (c p1 p2 p3 : Bool) : (false, false, false) ∉ spowerPat c p1 p2 p3 := by
  revert c p1 p2 p3
  decide

theorem nodup_spowerPat (c p1 p2 p3 : Bool) : (spowerPat c p1 p2 p3).Nodup := by
  revert c p1 p2 p3
  decide

theorem mem_patList {q1 q2 q3 x : Nat} (a : Bool × Bool × Bool) :
    x ∈ patList q1 q2 q3 a ↔ (a.1 ∧ x = q1) ∨ (a.2.1 ∧ x = q2) ∨ (a.2.2 ∧ x = q3) := by
  obtain ⟨a1, a2, a3⟩ := a
  cases a1 <;> cases a2 <;> cases a3 <;> simp [patList]

section Group

variable {q1 q2 q3 : Nat} (h12 : q1 ≠ q2) (h13 : q1 ≠ q3) (h23 : q2 ≠ q3)
include h12 h13 h23

theorem nodup_patList (a : Bool × Bool × Bool) : (patList q1 q2 q3 a).Nodup := by
  obtain ⟨a1, a2, a3⟩ := a
  cases a1 <;> cases a2 <;> cases a3 <;> simp [patList, h12, h13, h23]

/-- A subset of the group is the set of one pattern: its membership bits. -/
theorem toFinset_patList_eq_iff {X : Finset Nat} (hX : ∀ x ∈ X, x = q1 ∨ x = q2 ∨ x = q3)
    (a : Bool × Bool × Bool) : (patList q1 q2 q3 a).toFinset = X ↔
      a = (decide (q1 ∈ X), decide (q2 ∈ X), decide (q3 ∈ X)) := by
  rw [toFinset_eq_iff_of_subset [q1, q2, q3] _
    (fun x hx => by rcases (mem_patList a).mp hx with ⟨-, rfl⟩ | ⟨-, rfl⟩ | ⟨-, rfl⟩ <;> simp)
    fun x hx => by rcases hX x hx with rfl | rfl | rfl <;> simp]
  obtain ⟨a1, a2, a3⟩ := a
  simp only [List.mem_cons, List.mem_singleton, List.not_mem_nil, or_false, forall_eq_or_imp,
    forall_eq, mem_patList, Prod.mk.injEq]
  cases a1 <;> cases a2 <;> cases a3 <;> simp [h12, h13, h23, h12.symm, h13.symm, h23.symm]

/-- Distinct patterns list distinct sets. -/
theorem patList_toFinset_injective : Function.Injective fun a => (patList q1 q2 q3 a).toFinset := by
  intro a a' h
  have hX : ∀ x ∈ (patList q1 q2 q3 a').toFinset, x = q1 ∨ x = q2 ∨ x = q3 := fun x hx => by
    rcases (mem_patList a').mp (List.mem_toFinset.mp hx) with ⟨-, rfl⟩ | ⟨-, rfl⟩ | ⟨-, rfl⟩ <;> simp
  exact ((toFinset_patList_eq_iff h12 h13 h23 hX a).mp h).trans
    ((toFinset_patList_eq_iff h12 h13 h23 hX a').mp rfl).symm

/-- `Spower` lists each of its sets once. -/
theorem nodup_spower (c : Bool) (present : Nat → Bool) :
    ((spower c present q1 q2 q3).map List.toFinset).Nodup := by
  rw [spower_eq, List.map_map]
  exact (nodup_spowerPat c _ _ _).map (patList_toFinset_injective h12 h13 h23)

/-- **One group of `try_splits_b`**: a subset `X` of `{q1, q2, q3}` is empty or a set of its
`Spower` iff its members are present and, for a constrained group, neither `X` nor the present
members outside `X` are exactly `{q2, q3}`. -/
theorem spower_allowed_iff {c : Bool} {present : Nat → Bool}
    (hp : c → ¬(present q2 ∧ present q3 ∧ ¬present q1)) {X : Finset Nat}
    (hX : ∀ x ∈ X, x = q1 ∨ x = q2 ∨ x = q3) :
    (X = ∅ ∨ ∃ T ∈ spower c present q1 q2 q3, T.toFinset = X) ↔
      ((q1 ∈ X → present q1) ∧ (q2 ∈ X → present q2) ∧ (q3 ∈ X → present q3)) ∧
      (c → ¬(q2 ∈ X ∧ q3 ∈ X ∧ q1 ∉ X) ∧
        ¬((present q2 ∧ q2 ∉ X) ∧ (present q3 ∧ q3 ∉ X) ∧ ¬(present q1 ∧ q1 ∉ X))) := by
  have hempty : X = ∅ ↔ (decide (q1 ∈ X), decide (q2 ∈ X), decide (q3 ∈ X)) = (false, false, false) := by
    have := toFinset_patList_eq_iff h12 h13 h23 hX (false, false, false)
    simpa [patList, eq_comm] using this
  rw [spower_eq, hempty]
  simp only [List.mem_map, exists_exists_and_eq_and, toFinset_patList_eq_iff h12 h13 h23 hX,
    exists_eq_right, mem_spowerPat_iff hp, decide_eq_true_eq]

end Group

/-! ## The splits of one set -/

/-- Admissibility under bushy constraints, read on the bits of a bitmap. -/
def AdmissibleBits (cs : List (Nat × Nat × Nat)) (B : Nat) : Prop :=
  ∀ c ∈ cs, B.testBit c.2.1 → B.testBit c.2.2 → B.testBit c.1

theorem admissibleBits_bitmapOf {cs : List (Nat × Nat × Nat)} {xs : List Nat} :
    AdmissibleBits cs (bitmapOf xs) ↔ AdmissibleB cs xs.toFinset := by
  simp [AdmissibleBits, AdmissibleB]

theorem partTriple_cases (p i : Nat) :
    partTriple p i = (3 * i, 3 * i + 1, 3 * i + 2) ∨ partTriple p i = (3 * i + 1, 3 * i, 3 * i + 2) := by
  rw [partTriple_eq]; split
  · exact .inr rfl
  · exact .inl rfl

theorem groupSpower_partConstraintsB (present : Nat → Bool) (N p W i : Nat) :
    groupSpower present (partConstraintsB N p W) i =
      if i < Nat.clog 2 W then
        spower true present (partTriple p i).1 (partTriple p i).2.1 (partTriple p i).2.2
      else spower false present (3 * i) (3 * i + 1) (3 * i + 2) := by
  rw [groupSpower, partConstraintsB, workerBits_eq, List.getElem?_map]
  split_ifs with h
  · rw [List.getElem?_range h]; rfl
  · rw [List.getElem?_eq_none (by simpa using h)]; rfl

/-- The group of `x` is `{a, b, c}`. -/
def InGroup (i a b c : Nat) : Prop := ∀ x, x / 3 = i ↔ x = a ∨ x = b ∨ x = c

theorem inGroup_of_cases {i a b c : Nat}
    (h : (a, b, c) = (3 * i, 3 * i + 1, 3 * i + 2) ∨ (a, b, c) = (3 * i + 1, 3 * i, 3 * i + 2)) :
    InGroup i a b c ∧ a ≠ b ∧ a ≠ c ∧ b ≠ c := by
  rcases h with h | h <;> simp only [Prod.mk.injEq] at h <;> obtain ⟨rfl, rfl, rfl⟩ := h <;>
    exact ⟨fun x => by omega, by omega, by omega, by omega⟩

/-- **One group of the splits**: the part of `l` in group `i` is allowed iff its members are in
`S` and, for a constrained group, neither `l` nor `S \ l` meets the group in `{b, c}`. -/
theorem group_allowed_iff {n S l i a b c : Nat} {present : Nat → Bool} {constrained : Bool}
    (hpres : ∀ x, present x = S.testBit x) (hl : l < 2 ^ n) (hi : 3 * i + 2 < n)
    (hG : InGroup i a b c) (hab : a ≠ b) (hac : a ≠ c) (hbc : b ≠ c)
    (hS : constrained → S.testBit b → S.testBit c → S.testBit a) :
    (slice (· / 3) (bitsBelow n l) i = ∅ ∨
        ∃ T ∈ spower constrained present a b c, T.toFinset = slice (· / 3) (bitsBelow n l) i) ↔
      (∀ x, x / 3 = i → l.testBit x → S.testBit x) ∧
      (constrained → ¬(l.testBit b ∧ l.testBit c ∧ ¬l.testBit a) ∧
        ¬((andNot S l).testBit b ∧ (andNot S l).testBit c ∧ ¬(andNot S l).testBit a)) := by
  have hmem : ∀ x, x ∈ slice (· / 3) (bitsBelow n l) i ↔ x / 3 = i ∧ l.testBit x := fun x => by
    rw [slice, Finset.mem_filter, mem_bitsBelow hl, and_comm]
  have hlt : ∀ x, x / 3 = i → x < n := fun x hx => by omega
  rw [spower_allowed_iff hab hac hbc (fun h => by simpa [hpres] using hS h)
    fun x hx => (hG x).mp ((hmem x).mp hx).1]
  simp only [hmem, hpres, testBit_andNot, Bool.and_eq_true, Bool.not_eq_true', ne_eq,
    Bool.not_eq_false]
  have ha := (hG a).mpr (.inl rfl)
  have hb := (hG b).mpr (.inr (.inl rfl))
  have hc := (hG c).mpr (.inr (.inr rfl))
  simp only [ha, hb, hc, true_and, Bool.not_eq_true]
  refine and_congr_left' ⟨fun h x hx => ?_, fun h => ⟨h a ha, h b hb, h c hc⟩⟩
  rcases (hG x).mp hx with rfl | rfl | rfl
  exacts [h.1, h.2.1, h.2.2]

theorem familyIn_groupSpower (present : Nat → Bool) (N p W k : Nat) :
    FamilyIn (· / 3) (groupSpower present (partConstraintsB N p W)) k := by
  intro i _ T hT
  rw [groupSpower_partConstraintsB] at hT
  have key : ∀ {c a b d}, (a, b, d) = (3 * i, 3 * i + 1, 3 * i + 2) ∨
      (a, b, d) = (3 * i + 1, 3 * i, 3 * i + 2) → T ∈ spower c present a b d →
        T ≠ [] ∧ T.Nodup ∧ ∀ x ∈ T, x / 3 = i := fun hcase hT => by
    obtain ⟨hG, hab, had, hbd⟩ := inGroup_of_cases hcase
    rw [spower_eq, List.mem_map] at hT
    obtain ⟨pat, hpat, rfl⟩ := hT
    refine ⟨fun h => ?_, nodup_patList hab had hbd pat, fun x hx => (hG x).mpr ?_⟩
    · obtain ⟨a1, a2, a3⟩ := pat
      cases a1 <;> cases a2 <;> cases a3 <;> simp [patList] at h
      exact not_mem_spowerPat _ _ _ _ hpat
    · rcases (mem_patList pat).mp hx with ⟨-, rfl⟩ | ⟨-, rfl⟩ | ⟨-, rfl⟩ <;> simp
  split_ifs at hT
  · exact key (partTriple_cases p i) hT
  · exact key (.inl rfl) hT

theorem familyNodup_groupSpower (present : Nat → Bool) (N p W k : Nat) :
    FamilyNodup (groupSpower present (partConstraintsB N p W)) k := by
  intro i _
  rw [groupSpower_partConstraintsB]
  split_ifs
  · obtain ⟨-, hab, had, hbd⟩ := inGroup_of_cases (show ((partTriple p i).1,
      (partTriple p i).2.1, (partTriple p i).2.2) = _ ∨ _ from partTriple_cases p i)
    exact nodup_spower hab had hbd _ _
  · obtain ⟨-, hab, had, hbd⟩ := inGroup_of_cases
      (show (3 * i, 3 * i + 1, 3 * i + 2) = (3 * i, 3 * i + 1, 3 * i + 2) ∨ _ from .inl rfl)
    exact nodup_spower hab had hbd _ _

/-- Admissibility of a bitmap below `2^n`, for `n` a multiple of 3, is decided group by group:
a constraint past the groups names no ordinal below `n`. -/
theorem admissibleBits_iff_groups {n p W B : Nat} (hn : 3 ∣ n) (hB : B < 2 ^ n) :
    AdmissibleBits (partConstraintsB n p W) B ↔ ∀ i < n / 3, i < Nat.clog 2 W →
      ¬(B.testBit (partTriple p i).2.1 ∧ B.testBit (partTriple p i).2.2 ∧
        ¬B.testBit (partTriple p i).1) := by
  simp only [AdmissibleBits, mem_partConstraintsB, forall_exists_index, and_imp]
  constructor
  · rintro h i - hi ⟨h1, h2, h3⟩
    exact h3 (h _ i hi rfl h1 h2)
  · rintro h _ i hi rfl h1 h2
    by_cases hin : i < n / 3
    · by_contra h3
      exact h i hin hi ⟨h1, h2, h3⟩
    · have : n ≤ (partTriple p i).2.2 := by
        rcases partTriple_cases p i with ht | ht <;> rw [ht] <;> dsimp only <;> omega
      simp [testBit_eq_false_of_le hB this] at h2

/-- The filter of `A`: `(l, r)` is a split iff `l` is the bitmap of a member of `A` other than
`0` and `bitmap`, and `r = bitmap - l`. -/
theorem mem_bushySplits_iff_product {q : List Nat} {cs : List (Nat × Nat × Nat)} {n l r : Nat} :
    (l, r) ∈ bushySplits q cs n ↔
      l ∈ (groupProduct (groupSpower (q.contains ·) cs) (n / 3)).map bitmapOf ∧
        l ≠ 0 ∧ l ≠ bitmapOf q ∧ r = bitmapOf q - l := by
  simp only [bushySplits, List.mem_filterMap, List.mem_map]
  constructor
  · rintro ⟨L, hL, h⟩
    split at h
    · cases h
    · obtain ⟨rfl, rfl⟩ := Prod.mk.inj (Option.some.inj h)
      rename_i hc
      simp only [Bool.or_eq_true, beq_iff_eq, not_or] at hc
      exact ⟨⟨L, hL, rfl⟩, hc.1, hc.2, rfl⟩
  · rintro ⟨⟨L, hL, rfl⟩, h0, hS', rfl⟩
    exact ⟨L, hL, by simp [h0, hS']⟩

/-- **`try_splits_b` tries each split once**: the product's bitmaps are distinct, and a split
is named by its left part. -/
theorem nodup_bushySplits (q : List Nat) (n p W : Nat) :
    (bushySplits q (partConstraintsB n p W) n).Nodup := by
  have hnd := nodup_map_bitmapOf (nodup_groupProduct (familyIn_groupSpower (q.contains ·) n p W (n / 3))
    (familyNodup_groupSpower (q.contains ·) n p W (n / 3)))
  have heq : bushySplits q (partConstraintsB n p W) n =
      ((groupProduct (groupSpower (q.contains ·) (partConstraintsB n p W)) (n / 3)).map
        bitmapOf).filterMap fun B => if B == 0 || B == bitmapOf q then none
          else some (B, bitmapOf q - B) := by
    rw [List.filterMap_map]; rfl
  rw [heq]
  refine hnd.filterMap fun B B' lr h h' => ?_
  simp only [Option.mem_def] at h h'
  split at h <;> split at h' <;> simp only [reduceCtorEq, Option.some.injEq] at h h'
  rw [← h'] at h
  exact (Prod.mk.inj h).1

/-- **One group of the splits** under `part_constraints_b`: the part of `l` in group `i` is
allowed iff its members are in `S` and, for a constrained group, neither `l` nor `S \ l`
meets the group in `{b, c}` without `a`. -/
theorem group_allowed_partConstraintsB_iff {n p W l i : Nat} {q : List Nat}
    (hS : AdmissibleBits (partConstraintsB n p W) (bitmapOf q)) (hl : l < 2 ^ n) (hi : i < n / 3) :
    (slice (· / 3) (bitsBelow n l) i = ∅ ∨
      ∃ T ∈ groupSpower (q.contains ·) (partConstraintsB n p W) i,
        T.toFinset = slice (· / 3) (bitsBelow n l) i) ↔
      (∀ x, x / 3 = i → l.testBit x → (bitmapOf q).testBit x) ∧
      (i < Nat.clog 2 W →
        ¬(l.testBit (partTriple p i).2.1 ∧ l.testBit (partTriple p i).2.2 ∧
          ¬l.testBit (partTriple p i).1) ∧
        ¬((andNot (bitmapOf q) l).testBit (partTriple p i).2.1 ∧
          (andNot (bitmapOf q) l).testBit (partTriple p i).2.2 ∧
            ¬(andNot (bitmapOf q) l).testBit (partTriple p i).1)) := by
  have hpres : ∀ x, q.contains x = (bitmapOf q).testBit x := fun x => by simp
  have hi' : 3 * i + 2 < n := by omega
  rw [groupSpower_partConstraintsB]
  split_ifs with hc
  · obtain ⟨hG, hab, had, hbd⟩ := inGroup_of_cases (show ((partTriple p i).1,
      (partTriple p i).2.1, (partTriple p i).2.2) = _ ∨ _ from partTriple_cases p i)
    rw [group_allowed_iff hpres hl hi' hG hab had hbd
      fun _ => hS _ (mem_partConstraintsB.mpr ⟨i, hc, rfl⟩)]
    simp [hc]
  · obtain ⟨hG, hab, had, hbd⟩ := inGroup_of_cases
      (show (3 * i, 3 * i + 1, 3 * i + 2) = (3 * i, 3 * i + 1, 3 * i + 2) ∨ _ from .inl rfl)
    rw [group_allowed_iff hpres hl hi' hG hab had hbd fun h => absurd h Bool.false_ne_true]
    simp [hc]

/-- **The splits of `try_splits_b`**: for an admissible set `S` of ordinals below `n`, they
are exactly the pairs `(L, S \ L)` of a nonempty proper part `L` of `S` such that `L` and
`S \ L` are admissible. -/
theorem mem_bushySplits {n p W : Nat} (hn : 3 ∣ n) {q : List Nat} (hqN : ∀ x ∈ q, x < n)
    (hS : AdmissibleBits (partConstraintsB n p W) (bitmapOf q)) (l r : Nat) :
    (l, r) ∈ bushySplits q (partConstraintsB n p W) n ↔
      0 < l ∧ l ≠ bitmapOf q ∧ SubBits l (bitmapOf q) ∧ r = andNot (bitmapOf q) l ∧
        AdmissibleBits (partConstraintsB n p W) l ∧
        AdmissibleBits (partConstraintsB n p W) (andNot (bitmapOf q) l) := by
  rw [mem_bushySplits_iff_product, mem_groupProduct_bitmaps (by decide) hn (familyIn_groupSpower _ n p W _)]
  have hlt : ∀ {B}, SubBits B (bitmapOf q) → B < 2 ^ n := lt_two_pow_of_subBits (bitmapOf_lt_two_pow hqN)
  have hand := subBits_andNot (bitmapOf q) l
  constructor
  · rintro ⟨⟨hpos, hl, hG⟩, -, hne, rfl⟩
    have hG' := fun i hi => (group_allowed_partConstraintsB_iff hS hl hi).mp (hG i hi)
    have hsub : SubBits l (bitmapOf q) := fun x hx => by
      have hx' : x < n := Nat.lt_of_not_le fun h => by simp [testBit_eq_false_of_le hl h] at hx
      exact (hG' (x / 3) (by omega)).1 x rfl hx
    refine ⟨hpos, hne, hsub, sub_eq_andNot hsub, ?_, ?_⟩
    · exact (admissibleBits_iff_groups hn hl).mpr fun i hi hc => ((hG' i hi).2 hc).1
    · exact (admissibleBits_iff_groups hn (hlt hand)).mpr fun i hi hc => ((hG' i hi).2 hc).2
  · rintro ⟨hpos, hne, hsub, rfl, hadm, hadm'⟩
    have hl := hlt hsub
    refine ⟨⟨hpos, hl, fun i hi => (group_allowed_partConstraintsB_iff hS hl hi).mpr
      ⟨fun x _ hx => hsub x hx, fun hc => ⟨(admissibleBits_iff_groups hn hl).mp hadm i hi hc,
        (admissibleBits_iff_groups hn (hlt hand)).mp hadm' i hi hc⟩⟩⟩,
      hpos.ne', hne, (sub_eq_andNot hsub).symm⟩

end ParallelJoin
