import ParallelJoin.Bitmap
import Mathlib.Data.Finset.Card
import Mathlib.Data.List.Nodup

/-!
# `cartesian_product` and the group-by-group products

`cartesian_product(a, b)` (`allpaths.c:250-271`) returns `b` when `a` is NIL, `a` when `b` is
NIL, and otherwise copies of `a`'s members, then of `b`'s, then `b[i] ++ a[j]` for every `i` and,
inside, every `j` (`copy_paste`, `add_ptrs` and `copy_concat_int`, `allpaths.c:223-247`, are list
copies and concatenations). Read as sets, the members are `x`, `y` and `x ∪ y` for `x` of `a`
and `y` of `b`.

`adm_join_results`, `adm_join_results_b` and the split enumeration of `try_splits_b` all fold
`cartesian_product` over ordinal groups, from NIL, one family of subsets per group
(`groupProduct`). When group `i`'s family holds nonempty subsets of group `i` (the ordinals `x`
with `g x = i`), the fold yields every nonempty set whose slice on each group is empty or a
member of that group's family, each once.

Results:
* `mem_cartesianProduct`: the members of a product, including the NIL short-cuts.
* `cartesianProduct_sets`: for families of nonempty, duplicate-free lists, each family's
  members distinct as sets and the two families on disjoint ordinals, the members read as sets
  are the nonempty unions `x ∪ y`, each once, `|a| + |b| + |a||b|` of them, each listing its
  ordinals once. Distinct lists of one set break the "once" (`cartesianProduct_two_orders`).
* `exists_mem_groupProduct_iff`: which sets the group product yields.
* `nodup_groupProduct`: it yields each of them once.
* `groupProduct_bitmaps`: both, for the bitmaps of a product over `{0, …, N - 1}`.
-/

namespace ParallelJoin

/-- `cartesian_product(a, b)`: `a`'s members, `b`'s, then `b[i] ++ a[j]` (`copy_concat_int`). -/
def cartesianProduct : List (List Nat) → List (List Nat) → List (List Nat)
  | [], b => b
  | a, [] => a
  | a, b => a ++ b ++ b.flatMap fun y => a.map fun x => y ++ x

theorem mem_cartesianProduct {a b : List (List Nat)} {m : List Nat} :
    m ∈ cartesianProduct a b ↔ m ∈ a ∨ m ∈ b ∨ ∃ y ∈ b, ∃ x ∈ a, m = y ++ x := by
  match a, b with
  | [], b => simp [cartesianProduct]
  | _ :: _, [] => simp [cartesianProduct]
  | _ :: _, _ :: _ =>
    simp only [cartesianProduct, List.mem_append, List.mem_flatMap, List.mem_map, or_assoc]
    simp only [@eq_comm _ m]

theorem bitmapOf_eq_iff_toFinset {xs ys : List Nat} :
    bitmapOf xs = bitmapOf ys ↔ xs.toFinset = ys.toFinset := by
  rw [bitmapOf_eq_iff, Finset.ext_iff]
  simp

/-- `acc = cartesian_product(acc, fam i)` for `i = 0, …, k - 1`, from NIL. -/
def groupProduct (fam : Nat → List (List Nat)) (k : Nat) : List (List Nat) :=
  (List.range k).foldl (fun acc i => cartesianProduct acc (fam i)) []

theorem groupProduct_succ (fam : Nat → List (List Nat)) (k : Nat) :
    groupProduct fam (k + 1) = cartesianProduct (groupProduct fam k) (fam k) := by
  simp [groupProduct, List.range_succ, List.foldl_append]

/-- A property of every member of every list of the family holds of every member of the
product. -/
theorem forall_mem_groupProduct {P : Nat → Prop} {fam : Nat → List (List Nat)}
    (h : ∀ i, ∀ T ∈ fam i, ∀ x ∈ T, P x) : ∀ {k : Nat}, ∀ m ∈ groupProduct fam k, ∀ x ∈ m, P x
  | 0, m, hm, _, _ => by simp [groupProduct] at hm
  | k + 1, m, hm, x, hx => by
    rw [groupProduct_succ, mem_cartesianProduct] at hm
    rcases hm with hm | hm | ⟨y, hy, z, hz, rfl⟩
    · exact forall_mem_groupProduct h m hm x hx
    · exact h k m hm x hx
    · rcases List.mem_append.mp hx with hx | hx
      exacts [h k y hy x hx, forall_mem_groupProduct h z hz x hx]

theorem cartesianProduct_nil_right (a : List (List Nat)) : cartesianProduct a [] = a := by
  cases a <;> rfl

theorem cartesianProduct_of_ne_nil {a b : List (List Nat)} (ha : a ≠ []) (hb : b ≠ []) :
    cartesianProduct a b = a ++ b ++ b.flatMap fun y => a.map fun x => y ++ x := by
  match a, b, ha, hb with
  | _ :: _, _ :: _, _, _ => rfl

/-- `|a| + |b| + |a||b|` members; with `a` or `b` NIL this is the other's length. -/
theorem length_cartesianProduct (a b : List (List Nat)) :
    (cartesianProduct a b).length = a.length + b.length + a.length * b.length := by
  rcases eq_or_ne a [] with rfl | ha
  · simp [cartesianProduct]
  rcases eq_or_ne b [] with rfl | hb
  · simp [cartesianProduct_nil_right]
  have hfm : ∀ b' : List (List Nat),
      (b'.flatMap fun y => a.map fun x => y ++ x).length = a.length * b'.length := by
    intro b'
    induction b' with
    | nil => rfl
    | cons y b' ih => rw [List.flatMap_cons, List.length_append, ih, List.length_map,
        List.length_cons, Nat.mul_succ, Nat.add_comm]
  rw [cartesianProduct_of_ne_nil ha hb, List.length_append, List.length_append, hfm]

section Groups

variable (g : Nat → Nat) (fam : Nat → List (List Nat)) (k : Nat)

/-- Group `i`'s family holds nonempty subsets of group `i`, each listing its ordinals once. -/
def FamilyIn : Prop := ∀ i < k, ∀ T ∈ fam i, T ≠ [] ∧ T.Nodup ∧ ∀ x ∈ T, g x = i

/-- Each group's family yields each of its sets once. -/
def FamilyNodup : Prop := ∀ i < k, ((fam i).map List.toFinset).Nodup

/-- The ordinals of `s` in group `i`. -/
def slice (s : Finset Nat) (i : Nat) : Finset Nat := s.filter (g · = i)

/-- The ordinals of `s` below group `k`. -/
def low (s : Finset Nat) : Finset Nat := s.filter (g · < k)

/-- The sets the product of the first `k` groups yields, nonemptiness apart: each ordinal in one
of the groups, each slice empty or a member of its group's family. -/
def Admits (s : Finset Nat) : Prop :=
  (∀ x ∈ s, g x < k) ∧ ∀ i < k, slice g s i = ∅ ∨ ∃ T ∈ fam i, T.toFinset = slice g s i

/-- The group-`k` slice and the part below group `k`. -/
def parts (s : Finset Nat) : Finset Nat × Finset Nat := (slice g s k, low g k s)

variable {g fam k}

theorem FamilyIn.mono (h : FamilyIn g fam (k + 1)) : FamilyIn g fam k :=
  fun i hi => h i (by omega)

/-- Every member of the product is a nonempty list of distinct ordinals of the first `k`
groups. -/
theorem mem_groupProduct (h : FamilyIn g fam k) {m : List Nat} (hm : m ∈ groupProduct fam k) :
    m ≠ [] ∧ m.Nodup ∧ ∀ x ∈ m, g x < k := by
  induction k generalizing m with
  | zero => simp [groupProduct] at hm
  | succ k ih =>
    rw [groupProduct_succ, mem_cartesianProduct] at hm
    rcases hm with hA | hF | ⟨y, hy, x, hx, rfl⟩
    · obtain ⟨hne, hnd, hlt⟩ := ih h.mono hA
      exact ⟨hne, hnd, fun z hz => by have := hlt z hz; omega⟩
    · obtain ⟨hne, hnd, hg⟩ := h k (by omega) m hF
      exact ⟨hne, hnd, fun z hz => by rw [hg z hz]; omega⟩
    · obtain ⟨hne, hnd, hg⟩ := h k (by omega) y hy
      obtain ⟨-, hndx, hlt⟩ := ih h.mono hx
      refine ⟨by simp [hne], List.nodup_append.mpr ⟨hnd, hndx, fun z hzy hzx => ?_⟩,
        fun z hz => ?_⟩
      · have := hlt z hzx; rw [hg z hzy] at this; omega
      · rcases List.mem_append.mp hz with hz | hz
        · rw [hg z hz]; omega
        · have := hlt z hz; omega

theorem slice_union (s t : Finset Nat) (i : Nat) :
    slice g (s ∪ t) i = slice g s i ∪ slice g t i :=
  Finset.filter_union _ _ _

theorem slice_eq_empty {s : Finset Nat} {i : Nat} (h : ∀ z ∈ s, g z ≠ i) : slice g s i = ∅ :=
  Finset.filter_eq_empty_iff.mpr h

theorem slice_eq_self {s : Finset Nat} {i : Nat} (h : ∀ z ∈ s, g z = i) : slice g s i = s :=
  Finset.filter_true_of_mem h

theorem slice_low {s : Finset Nat} {i : Nat} (hi : i < k) : slice g (low g k s) i = slice g s i := by
  ext z
  simp only [slice, low, Finset.mem_filter]
  exact ⟨fun h => ⟨h.1.1, h.2⟩, fun h => ⟨⟨h.1, h.2 ▸ hi⟩, h.2⟩⟩

theorem Admits.low {s : Finset Nat} (h : Admits g fam (k + 1) s) : Admits g fam k (low g k s) :=
  ⟨fun _ hz => (Finset.mem_filter.mp hz).2, fun i hi => by rw [slice_low hi]; exact h.2 i (by omega)⟩

theorem slice_union_low {s : Finset Nat} (h : ∀ z ∈ s, g z < k + 1) :
    slice g s k ∪ low g k s = s := by
  ext z
  simp only [slice, low, Finset.mem_union, Finset.mem_filter]
  refine ⟨fun h => h.elim And.left And.left, fun hz => ?_⟩
  by_cases hk : g z = k
  · exact .inl ⟨hz, hk⟩
  · exact .inr ⟨hz, by have := h z hz; omega⟩

/-- **The sets of the group product**: a set is (the ordinals of) a member iff it is nonempty,
lies in the first `k` groups, and each of its slices is empty or a member of its group's
family. -/
theorem exists_mem_groupProduct_iff (h : FamilyIn g fam k) (s : Finset Nat) :
    (∃ m ∈ groupProduct fam k, m.toFinset = s) ↔ s.Nonempty ∧ Admits g fam k s := by
  induction k generalizing s with
  | zero =>
    constructor
    · rintro ⟨m, hm, -⟩; simp [groupProduct] at hm
    · rintro ⟨⟨x, hx⟩, hlt, -⟩; exact absurd (hlt x hx) (Nat.not_lt_zero _)
  | succ k ih =>
    -- the members of group `k`'s family lie in group `k`
    have hgk : ∀ y ∈ fam k, y ≠ [] ∧ ∀ z ∈ y.toFinset, g z = k := fun y hy =>
      have hk := h k (by omega) y hy
      ⟨hk.1, fun z hz => hk.2.2 z (List.mem_toFinset.mp hz)⟩
    simp only [groupProduct_succ, mem_cartesianProduct]
    constructor
    · rintro ⟨m, hA | hF | ⟨y, hy, x, hx, rfl⟩, rfl⟩
      · obtain ⟨hne, hlt, hsl⟩ := (ih h.mono _).mp ⟨m, hA, rfl⟩
        refine ⟨hne, fun z hz => by have := hlt z hz; omega, fun i hi => ?_⟩
        rcases Nat.lt_succ_iff_lt_or_eq.mp hi with hi | rfl
        · exact hsl i hi
        · exact .inl (slice_eq_empty fun z hz => by have := hlt z hz; omega)
      · obtain ⟨hne, hg'⟩ := hgk m hF
        refine ⟨(List.toFinset_nonempty_iff m).mpr hne, fun z hz => by rw [hg' z hz]; omega,
          fun i hi => ?_⟩
        rcases Nat.lt_succ_iff_lt_or_eq.mp hi with hi | rfl
        · exact .inl (slice_eq_empty fun z hz => by rw [hg' z hz]; omega)
        · exact .inr ⟨m, hF, (slice_eq_self hg').symm⟩
      · obtain ⟨hne, hg'⟩ := hgk y hy
        obtain ⟨-, hlt, hsl⟩ := (ih h.mono _).mp ⟨x, hx, rfl⟩
        rw [List.toFinset_append]
        refine ⟨((List.toFinset_nonempty_iff y).mpr hne).mono Finset.subset_union_left,
          fun z hz => ?_, fun i hi => ?_⟩
        · rcases Finset.mem_union.mp hz with hz | hz
          · rw [hg' z hz]; omega
          · have := hlt z hz; omega
        · rw [slice_union]
          rcases Nat.lt_succ_iff_lt_or_eq.mp hi with hi | rfl
          · rw [slice_eq_empty fun z hz => by rw [hg' z hz]; omega, Finset.empty_union]
            exact hsl i hi
          · rw [slice_eq_self hg', slice_eq_empty fun z hz => by have := hlt z hz; omega,
              Finset.union_empty]
            exact .inr ⟨y, hy, rfl⟩
    · rintro ⟨hne, hs⟩
      have hsplit := slice_union_low hs.1
      by_cases hF : slice g s k = ∅
      · rw [hF, Finset.empty_union] at hsplit
        obtain ⟨m, hm, rfl⟩ := (ih h.mono s).mpr ⟨hne, hsplit ▸ hs.low⟩
        exact ⟨m, .inl hm, rfl⟩
      obtain ⟨T, hT, hTs⟩ := (hs.2 k (by omega)).resolve_left hF
      by_cases hA : low g k s = ∅
      · rw [hA, Finset.union_empty] at hsplit
        exact ⟨T, .inr (.inl hT), hTs.trans hsplit⟩
      obtain ⟨x, hx, hxs⟩ := (ih h.mono _).mpr ⟨Finset.nonempty_iff_ne_empty.mpr hA, hs.low⟩
      exact ⟨T ++ x, .inr (.inr ⟨T, hT, x, hx, rfl⟩), by
        rw [List.toFinset_append, hTs, hxs, hsplit]⟩

theorem parts_of_lt {x : List Nat} (hx : ∀ z ∈ x, g z < k) :
    parts g k x.toFinset = (∅, x.toFinset) := by
  ext z <;> simp only [parts, slice, low, Finset.mem_filter, List.mem_toFinset,
    Finset.not_mem_empty, iff_false, not_and]
  · intro hz; have := hx z hz; omega
  · exact ⟨fun h => h.1, fun h => ⟨h, hx z h⟩⟩

theorem parts_of_eq {y : List Nat} (hy : ∀ z ∈ y, g z = k) :
    parts g k y.toFinset = (y.toFinset, ∅) := by
  ext z <;> simp only [parts, slice, low, Finset.mem_filter, List.mem_toFinset,
    Finset.not_mem_empty, iff_false, not_and]
  · exact ⟨fun h => h.1, fun h => ⟨h, hy z h⟩⟩
  · intro hz; rw [hy z hz]; omega

theorem parts_append {y x : List Nat} (hy : ∀ z ∈ y, g z = k) (hx : ∀ z ∈ x, g z < k) :
    parts g k (y ++ x).toFinset = (y.toFinset, x.toFinset) := by
  ext z <;> simp only [parts, slice, low, Finset.mem_filter, List.mem_toFinset, List.mem_append]
  · refine ⟨fun ⟨hz, hk⟩ => hz.resolve_right fun hz => ?_, fun hz => ⟨.inl hz, hy z hz⟩⟩
    have := hx z hz; omega
  · refine ⟨fun ⟨hz, hk⟩ => hz.resolve_left fun hz => ?_, fun hz => ⟨.inr hz, hx z hz⟩⟩
    rw [hy z hz] at hk; omega

/-- **`cartesian_product` yields each set once** when `a`'s members lie below group `k` and
`b`'s in group `k`, all nonempty, and each family yields its sets once: a member is told apart
by its group-`k` slice and the part below it. -/
theorem nodup_cartesianProduct {a b : List (List Nat)}
    (ha : ∀ x ∈ a, x ≠ [] ∧ ∀ z ∈ x, g z < k) (hb : ∀ y ∈ b, y ≠ [] ∧ ∀ z ∈ y, g z = k)
    (hna : (a.map List.toFinset).Nodup) (hnb : (b.map List.toFinset).Nodup) :
    ((cartesianProduct a b).map List.toFinset).Nodup := by
  rcases eq_or_ne a [] with rfl | ha0
  · simpa only [cartesianProduct] using hnb
  rcases eq_or_ne b [] with rfl | hb0
  · rw [cartesianProduct_nil_right]; exact hna
  rw [cartesianProduct_of_ne_nil ha0 hb0]
  simp only [List.Nodup, List.pairwise_map, List.pairwise_append, List.pairwise_flatMap,
    List.mem_append, List.mem_flatMap, List.mem_map] at hna hnb ⊢
  have ne : ∀ {s t : Finset Nat}, parts g k s ≠ parts g k t → s ≠ t := fun h e => h (e ▸ rfl)
  have nonempty : ∀ {x : List Nat}, x ≠ [] → x.toFinset ≠ ∅ := fun h e =>
    h ((List.toFinset_eq_empty_iff _).mp e)
  refine ⟨⟨hna, hnb, fun x hx y hy => ne ?_⟩, ⟨fun y hy => hna.imp_of_mem fun hx hx' hne => ne ?_,
    hnb.imp_of_mem fun hy hy' hne => ?_⟩, ?_⟩
  · rw [parts_of_lt (ha x hx).2, parts_of_eq (hb y hy).2]
    exact fun e => nonempty (hb y hy).1 (Prod.mk.inj e).1.symm
  · rw [parts_append (hb y hy).2 (ha _ hx).2, parts_append (hb y hy).2 (ha _ hx').2]
    exact fun e => hne (Prod.mk.inj e).2
  · rintro _ ⟨x, hx, rfl⟩ _ ⟨x', hx', rfl⟩
    refine ne ?_
    rw [parts_append (hb _ hy).2 (ha x hx).2, parts_append (hb _ hy').2 (ha x' hx').2]
    exact fun e => hne (Prod.mk.inj e).1
  · rintro m (hm | hm) _ ⟨y, hy, x, hx, rfl⟩ <;> refine ne ?_ <;>
      rw [parts_append (hb y hy).2 (ha x hx).2]
    · rw [parts_of_lt (ha m hm).2]
      exact fun e => nonempty (hb y hy).1 (Prod.mk.inj e).1.symm
    · rw [parts_of_eq (hb m hm).2]
      exact fun e => nonempty (ha x hx).1 (Prod.mk.inj e).2.symm

/-- **The group product yields each set once.** -/
theorem nodup_groupProduct (h : FamilyIn g fam k) (hn : FamilyNodup fam k) :
    ((groupProduct fam k).map List.toFinset).Nodup := by
  induction k with
  | zero => simp [groupProduct]
  | succ k ih =>
    rw [groupProduct_succ]
    exact nodup_cartesianProduct
      (fun x hx => ⟨(mem_groupProduct h.mono hx).1, (mem_groupProduct h.mono hx).2.2⟩)
      (fun y hy => ⟨(h k (by omega) y hy).1, (h k (by omega) y hy).2.2⟩)
      (ih h.mono fun i hi => hn i (by omega)) (hn k (by omega))

end Groups

/-- **`cartesian_product` of two families of distinct sets over disjoint ordinals**: read as
sets, its members are the nonempty unions `x ∪ y` of a member of `a` or `∅` with a member of
`b` or `∅`; each occurs once; there are `|a| + |b| + |a||b|` of them; and each lists its
ordinals once. -/
theorem cartesianProduct_sets (a b : List (List Nat))
    (ha : ∀ x ∈ a, x ≠ [] ∧ x.Nodup) (hb : ∀ y ∈ b, y ≠ [] ∧ y.Nodup)
    (hna : (a.map List.toFinset).Nodup) (hnb : (b.map List.toFinset).Nodup)
    (hab : ∀ x ∈ a, ∀ y ∈ b, ∀ z ∈ x, z ∉ y) :
    (∀ s : Finset Nat, (∃ m ∈ cartesianProduct a b, m.toFinset = s) ↔ s.Nonempty ∧
      ∃ x y : Finset Nat, (x = ∅ ∨ ∃ m ∈ a, m.toFinset = x) ∧
        (y = ∅ ∨ ∃ m ∈ b, m.toFinset = y) ∧ s = x ∪ y) ∧
    ((cartesianProduct a b).map List.toFinset).Nodup ∧
    (cartesianProduct a b).length = a.length + b.length + a.length * b.length ∧
    ∀ m ∈ cartesianProduct a b, m.Nodup := by
  -- `b`'s ordinals are group 1, `a`'s group 0
  let G : Nat → Nat := fun z => if ∃ y ∈ b, z ∈ y then 1 else 0
  have hA : ∀ x ∈ a, x ≠ [] ∧ ∀ z ∈ x, G z < 1 := fun x hx => ⟨(ha x hx).1, fun z hz => by
    have hz' : ¬∃ y ∈ b, z ∈ y := fun ⟨y, hy, hzy⟩ => hab x hx y hy z hz hzy
    simp only [G, if_neg hz', Nat.zero_lt_one]⟩
  have hB : ∀ y ∈ b, y ≠ [] ∧ ∀ z ∈ y, G z = 1 := fun y hy => ⟨(hb y hy).1, fun z hz => by
    have hz' : ∃ y ∈ b, z ∈ y := ⟨y, hy, hz⟩
    simp only [G, if_pos hz']⟩
  refine ⟨fun s => ⟨?_, ?_⟩, nodup_cartesianProduct hA hB hna hnb, length_cartesianProduct a b,
    fun m hm => ?_⟩
  · rintro ⟨m, hm, rfl⟩
    rcases mem_cartesianProduct.mp hm with hm | hm | ⟨y, hy, x, hx, rfl⟩
    · exact ⟨(List.toFinset_nonempty_iff m).mpr (ha m hm).1, _, ∅, .inr ⟨m, hm, rfl⟩, .inl rfl,
        (Finset.union_empty _).symm⟩
    · exact ⟨(List.toFinset_nonempty_iff m).mpr (hb m hm).1, ∅, _, .inl rfl, .inr ⟨m, hm, rfl⟩,
        (Finset.empty_union _).symm⟩
    · exact ⟨(List.toFinset_nonempty_iff _).mpr (by simp [(hb y hy).1]), _, _, .inr ⟨x, hx, rfl⟩,
        .inr ⟨y, hy, rfl⟩, by rw [List.toFinset_append, Finset.union_comm]⟩
  · rintro ⟨hne, x, y, hx | ⟨mx, hmx, rfl⟩, hy | ⟨my, hmy, rfl⟩, rfl⟩
    · simp [hx, hy] at hne
    · exact ⟨my, mem_cartesianProduct.mpr (.inr (.inl hmy)), by rw [hx, Finset.empty_union]⟩
    · exact ⟨mx, mem_cartesianProduct.mpr (.inl hmx), by rw [hy, Finset.union_empty]⟩
    · exact ⟨my ++ mx, mem_cartesianProduct.mpr (.inr (.inr ⟨my, hmy, mx, hmx, rfl⟩)),
        by rw [List.toFinset_append, Finset.union_comm]⟩
  · rcases mem_cartesianProduct.mp hm with hm | hm | ⟨y, hy, x, hx, rfl⟩
    · exact (ha m hm).2
    · exact (hb m hm).2
    · exact List.nodup_append.mpr ⟨(hb y hy).2, (ha x hx).2, fun z hzy hzx => hab x hx y hy z hzx hzy⟩

/-- The families `{0}, {1}` and `{2}`. -/
theorem cartesianProduct_sets_two :
    (∀ s : Finset Nat, (∃ m ∈ cartesianProduct [[0], [1]] [[2]], m.toFinset = s) ↔ s.Nonempty ∧
      ∃ x y : Finset Nat, (x = ∅ ∨ ∃ m ∈ [[0], [1]], m.toFinset = x) ∧
        (y = ∅ ∨ ∃ m ∈ [[2]], m.toFinset = y) ∧ s = x ∪ y) ∧
    ((cartesianProduct [[0], [1]] [[2]]).map List.toFinset).Nodup ∧
    (cartesianProduct [[0], [1]] [[2]]).length = 2 + 1 + 2 * 1 ∧
    ∀ m ∈ cartesianProduct [[0], [1]] [[2]], m.Nodup :=
  cartesianProduct_sets [[0], [1]] [[2]] (by decide) (by decide) (by decide) (by decide) (by decide)

/-- Two lists of one set, `[0, 1]` and `[1, 0]`, give the sets `{0, 1}` and `{0, 1, 2}` twice;
a member listing `0` twice gives members that list it twice. -/
theorem cartesianProduct_two_orders :
    [[0, 1], [1, 0]].Nodup ∧ (∀ x ∈ [[0, 1], [1, 0]], x ≠ [] ∧ x.Nodup) ∧
      (∀ x ∈ [[0, 1], [1, 0]], ∀ z ∈ x, z ∉ [2]) ∧
      ¬((cartesianProduct [[0, 1], [1, 0]] [[2]]).map List.toFinset).Nodup ∧
    (∀ z ∈ [0, 0], z ∉ [1]) ∧ ¬∀ m ∈ cartesianProduct [[0, 0]] [[1]], m.Nodup := by
  decide

/-! ## Bitmaps of a group product -/

/-- The ordinals below `N` whose bit is set in `B`. -/
def bitsBelow (N B : Nat) : Finset Nat := (Finset.range N).filter (B.testBit ·)

theorem mem_bitsBelow {N B x : Nat} (hB : B < 2 ^ N) : x ∈ bitsBelow N B ↔ B.testBit x := by
  simp only [bitsBelow, Finset.mem_filter, Finset.mem_range, and_iff_right_iff_imp]
  exact fun h => Nat.lt_of_not_le fun hx => by simp [testBit_eq_false_of_le hB hx] at h

theorem bitmapOf_eq_iff_bitsBelow {m : List Nat} {N B : Nat} (hB : B < 2 ^ N) :
    bitmapOf m = B ↔ m.toFinset = bitsBelow N B := by
  refine ⟨fun h => ?_, fun h => Nat.eq_of_testBit_eq fun x => ?_⟩
  · ext x; rw [List.mem_toFinset, mem_bitsBelow hB, ← h]; simp
  · have := Finset.ext_iff.mp h x
    rw [List.mem_toFinset, mem_bitsBelow hB] at this
    rw [testBit_bitmapOf, Bool.eq_iff_iff, decide_eq_true_iff, this]

theorem bitsBelow_nonempty {N B : Nat} (hB : B < 2 ^ N) : (bitsBelow N B).Nonempty ↔ 0 < B := by
  simp only [Finset.Nonempty, mem_bitsBelow hB]
  exact ⟨fun ⟨x, hx⟩ => Nat.pos_of_ne_zero fun h => by simp [h] at hx,
    fun h => Nat.ne_zero_implies_bit_true (Nat.pos_iff_ne_zero.mp h)⟩

theorem nodup_map_bitmapOf {F : List (List Nat)} (h : (F.map List.toFinset).Nodup) :
    (F.map bitmapOf).Nodup := by
  rw [List.Nodup, List.pairwise_map] at h ⊢
  exact h.imp fun hne he => hne (bitmapOf_eq_iff_toFinset.mp he)

/-- The bitmaps of a group product over `{0, …, N - 1}`, for groups of `w` ordinals: exactly
the nonempty sets whose slices the families allow. -/
theorem mem_groupProduct_bitmaps {w N : Nat} (hw : 0 < w) (hN : w ∣ N)
    {fam : Nat → List (List Nat)} (hfam : FamilyIn (· / w) fam (N / w)) (B : Nat) :
    B ∈ (groupProduct fam (N / w)).map bitmapOf ↔ 0 < B ∧ B < 2 ^ N ∧
      ∀ i < N / w, slice (· / w) (bitsBelow N B) i = ∅ ∨
        ∃ T ∈ fam i, T.toFinset = slice (· / w) (bitsBelow N B) i := by
  obtain ⟨n, rfl⟩ := hN
  have hlt : ∀ m ∈ groupProduct fam (w * n / w), ∀ x ∈ m, x < w * n := fun m hm x hx => by
    have := (mem_groupProduct hfam hm).2.2 x hx
    rw [Nat.mul_div_cancel_left _ hw] at this
    exact (Nat.div_lt_iff_lt_mul hw).mp this |>.trans_eq (Nat.mul_comm _ _)
  have hbits : ∀ x ∈ bitsBelow (w * n) B, x / w < w * n / w := fun x hx => by
    have := (Finset.mem_filter.mp hx).1
    rw [Finset.mem_range] at this
    rw [Nat.mul_div_cancel_left _ hw]
    exact (Nat.div_lt_iff_lt_mul hw).mpr (this.trans_eq (Nat.mul_comm _ _))
  rw [List.mem_map]
  constructor
  · rintro ⟨m, hm, rfl⟩
    have hB := bitmapOf_lt_two_pow (hlt m hm)
    obtain ⟨hne, -, hsl⟩ := (exists_mem_groupProduct_iff hfam _).mp
      ⟨m, hm, (bitmapOf_eq_iff_bitsBelow hB).mp rfl⟩
    exact ⟨(bitsBelow_nonempty hB).mp hne, hB, hsl⟩
  · rintro ⟨hpos, hB, h⟩
    obtain ⟨m, hm, he⟩ := (exists_mem_groupProduct_iff hfam _).mpr
      ⟨(bitsBelow_nonempty hB).mpr hpos, hbits, h⟩
    exact ⟨m, hm, (bitmapOf_eq_iff_bitsBelow hB).mpr he⟩

/-- **The bitmaps of a group product over `{0, …, N - 1}`**: each set once, and exactly the
nonempty sets whose slices the families allow, here read as `Adm`. -/
theorem groupProduct_bitmaps {w N : Nat} (hw : 0 < w) (hN : w ∣ N) {fam : Nat → List (List Nat)}
    (hfam : FamilyIn (· / w) fam (N / w)) (hnd : FamilyNodup fam (N / w))
    (Adm : Finset Nat → Prop)
    (hadm : ∀ s : Finset Nat, (∀ x ∈ s, x / w < N / w) → (Adm s ↔ ∀ i < N / w,
      slice (· / w) s i = ∅ ∨ ∃ T ∈ fam i, T.toFinset = slice (· / w) s i)) :
    ((groupProduct fam (N / w)).map bitmapOf).Nodup ∧
    ∀ B, B ∈ (groupProduct fam (N / w)).map bitmapOf ↔ 0 < B ∧ B < 2 ^ N ∧ Adm (bitsBelow N B) := by
  refine ⟨nodup_map_bitmapOf (nodup_groupProduct hfam hnd), fun B => ?_⟩
  rw [mem_groupProduct_bitmaps hw hN hfam]
  refine and_congr_right fun _ => and_congr_right fun hB => (hadm _ fun x hx => ?_).symm
  obtain ⟨n, rfl⟩ := hN
  have := (Finset.mem_filter.mp hx).1
  rw [Finset.mem_range] at this
  rw [Nat.mul_div_cancel_left _ hw]
  exact (Nat.div_lt_iff_lt_mul hw).mpr (this.trans_eq (Nat.mul_comm _ _))

end ParallelJoin
