import ParallelJoin.BushySplits

/-!
# The split loops on 32-bit `int`

`try_splits` and `try_splits_b` build their bitmaps on an `int` (`parallel_worker.c:273-285`,
`:359-367`, `:537-546`), and `Worker.lean` models them on `Nat`. Here are the pairs the source
computes on 32 bits: `intLeftDeepSplits` is `(bitmap & ~(1 << u), 1 << u)`, and
`intBushySplits` is `(bitmapl, bitmap - bitmapl)` with the tests `bitmapl == 0` and
`bitmapl == bitmap` on the 32-bit values.

While no ordinal of `sub_rels` passes 30, every bitmap is below `2^31`, so the `int` values are
the `Nat` ones and the two models try the same pairs in the same order. The worker reaches the
split loops only with at most 26 relations (`tableAllocOk_iff`). Called on larger ordinals, the
`int` loops differ: `1 << 32` has no `int` value, and the split of `{0, 32}` into `{0}` and
`{32}` is skipped as `bitmapl == bitmap` (`bushySplits_spec_thirtyThree`, `Optimal.lean`).

Results:
* `intLeftDeepSplits_toInt`, `intBushySplits_toInt`: with every ordinal at most 30, the `int`
  pairs are the `Nat` pairs of the model.
-/

namespace ParallelJoin

/-- The pairs of `try_splits` on 32-bit `int`s (`parallel_worker.c:312-322`). -/
def intLeftDeepSplits (subRels : List Nat) (constr : List (Nat × Nat)) :
    List (BitVec 32 × BitVec 32) :=
  (subRels.filter (valid subRels constr)).map fun u =>
    (intBitmapOf subRels &&& ~~~intShiftLeft u, intShiftLeft u)

/-- The pairs of `try_splits_b` on 32-bit `int`s (`parallel_worker.c:534-552`). -/
def intBushySplits (subRels : List Nat) (constr : List (Nat × Nat × Nat)) (n : Nat) :
    List (BitVec 32 × BitVec 32) :=
  (groupProduct (groupSpower (subRels.contains ·) constr) (n / 3)).filterMap fun L =>
    if intBitmapOf L == 0 || intBitmapOf L == intBitmapOf subRels then none
    else some (intBitmapOf L, intBitmapOf subRels - intBitmapOf L)

/-! ## 32-bit arithmetic below `2^31` -/

theorem ofNat_andNot (b m : Nat) :
    BitVec.ofNat 32 (andNot b m) = BitVec.ofNat 32 b &&& ~~~BitVec.ofNat 32 m :=
  BitVec.eq_of_getLsbD_eq fun i => by simp [BitVec.getLsbD_ofNat]

theorem ofNat_eq_ofNat_iff {a b : Nat} (ha : a < 2 ^ 32) (hb : b < 2 ^ 32) :
    BitVec.ofNat 32 a = BitVec.ofNat 32 b ↔ a = b := by
  rw [BitVec.toNat_eq, BitVec.toNat_ofNat, BitVec.toNat_ofNat, Nat.mod_eq_of_lt ha,
    Nat.mod_eq_of_lt hb]

theorem ofNat_eq_zero_iff {a : Nat} (ha : a < 2 ^ 32) : BitVec.ofNat 32 a = 0 ↔ a = 0 :=
  ofNat_eq_ofNat_iff ha (by decide : 0 < 2 ^ 32)

/-- `a - b` on `int`s below `2^31`, with `b ≤ a`, is the `Nat` difference. -/
theorem toInt_ofNat_sub {a b : Nat} (ha : a < 2 ^ 31) (hb : b ≤ a) :
    (BitVec.ofNat 32 a - BitVec.ofNat 32 b).toInt = (a - b : Nat) := by
  have : BitVec.ofNat 32 a - BitVec.ofNat 32 b = BitVec.ofNat 32 (a - b) := by
    apply BitVec.eq_of_toNat_eq
    simp only [BitVec.toNat_sub, BitVec.toNat_ofNat]
    omega
  rw [this, toInt_ofNat_of_lt (by omega)]

/-! ## The members of a product -/

theorem spowerPat_le {c p1 p2 p3 a1 a2 a3 : Bool} (h : (a1, a2, a3) ∈ spowerPat c p1 p2 p3) :
    (a1 → p1) ∧ (a2 → p2) ∧ (a3 → p3) := by
  revert c p1 p2 p3 a1 a2 a3
  decide

/-- `Spower` lists present members only. -/
theorem present_of_mem_groupSpower {present : Nat → Bool} {cs : List (Nat × Nat × Nat)} {i : Nat}
    {T : List Nat} (hT : T ∈ groupSpower present cs i) {x : Nat} (hx : x ∈ T) :
    present x = true := by
  have hsp : ∀ {c q1 q2 q3}, T ∈ spower c present q1 q2 q3 → present x = true := by
    intro c q1 q2 q3 h
    rw [spower_eq, List.mem_map] at h
    obtain ⟨⟨a1, a2, a3⟩, ha, rfl⟩ := h
    have := spowerPat_le ha
    rcases (mem_patList _).mp hx with ⟨h, rfl⟩ | ⟨h, rfl⟩ | ⟨h, rfl⟩ <;> simp_all
  unfold groupSpower at hT
  split at hT <;> exact hsp hT

/-! ## Refinement -/

/-- **`try_splits` on `int`s is the model** while no ordinal passes 30. -/
theorem intLeftDeepSplits_toInt {q : List Nat} (cs : List (Nat × Nat)) (hq : ∀ x ∈ q, x ≤ 30) :
    (intLeftDeepSplits q cs).map (fun lr => (lr.1.toInt, lr.2.toInt)) =
      (leftDeepSplits q cs).map fun lr => ((lr.1 : Int), (lr.2 : Int)) := by
  have hb : bitmapOf q < 2 ^ 31 := bitmapOf_lt_two_pow fun x hx => Nat.lt_succ_of_le (hq x hx)
  simp only [intLeftDeepSplits, leftDeepSplits, List.map_map]
  refine List.map_congr_left fun u hu => ?_
  have hu := hq u (List.mem_filter.mp hu).1
  simp only [Function.comp, intBitmapOf_eq, intShiftLeft_toInt hu, Nat.one_shiftLeft]
  rw [intShiftLeft_eq, Nat.one_shiftLeft, ← ofNat_andNot,
    toInt_ofNat_of_lt (lt_two_pow_of_subBits hb (subBits_andNot _ _))]
  norm_cast

/-- **`try_splits_b` on `int`s is the model** while no ordinal passes 30. -/
theorem intBushySplits_toInt {q : List Nat} (cs : List (Nat × Nat × Nat)) (n : Nat)
    (hq : ∀ x ∈ q, x ≤ 30) :
    (intBushySplits q cs n).map (fun lr => (lr.1.toInt, lr.2.toInt)) =
      (bushySplits q cs n).map fun lr => ((lr.1 : Int), (lr.2 : Int)) := by
  have hlt : ∀ L : List Nat, (∀ x ∈ L, x ∈ q) → bitmapOf L < 2 ^ 31 := fun L hL =>
    bitmapOf_lt_two_pow fun x hx => Nat.lt_succ_of_le (hq x (hL x hx))
  have hq31 := hlt q fun _ => id
  simp only [intBushySplits, bushySplits, List.map_filterMap]
  refine List.filterMap_congr fun L hL => ?_
  have hLq : ∀ x ∈ L, x ∈ q := forall_mem_groupProduct
    (fun _ _ hT _ hx => List.elem_iff.mp (present_of_mem_groupSpower hT hx)) L hL
  have hL31 := hlt L hLq
  have hle : bitmapOf L ≤ bitmapOf q := Nat.le_of_testBit fun i => by simpa using hLq i
  simp only [intBitmapOf_eq, Bool.or_eq_true, beq_iff_eq, ofNat_eq_zero_iff (by omega : bitmapOf L < 2 ^ 32),
    ofNat_eq_ofNat_iff (by omega : bitmapOf L < 2 ^ 32) (by omega : bitmapOf q < 2 ^ 32)]
  split <;> simp [toInt_ofNat_of_lt hL31, toInt_ofNat_sub hq31 hle]

end ParallelJoin
