import Mathlib.Data.Nat.Bitwise
import Mathlib.Data.List.Basic
import Mathlib.Data.BitVec

/-!
# Subset bitmaps

The DP table of `worker` (`parallel_worker.c:616-629`) is indexed by an `int` bitmap whose bit
`i` marks the `i`-th initial relation. Here a bitmap is a `Nat` and the source's bit operations
are the `Nat` ones: `bitmap |= (1 << num)` is `bitmapOf`, `bitmap & ~(1 << u)` is `andNot`,
`bitmap - bitmapl` is `Nat` subtraction. The last section models the C `int`: `intShiftLeft` and
`intBitmapOf` are `1 << k` and `bitmap |= (1 << num)` on 32 bits, and up to ordinal 30 their
values are the `Nat` ones (`intBitmapOf_toInt`).

Every bitmap is read through `Nat.testBit`: two bitmaps are equal iff their bits are
(`Nat.eq_of_testBit_eq`), so set reasoning about the ordinal lists the source builds becomes
membership reasoning about their bits.

Results:
* `testBit_bitmapOf`, `testBit_andNot`: the bits of the two constructions.
* `bitmapOf_eq_iff`: two ordinal lists have one bitmap iff they have the same members.
* `sub_eq_andNot`: subtracting a sub-bitmap clears its bits, so `bitmap - bitmapl` in
  `try_splits_b` is the complement of `bitmapl` in `bitmap` whenever `bitmapl ⊆ bitmap`.
* `intBitmapOf_eq`: the `int` bitmap is the `Nat` one taken modulo `2^32`; as an `int` it is
  the `Nat` one when no ordinal passes 30 (`intBitmapOf_toInt`), and `1 << 31` is negative.
-/

namespace ParallelJoin

/-- The bitmap of an ordinal list: `bitmap |= (1 << num)` for each `num` of the list
(`parallel_worker.c:281-289`, `:363-367`, `:541-546`). -/
def bitmapOf (xs : List Nat) : Nat :=
  xs.foldl (fun b n => b ||| 1 <<< n) 0

/-- `b & ~m`, on the non-negative bitmaps of the source (`parallel_worker.c:317`). -/
def andNot (b m : Nat) : Nat := b ^^^ (b &&& m)

/-- Every bit of `l` is a bit of `b`. -/
def SubBits (l b : Nat) : Prop := ∀ i, l.testBit i = true → b.testBit i = true

attribute [simp] Nat.one_shiftLeft Nat.testBit_two_pow

theorem testBit_foldl_or (xs : List Nat) (b i : Nat) :
    (xs.foldl (fun b n => b ||| 1 <<< n) b).testBit i = (b.testBit i || decide (i ∈ xs)) := by
  induction xs generalizing b with
  | nil => simp
  | cons x xs ih =>
    rw [List.foldl_cons, ih, Nat.testBit_or, Bool.or_assoc]
    simp [eq_comm]

@[simp] theorem testBit_bitmapOf (xs : List Nat) (i : Nat) :
    (bitmapOf xs).testBit i = decide (i ∈ xs) := by
  rw [bitmapOf, testBit_foldl_or, Nat.zero_testBit, Bool.false_or]

@[simp] theorem testBit_andNot (b m i : Nat) :
    (andNot b m).testBit i = (b.testBit i && !m.testBit i) := by
  rw [andNot, Nat.testBit_xor, Nat.testBit_and]
  cases b.testBit i <;> cases m.testBit i <;> rfl

theorem bitmapOf_eq_iff {xs ys : List Nat} : bitmapOf xs = bitmapOf ys ↔ ∀ i, i ∈ xs ↔ i ∈ ys :=
  ⟨fun h i => by simpa using congrArg (Nat.testBit · i) h,
    fun h => Nat.eq_of_testBit_eq fun i => by simp [h i]⟩

theorem bitmapOf_append (xs ys : List Nat) : bitmapOf (xs ++ ys) = bitmapOf xs ||| bitmapOf ys :=
  Nat.eq_of_testBit_eq fun i => by simp

theorem bitmapOf_singleton (u : Nat) : bitmapOf [u] = 1 <<< u :=
  Nat.eq_of_testBit_eq fun i => by simp [eq_comm]

theorem bitmapOf_eq_zero_iff {xs : List Nat} : bitmapOf xs = 0 ↔ xs = [] := by
  refine ⟨fun h => List.eq_nil_iff_forall_not_mem.mpr fun i hi => ?_, fun h => by simp [h, bitmapOf]⟩
  simpa [hi] using congrArg (Nat.testBit · i) h

theorem bitmapOf_lt_two_pow {xs : List Nat} {n : Nat} (h : ∀ x ∈ xs, x < n) :
    bitmapOf xs < 2 ^ n :=
  Nat.lt_pow_two_of_testBit _ fun i hi => by
    simpa using fun hx => absurd (h i hx) (Nat.not_lt.mpr hi)

theorem testBit_eq_false_of_le {B N x : Nat} (hB : B < 2 ^ N) (hx : N ≤ x) :
    B.testBit x = false :=
  Nat.testBit_lt_two_pow (lt_of_lt_of_le hB (Nat.pow_le_pow_right (by decide) hx))

theorem bitmapOf_range (n : Nat) : bitmapOf (List.range n) = 2 ^ n - 1 :=
  Nat.eq_of_testBit_eq fun i => by simp

/-- Two bitmaps with no common bit add as they or. -/
theorem add_eq_or_of_and_eq_zero {x : Nat} : ∀ {y : Nat}, x &&& y = 0 → x + y = x ||| y := by
  induction x using Nat.binaryRec with
  | z => intro y _; simp
  | f a m ih =>
    intro y h
    obtain ⟨b, n, rfl⟩ : ∃ b n, y = Nat.bit b n := ⟨y.bodd, y.div2, (Nat.bit_decomp y).symm⟩
    rw [Nat.land_bit, Nat.bit_eq_zero_iff] at h
    rw [Nat.lor_bit, ← ih h.1]
    cases a <;> cases b <;> simp [Nat.bit_val] at h ⊢ <;> omega

theorem lt_two_pow_of_subBits {l b N : Nat} (hb : b < 2 ^ N) (h : SubBits l b) : l < 2 ^ N :=
  Nat.lt_pow_two_of_testBit _ fun i hi => by
    have := h i; rw [testBit_eq_false_of_le hb hi] at this
    cases hl : l.testBit i <;> simp_all

theorem andNot_and_self (b m : Nat) : andNot b m &&& m = 0 :=
  Nat.eq_of_testBit_eq fun i => by simp

theorem andNot_or_of_subBits {b m : Nat} (h : SubBits m b) : andNot b m ||| m = b :=
  Nat.eq_of_testBit_eq fun i => by
    have := h i
    cases hb : b.testBit i <;> cases hm : m.testBit i <;> simp_all

theorem subBits_andNot (b m : Nat) : SubBits (andNot b m) b := fun i h => by
  simp only [testBit_andNot, Bool.and_eq_true] at h; exact h.1

/-- Taking a proper part out of a set leaves something. -/
theorem andNot_pos {b m : Nat} (h : SubBits m b) (hne : m ≠ b) : 0 < andNot b m :=
  Nat.pos_of_ne_zero fun h0 => hne (Nat.eq_of_testBit_eq fun i => by
    have h1 := h i
    have h2 := congrArg (Nat.testBit · i) h0
    simp only [testBit_andNot, Nat.zero_testBit] at h2
    cases hb : b.testBit i <;> cases hm : m.testBit i <;> simp_all)

/-- Taking a nonempty part out of a set changes it. -/
theorem andNot_ne_self {b m : Nat} (h : SubBits m b) (hpos : 0 < m) : andNot b m ≠ b := fun he => by
  obtain ⟨i, hi⟩ := Nat.ne_zero_implies_bit_true hpos.ne'
  have := congrArg (Nat.testBit · i) he
  simp [hi, h i hi] at this

/-- Two disjoint parts that make up `b`: the first is a part of `b`, and the second is the
rest. -/
theorem subBits_andNot_of_and_eq_zero {l r b : Nat} (hand : l &&& r = 0) (hor : l ||| r = b) :
    SubBits l b ∧ r = andNot b l := by
  refine ⟨fun i hi => by rw [← hor, Nat.testBit_or, hi, Bool.true_or], Nat.eq_of_testBit_eq fun i => ?_⟩
  have h1 := congrArg (Nat.testBit · i) hand
  rw [← hor, testBit_andNot, Nat.testBit_or]
  simp only [Nat.testBit_and, Nat.zero_testBit] at h1
  cases hl : l.testBit i <;> cases hr : r.testBit i <;> simp_all

/-- `b - l` clears the bits of `l` when they are bits of `b`. -/
theorem sub_eq_andNot {l b : Nat} (h : SubBits l b) : b - l = andNot b l := by
  have hsum : andNot b l + l = b := by
    rw [add_eq_or_of_and_eq_zero (andNot_and_self b l), andNot_or_of_subBits h]
  omega

/-! ## The `int` bitmaps of the source

The source computes bitmaps on a 32-bit `int`. `1 << k` overflows at `k = 31`, and C leaves it
undefined from `k = 32` on; `intShiftLeft` takes the value of the 32-bit shift there, `0`. -/

/-- `1 << k` on a 32-bit `int`. -/
def intShiftLeft (k : Nat) : BitVec 32 := 1#32 <<< k

/-- `bitmap |= (1 << num)` for each `num` of the list, on a 32-bit `int`. -/
def intBitmapOf (xs : List Nat) : BitVec 32 := xs.foldl (fun b n => b ||| intShiftLeft n) 0

theorem intShiftLeft_eq (k : Nat) : intShiftLeft k = BitVec.ofNat 32 (1 <<< k) :=
  BitVec.eq_of_toNat_eq (by simp [intShiftLeft, BitVec.toNat_shiftLeft])

theorem ofNat_or (a b : Nat) : BitVec.ofNat 32 (a ||| b) = BitVec.ofNat 32 a ||| BitVec.ofNat 32 b :=
  BitVec.eq_of_getLsbD_eq fun i => by
    simp [BitVec.getLsbD_ofNat, Nat.testBit_or, Bool.and_or_distrib_left]

/-- The `int` bitmap is the `Nat` one modulo `2^32`. -/
theorem intBitmapOf_eq (xs : List Nat) : intBitmapOf xs = BitVec.ofNat 32 (bitmapOf xs) := by
  suffices h : ∀ acc : Nat, xs.foldl (fun b n => b ||| intShiftLeft n) (BitVec.ofNat 32 acc) =
      BitVec.ofNat 32 (xs.foldl (fun b n => b ||| 1 <<< n) acc) from h 0
  induction xs with
  | nil => intro acc; rfl
  | cons x xs ih => intro acc; rw [List.foldl_cons, List.foldl_cons, ← ih, ofNat_or, intShiftLeft_eq]

/-- A value below `2^31` is that `int`. -/
theorem toInt_ofNat_of_lt {n : Nat} (h : n < 2 ^ 31) : (BitVec.ofNat 32 n).toInt = n := by
  rw [BitVec.toInt_eq_toNat_cond, BitVec.toNat_ofNat, Nat.mod_eq_of_lt (by omega), if_pos (by omega)]

/-- Up to `k = 30`, `1 << k` is the `int` `2^k`. -/
theorem intShiftLeft_toInt {k : Nat} (hk : k ≤ 30) : (intShiftLeft k).toInt = 2 ^ k := by
  have : 2 ^ k < 2 ^ 31 := Nat.pow_lt_pow_right (by decide) (by omega)
  rw [intShiftLeft_eq, Nat.one_shiftLeft, toInt_ofNat_of_lt this]
  norm_cast

/-- With no ordinal past 30, the `int` bitmap is the `Nat` one. -/
theorem intBitmapOf_toInt {xs : List Nat} (h : ∀ x ∈ xs, x ≤ 30) :
    (intBitmapOf xs).toInt = bitmapOf xs := by
  rw [intBitmapOf_eq, toInt_ofNat_of_lt (bitmapOf_lt_two_pow fun x hx => Nat.lt_succ_of_le (h x hx))]

end ParallelJoin
