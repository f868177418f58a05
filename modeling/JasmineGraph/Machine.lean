import Mathlib

/-!
# Machine integers: `long`, `unsigned int`, `int`

The C++ sources compute in three integer types of the x86-64 ABI.

* `long` is `Int64` (`Long`), with the signed order. `xorSwap` is the three-statement exchange
  `a ^= b; b ^= a; a ^= b` the triangle code sorts its triples with; on two distinct variables it
  is a plain exchange (`xorSwap_eq`).
* `unsigned int` is a natural number below `2 ^ 32`; a conversion to it is `u32`, from a signed type
  `toUInt32`.
* `int` is an integer in `[-2 ^ 31, 2 ^ 31)`; a conversion to it from a wider type is `toInt32`,
  the two's complement reading of the low 32 bits.
-/

namespace JasmineGraph

/-- `long` on the x86-64 ABI. -/
abbrev Long := Int64

instance instLinearOrderLong : LinearOrder Int64 where
  le_refl := Int64.le_refl
  le_trans _ _ _ := Int64.le_trans
  lt_iff_le_not_ge a b := by
    rw [Int64.lt_iff_toInt_lt, Int64.le_iff_toInt_le, Int64.le_iff_toInt_le]
    omega
  le_antisymm _ _ := Int64.le_antisymm
  le_total := Int64.le_total
  toDecidableLE := inferInstance
  toDecidableEq := inferInstance
  toDecidableLT := inferInstance
  toOrd := inferInstance
  compare_eq_compareOfLessAndEq _ _ := rfl

def xorSwap (a b : Long) : Long × Long :=
  let a := a ^^^ b
  let b := b ^^^ a
  let a := a ^^^ b
  (a, b)

/-- **The XOR exchange exchanges.** -/
theorem xorSwap_eq (a b : Long) : xorSwap a b = (b, a) := by
  have hb : b ^^^ (a ^^^ b) = a := by
    rw [Int64.xor_comm a b, ← Int64.xor_assoc, Int64.xor_self, Int64.zero_xor]
  have ha : (a ^^^ b) ^^^ a = b := by
    rw [Int64.xor_comm a b, Int64.xor_assoc, Int64.xor_self, Int64.xor_zero]
  simp only [xorSwap, hb, ha]

def u32 (n : Nat) : Nat := n % 2 ^ 32

theorem u32_of_lt {n : Nat} (h : n < 2 ^ 32) : u32 n = n := Nat.mod_eq_of_lt h

theorem u32_lt (n : Nat) : u32 n < 2 ^ 32 := Nat.mod_lt _ (by decide)

/-- Conversion of a signed integer to `unsigned int`. -/
def toUInt32 (n : Int) : Nat := (n % 2 ^ 32).toNat

theorem toUInt32_natCast (n : Nat) : toUInt32 n = u32 n := by
  unfold toUInt32 u32
  omega

/-- Conversion of a wider integer to `int`: the low 32 bits, read in two's complement. -/
def toInt32 (n : Int) : Int := (n + 2 ^ 31) % 2 ^ 32 - 2 ^ 31

theorem toInt32_of_lt {n : Nat} (h : n < 2 ^ 31) : toInt32 n = n := by
  unfold toInt32
  omega

theorem toInt32_of_mem {n : Int} (h : -2 ^ 31 ≤ n) (h' : n < 2 ^ 31) : toInt32 n = n := by
  unfold toInt32
  omega

end JasmineGraph
