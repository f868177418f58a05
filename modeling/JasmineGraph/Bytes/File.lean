import Mathlib

/-!
# Byte files

A file is its size and its bytes (`ByteFile`). Bytes past the end read as 0, so a write past the
end leaves a hole of zeros, as `lseek` and `write` do. `slice` is what a read of `n` bytes
returns.

`le32` and `ofLe32` are the little-endian image of an `unsigned int` and its reading; `u32At` reads
one out of a file.
-/

namespace JasmineGraph.Bytes

open List

structure ByteFile where
  size : Nat
  byte : Nat → UInt8
  hole : ∀ i, size ≤ i → byte i = 0

variable {bs : List UInt8} {f : ByteFile}

namespace ByteFile

def empty : ByteFile := ⟨0, fun _ => 0, fun _ _ => rfl⟩

def write (f : ByteFile) (p : Nat) (bs : List UInt8) : ByteFile where
  size := if bs = [] then f.size else max f.size (p + bs.length)
  byte i := if p ≤ i ∧ i < p + bs.length then bs.getD (i - p) 0 else f.byte i
  hole i hi := by
    split_ifs at hi with hbs
    · subst hbs
      rw [if_neg (by simp)]
      exact f.hole i hi
    · rw [if_neg (by omega)]
      exact f.hole i (by omega)

def slice (f : ByteFile) (p n : Nat) : List UInt8 := (range n).map fun i => f.byte (p + i)

variable {p : Nat}

@[simp] theorem length_slice (f : ByteFile) (p n : Nat) : (f.slice p n).length = n := by
  simp [slice]

theorem size_write (h : bs ≠ []) : (f.write p bs).size = max f.size (p + bs.length) := if_neg h

theorem size_write_of_le (h : p + bs.length ≤ f.size) : (f.write p bs).size = f.size := by
  unfold write
  split_ifs
  · rfl
  · exact Nat.max_eq_left h

theorem ext {f g : ByteFile} (hs : f.size = g.size) (hb : ∀ i, f.byte i = g.byte i) : f = g := by
  obtain ⟨fs, fb, fh⟩ := f
  obtain ⟨gs, gb, gh⟩ := g
  obtain rfl : fs = gs := hs
  obtain rfl : fb = gb := funext hb
  rfl

theorem slice_congr {f g : ByteFile} {p n : Nat}
    (h : ∀ i, p ≤ i → i < p + n → f.byte i = g.byte i) : f.slice p n = g.slice p n := by
  refine map_congr_left fun i hi => h _ (by omega) ?_
  have := mem_range.1 hi
  omega

/-- **A write changes nothing outside its range.** -/
theorem slice_write_of_disjoint {p q n : Nat} (h : q + n ≤ p ∨ p + bs.length ≤ q) :
    (f.write p bs).slice q n = f.slice q n := by
  refine slice_congr fun i h1 h2 => ?_
  exact if_neg (by omega)

/-- **What is written is read back**, any part of it. -/
theorem slice_write_sub {p o n : Nat} (h : o + n ≤ bs.length) :
    (f.write p bs).slice (p + o) n = (bs.drop o).take n := by
  refine ext_getElem (by simp; omega) fun i h1 h2 => ?_
  rw [length_slice] at h1
  simp only [slice, getElem_map, getElem_range, getElem_take, getElem_drop]
  change (if p ≤ p + o + i ∧ p + o + i < p + bs.length then _ else _) = _
  rw [if_pos (by omega)]
  have hidx : p + o + i - p = o + i := by omega
  rw [hidx, getD_eq_getElem _ _ (by omega)]

theorem slice_write_self (bs : List UInt8) : (f.write p bs).slice p bs.length = bs := by
  have h : (f.write p bs).slice (p + 0) bs.length = (bs.drop 0).take bs.length :=
    slice_write_sub (by omega)
  simpa using h

theorem write_eq_self (hin : p + bs.length ≤ f.size) (hbs : f.slice p bs.length = bs) :
    f.write p bs = f := by
  refine ext (size_write_of_le hin) fun i => ?_
  unfold write
  dsimp only
  split_ifs with hi
  · have hlt : i - p < bs.length := by omega
    rw [← hbs, getD_eq_getElem _ _ (by rwa [length_slice])]
    simp [slice, hi.1]
  · rfl

/-- **Adjacent writes are one write.** -/
theorem write_write (f : ByteFile) (p : Nat) (as bs : List UInt8) :
    (f.write p as).write (p + as.length) bs = f.write p (as ++ bs) := by
  refine ext ?_ fun i => ?_
  · by_cases ha : as = []
    · simp [write, ha]
    · by_cases hb : bs = []
      · simp [write, hb]
      · have hab : as ++ bs ≠ [] := fun h => ha (append_eq_nil_iff.1 h).1
        rw [size_write hb, size_write ha, size_write hab, length_append]
        omega
  · simp only [write, length_append]
    by_cases h1 : p + as.length ≤ i ∧ i < p + as.length + bs.length
    · rw [if_pos h1, if_pos (by omega), getD_append_right _ _ _ _ (by omega)]
      congr 1
      omega
    · rw [if_neg h1]
      by_cases h2 : p ≤ i ∧ i < p + as.length
      · rw [if_pos h2, if_pos (by omega), getD_append _ _ _ _ (by omega)]
      · rw [if_neg h2, if_neg (by omega)]

end ByteFile

/-! ## `unsigned int` fields -/

/-- The four bytes of an `unsigned int`, least significant first. -/
def le32 (n : Nat) : List UInt8 :=
  [UInt8.ofNat n, UInt8.ofNat (n / 2 ^ 8), UInt8.ofNat (n / 2 ^ 16), UInt8.ofNat (n / 2 ^ 24)]

/-- The number four bytes stand for. -/
def ofLe32 (bs : List UInt8) : Nat :=
  (bs.getD 0 0).toNat + 2 ^ 8 * (bs.getD 1 0).toNat + 2 ^ 16 * (bs.getD 2 0).toNat +
    2 ^ 24 * (bs.getD 3 0).toNat

@[simp] theorem length_le32 (n : Nat) : (le32 n).length = 4 := rfl

theorem ofLe32_le32 {n : Nat} (h : n < 2 ^ 32) : ofLe32 (le32 n) = n := by
  simp only [ofLe32, le32, getD_cons_zero, getD_cons_succ, UInt8.toNat_ofNat']
  omega

theorem ofLe32_lt (bs : List UInt8) : ofLe32 bs < 2 ^ 32 := by
  have h0 := (bs.getD 0 0).toNat_lt
  have h1 := (bs.getD 1 0).toNat_lt
  have h2 := (bs.getD 2 0).toNat_lt
  have h3 := (bs.getD 3 0).toNat_lt
  unfold ofLe32
  omega

def u32At (f : ByteFile) (p : Nat) : Nat := ofLe32 (f.slice p 4)

theorem u32At_lt (f : ByteFile) (p : Nat) : u32At f p < 2 ^ 32 := ofLe32_lt _

theorem u32At_write_of_disjoint {p q : Nat} (h : q + 4 ≤ p ∨ p + bs.length ≤ q) :
    u32At (f.write p bs) q = u32At f q := by
  unfold u32At
  rw [ByteFile.slice_write_of_disjoint h]

theorem u32At_write {p n : Nat} (h : n < 2 ^ 32) : u32At (f.write p (le32 n)) p = n := by
  have hs : (f.write p (le32 n)).slice p 4 = le32 n := ByteFile.slice_write_self (le32 n)
  rw [u32At, hs, ofLe32_le32 h]

theorem u32At_write_sub {p o : Nat} (h : o + 4 ≤ bs.length) :
    u32At (f.write p bs) (p + o) = ofLe32 ((bs.drop o).take 4) := by
  unfold u32At
  rw [ByteFile.slice_write_sub h]

end JasmineGraph.Bytes
