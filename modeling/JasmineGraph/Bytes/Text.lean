import Mathlib

/-!
# Byte strings, C strings and decimal numerals

A `std::string` or a `char` buffer is a list of bytes. `cstr` is what a C string function sees of
one: the bytes before the first NUL. `decimal` is `std::to_string` of an unsigned number and
`decimalInt` the text of a signed one; `stoul`, `stol` and `stoi` are the parsers, `none` standing
for the exceptions they throw.
-/

namespace JasmineGraph.Bytes

open List Option

instance instLawfulBEqText : LawfulBEq (List UInt8) := inferInstance

/-- The bytes of a text literal. -/
def ascii (s : String) : List UInt8 := s.toList.map fun c => UInt8.ofNat c.toNat

/-- The C string a buffer starts with. -/
def cstr (b : List UInt8) : List UInt8 := b.takeWhile (· ≠ 0)

variable {b : List UInt8} {n : Nat}

theorem cstr_of_notMem (h : 0 ∉ b) : cstr b = b := by
  unfold cstr
  rw [takeWhile_eq_self_iff]
  intro x hx
  simpa using fun h0 : x = 0 => h (h0 ▸ hx)

theorem zero_notMem_cstr (b : List UInt8) : 0 ∉ cstr b := by
  intro h
  simpa using mem_takeWhile_imp h

theorem cstr_append_zero (h : 0 ∉ b) (rest : List UInt8) : cstr (b ++ 0 :: rest) = b := by
  have hall : ∀ x ∈ b, decide (x ≠ 0) = true := by
    intro x hx
    simpa using fun h0 : x = 0 => h (h0 ▸ hx)
  unfold cstr
  rw [takeWhile_append_of_pos hall]
  simp

/-! ## Numerals -/

def ofChar (c : Char) : UInt8 := UInt8.ofNat c.toNat

/-- `std::to_string` of an unsigned number. -/
def decimal (n : Nat) : List UInt8 := (Nat.toDigits 10 n).map ofChar

def decimalInt (n : Int) : List UInt8 :=
  if n < 0 then 45 :: decimal n.natAbs else decimal n.natAbs

def isDigit (b : UInt8) : Bool := 48 ≤ b && b ≤ 57

def isSpace (b : UInt8) : Bool := b == 32 || (9 ≤ b && b ≤ 13)

/-- The value of a string of digits. -/
def ofDigits (ds : List UInt8) : Nat := ds.foldl (fun n d => 10 * n + (d.toNat - 48)) 0

def takeSign : List UInt8 → Bool × List UInt8
  | 45 :: rest => (true, rest)
  | 43 :: rest => (false, rest)
  | b => (false, b)

/-- The sign and magnitude at the start of a text; `none` is `std::invalid_argument`. A NUL is no
digit, so the scan stops at the end of the C string. -/
def scanNumber (b : List UInt8) : Option (Bool × Nat) :=
  let (neg, b) := takeSign (b.dropWhile isSpace)
  let ds := b.takeWhile isDigit
  if ds = [] then none else some (neg, ofDigits ds)

/-- `std::stoul`; `none` when it throws. A minus sign negates modulo `2 ^ 64`. -/
def stoul (b : List UInt8) : Option Nat := do
  let (neg, m) ← scanNumber b
  if 2 ^ 64 ≤ m then none
  else some (if neg then (2 ^ 64 - m) % 2 ^ 64 else m)

def stoi (b : List UInt8) : Option Int := do
  let (neg, m) ← scanNumber b
  let n : Int := if neg then -m else m
  if n < -2 ^ 31 ∨ 2 ^ 31 ≤ n then none else some n

def atoi (b : List UInt8) : Int :=
  match scanNumber b with
  | none => 0
  | some (neg, m) => if neg then -m else m

/-- `std::stol`; `none` when it throws. -/
def stol (b : List UInt8) : Option Int64 := do
  let (neg, m) ← scanNumber b
  let n : Int := if neg then -m else m
  if n < -2 ^ 63 ∨ 2 ^ 63 ≤ n then none else some (Int64.ofInt n)

theorem toNat_ofChar {c : Char} (h : c.isDigit = true) : (ofChar c).toNat = c.toNat := by
  simp only [Char.isDigit, Bool.and_eq_true, decide_eq_true_eq, UInt32.le_iff_toNat_le] at h
  have h9 : ('9' : Char).val.toNat = 57 := rfl
  rw [ofChar, UInt8.toNat_ofNat']
  exact Nat.mod_eq_of_lt (by unfold Char.toNat; omega)

theorem isDigit_ofChar {c : Char} (h : c.isDigit = true) : isDigit (ofChar c) = true := by
  have hn := toNat_ofChar h
  simp only [Char.isDigit, Bool.and_eq_true, decide_eq_true_eq, UInt32.le_iff_toNat_le] at h
  have h0 : ('0' : Char).val.toNat = 48 := rfl
  have h9 : ('9' : Char).val.toNat = 57 := rfl
  simp only [isDigit, Bool.and_eq_true, decide_eq_true_eq, UInt8.le_iff_toNat_le, hn]
  exact ⟨by simpa [h0] using h.1, by simpa [h9] using h.2⟩

theorem isDigit_of_mem_decimal {b : UInt8} (h : b ∈ decimal n) : isDigit b = true := by
  obtain ⟨c, hc, rfl⟩ := List.mem_map.1 h
  exact isDigit_ofChar (Nat.isDigit_of_mem_toDigits (by decide) (by decide) hc)

theorem decimal_ne_nil (n : Nat) : decimal n ≠ [] := by
  simp [decimal]

theorem notMem_decimal {b : UInt8} (hb : isDigit b = false) (n : Nat) : b ∉ decimal n := by
  intro h
  rw [isDigit_of_mem_decimal h] at hb
  cases hb

theorem foldl_ofChar : ∀ (cs : List Char) (acc : Nat), (∀ c ∈ cs, c.isDigit = true) →
    (cs.map ofChar).foldl (fun n d => 10 * n + (d.toNat - 48)) acc = Nat.ofDigitChars 10 cs acc
  | [], _, _ => rfl
  | c :: cs, acc, h => by
    simp only [map_cons, foldl_cons, toNat_ofChar (h c mem_cons_self)]
    exact foldl_ofChar cs _ fun c hc => h c (mem_cons_of_mem _ hc)

theorem ofDigits_decimal (n : Nat) : ofDigits (decimal n) = n := by
  unfold ofDigits decimal
  rw [foldl_ofChar _ _ fun c hc => Nat.isDigit_of_mem_toDigits (by decide) (by decide) hc]
  exact Nat.ofDigitChars_ten_toDigits

/-- **Equal numerals, equal numbers.** -/
theorem decimal_injective : Function.Injective decimal := by
  intro m n h
  rw [← ofDigits_decimal m, h, ofDigits_decimal]

theorem isSpace_of_isDigit {d : UInt8} (h : isDigit d = true) : isSpace d = false := by
  simp only [isDigit, isSpace, Bool.and_eq_true, decide_eq_true_eq, Bool.or_eq_false_iff,
    beq_eq_false_iff_ne, Bool.and_eq_false_iff, decide_eq_false_iff_not, UInt8.le_iff_toNat_le,
    ne_eq, ← UInt8.toNat_inj, UInt8.reduceToNat] at h ⊢
  omega

theorem takeSign_of_isDigit {d : UInt8} {ds : List UInt8} (h : isDigit d = true) :
    takeSign (d :: ds) = (false, d :: ds) := by
  unfold takeSign
  split
  · rename_i heq
    cases heq
    cases h
  · rename_i heq
    cases heq
    cases h
  · rfl

/-- A non-empty string of digits. -/
def IsNumeral (b : List UInt8) : Prop := b ≠ [] ∧ ∀ d ∈ b, isDigit d = true

theorem isNumeral_decimal (n : Nat) : IsNumeral (decimal n) :=
  ⟨decimal_ne_nil n, fun _ => isDigit_of_mem_decimal⟩

theorem IsNumeral.scanNumber (h : IsNumeral b) : scanNumber b = some (false, ofDigits b) := by
  obtain ⟨hne, hall⟩ := h
  have htake : b.takeWhile isDigit = b := takeWhile_eq_self_iff.2 hall
  -- the first byte is a digit, hence neither white space nor a sign
  obtain ⟨d, ds, rfl⟩ := exists_cons_of_ne_nil hne
  have hdig : isDigit d = true := hall d mem_cons_self
  have hdrop : (d :: ds).dropWhile isSpace = d :: ds := by
    simp [isSpace_of_isDigit hdig]
  simp only [Bytes.scanNumber, hdrop, takeSign_of_isDigit hdig, htake, if_neg hne]

theorem IsNumeral.stoi (h : IsNumeral b) :
    stoi b = if ofDigits b < 2 ^ 31 then some (ofDigits b : Int) else none := by
  simp only [Bytes.stoi, h.scanNumber, bind_eq_bind, bind_some, Bool.false_eq_true, if_false]
  by_cases hlt : ofDigits b < 2 ^ 31
  · rw [if_pos hlt, if_neg (by omega)]
  · rw [if_neg hlt, if_pos (by omega)]

theorem scanNumber_decimal (n : Nat) : scanNumber (decimal n) = some (false, n) := by
  rw [(isNumeral_decimal n).scanNumber, ofDigits_decimal]

theorem scanNumber_decimalInt (n : Int) :
    scanNumber (decimalInt n) = some (decide (n < 0), n.natAbs) := by
  unfold decimalInt
  split_ifs with h
  · have htake : (decimal n.natAbs).takeWhile isDigit = decimal n.natAbs :=
      takeWhile_eq_self_iff.2 (isNumeral_decimal _).2
    have hdrop : (45 :: decimal n.natAbs).dropWhile isSpace = 45 :: decimal n.natAbs := rfl
    simp only [scanNumber, hdrop, takeSign, htake, if_neg (decimal_ne_nil _), ofDigits_decimal, h,
      decide_true]
  · rw [scanNumber_decimal, decide_eq_false h]

theorem stoi_decimalInt {n : Int} (h : -2 ^ 31 ≤ n ∧ n < 2 ^ 31) :
    stoi (decimalInt n) = some n := by
  have hn : (if decide (n < 0) = true then -(n.natAbs : Int) else n.natAbs) = n := by
    split_ifs with hneg
    · have := of_decide_eq_true hneg
      omega
    · have : ¬ n < 0 := fun h => hneg (decide_eq_true h)
      omega
  simp only [stoi, scanNumber_decimalInt, bind_eq_bind, bind_some, hn]
  exact if_neg (by omega)

theorem decimalInt_injective : Function.Injective decimalInt := by
  intro m n h
  have hscan := congrArg scanNumber h
  rw [scanNumber_decimalInt, scanNumber_decimalInt, some_inj, Prod.mk_inj,
    decide_eq_decide] at hscan
  omega

theorem notMem_decimalInt {b : UInt8} (hb : isDigit b = false) (hminus : b ≠ 45) (n : Int) :
    b ∉ decimalInt n := by
  unfold decimalInt
  split_ifs
  · rw [mem_cons, not_or]
    exact ⟨hminus, notMem_decimal hb _⟩
  · exact notMem_decimal hb _

theorem isSpace_of_mem_decimalInt {n : Int} {b : UInt8} (h : b ∈ decimalInt n) :
    isSpace b = false := by
  unfold decimalInt at h
  split_ifs at h
  · rcases mem_cons.1 h with rfl | h
    · rfl
    · exact isSpace_of_isDigit (isDigit_of_mem_decimal h)
  · exact isSpace_of_isDigit (isDigit_of_mem_decimal h)

theorem decimalInt_ne_nil (n : Int) : decimalInt n ≠ [] := by
  unfold decimalInt
  split_ifs
  · exact cons_ne_nil _ _
  · exact decimal_ne_nil _

/-- A text that reads as a number does not start with a NUL. -/
theorem cstr_ne_nil_of_stoul {v : Nat} (h : stoul b = some v) : cstr b ≠ [] := by
  cases b with
  | nil => cases h
  | cons x rest =>
    by_cases hx : x = 0
    · subst hx
      cases h
    · simp [cstr, hx]

/-- **A numeral reads back to its number.** -/
theorem stoul_decimal (h : n < 2 ^ 64) : stoul (decimal n) = some n := by
  simp only [stoul, scanNumber_decimal]
  exact if_neg (Nat.not_le.2 h)

theorem stol_decimal (h : n < 2 ^ 63) : stol (decimal n) = some (Int64.ofInt n) := by
  have hr : ¬ ((n : Int) < -2 ^ 63 ∨ (2 ^ 63 : Int) ≤ n) := by omega
  simp only [stol, scanNumber_decimal]
  exact if_neg hr

end JasmineGraph.Bytes
