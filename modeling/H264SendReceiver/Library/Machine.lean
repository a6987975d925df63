import Mathlib.Tactic.Common
import Mathlib.Data.BitVec

/-!
# Machine integers of a 64-bit platform

`size_t` values are natural numbers with every operation reduced modulo
`2 ^ 64`; `int` values are 32-bit patterns in two's complement. A pointer into
a vector may be followed past the vector's end, into memory of any content.
-/

namespace SizeT

def add (a b : ℕ) : ℕ := (a + b) % 2 ^ 64

def sub (a b : ℕ) : ℕ := (a + (2 ^ 64 - b % 2 ^ 64)) % 2 ^ 64

def mul (a b : ℕ) : ℕ := a * b % 2 ^ 64

theorem add_eq {a b : ℕ} (h : a + b < 2 ^ 64) : add a b = a + b := Nat.mod_eq_of_lt h

theorem mul_eq {a b : ℕ} (h : a * b < 2 ^ 64) : mul a b = a * b := Nat.mod_eq_of_lt h

theorem sub_eq {a b : ℕ} (hb : b ≤ a) (ha : a < 2 ^ 64) : sub a b = a - b := by
  unfold sub
  omega

end SizeT

abbrev CInt := BitVec 32

namespace CInt

/-- `static_cast<int>` of a `size_t`. -/
def ofSizeT (n : ℕ) : CInt := BitVec.ofNat 32 n

theorem toInt_ofSizeT {n : ℕ} (h : n < 2 ^ 31) : (ofSizeT n).toInt = n := by
  rw [ofSizeT, BitVec.toInt_ofNat', Int.bmod_def]
  omega

/-- The left shift of an `int`. A distance of 32 or more leaves the value to
the implementation; `wide` is what it yields. -/
def shl (wide : CInt → ℕ → CInt) (x : CInt) (n : ℕ) : CInt :=
  if n < 32 then x <<< n else wide x n

theorem shl_of_lt {wide : CInt → ℕ → CInt} {x : CInt} {n : ℕ} (h : n < 32) :
    shl wide x n = x <<< n := if_pos h

/-! Checked operations: `none` where the language leaves the result undefined.
A left shift is defined when its exact value fits 32 bits, so that a one may
be shifted into the sign bit but not past it. -/

def shl? (x : CInt) (n : ℕ) : Option CInt :=
  if n < 32 ∧ 0 ≤ x.toInt ∧ x.toNat * 2 ^ n < 2 ^ 32 then some (x <<< n) else none

/-- The exact result of an operation, where an `int` can hold it. -/
def ofInt? (v : ℤ) : Option CInt :=
  if -2 ^ 31 ≤ v ∧ v < 2 ^ 31 then some (BitVec.ofInt 32 v) else none

def sub? (x y : CInt) : Option CInt := ofInt? (x.toInt - y.toInt)

def neg? (x : CInt) : Option CInt := ofInt? (-x.toInt)

theorem shl?_bit (b : Bool) {n : ℕ} (hn : n < 32) :
    shl? (BitVec.ofNat 32 b.toNat) n = some (BitVec.ofNat 32 b.toNat <<< n) := by
  have hpow : 2 ^ n < 2 ^ 32 := Nat.pow_lt_pow_right (by omega) hn
  cases b with
  | false => exact if_pos ⟨hn, by decide, by simp⟩
  | true => exact if_pos ⟨hn, by decide, (Nat.one_mul (2 ^ n)).trans_lt hpow⟩

theorem shl?_eq_none {x : CInt} {n : ℕ} (hn : 32 ≤ n) : shl? x n = none :=
  if_neg fun h ↦ absurd h.1 (by omega)

theorem toInt_range (x : CInt) : -2 ^ 31 ≤ x.toInt ∧ x.toInt < 2 ^ 31 := ⟨x.le_toInt, x.toInt_lt⟩

theorem ne_intMin_iff {x : CInt} : x ≠ BitVec.intMin 32 ↔ -2 ^ 31 < x.toInt := by
  have hrange := toInt_range x
  have hmin : (BitVec.intMin 32).toInt = -2 ^ 31 := rfl
  rw [ne_eq, ← BitVec.toInt_inj, hmin]
  omega

/-- Only the lowest number has no predecessor. -/
theorem sub?_one (x : CInt) : sub? x 1 = if x = BitVec.intMin 32 then none else some (x - 1) := by
  have hrange := toInt_range x
  have hone : (1 : CInt).toInt = 1 := rfl
  rw [sub?, hone, ofInt?]
  by_cases hx : x = BitVec.intMin 32
  · rw [if_pos hx, hx, if_neg (by decide)]
  · have hlow := ne_intMin_iff.mp hx
    rw [if_neg hx, if_pos (by omega), Int.sub_eq_add_neg, BitVec.ofInt_add, BitVec.ofInt_toInt,
      BitVec.ofInt_neg, BitVec.sub_eq_add_neg]
    congr 1

/-- Only the lowest number has no negative. -/
theorem neg?_of_ne {x : CInt} (h : x ≠ BitVec.intMin 32) : neg? x = some (-x) := by
  have hrange := toInt_range x
  have hlow := ne_intMin_iff.mp h
  rw [neg?, ofInt?, if_pos (by omega), BitVec.ofInt_neg, BitVec.ofInt_toInt]

end CInt

namespace Memory

variable {α : Type*}

/-- What lies at distance `i` from the first element of a vector; `behind` is
the memory that follows its last element. -/
def peek (l : List α) (behind : ℕ → α) (i : ℕ) : α := (l[i]?).getD (behind (i - l.length))

theorem peek_eq {l : List α} {i : ℕ} {a : α} (h : l[i]? = some a) (behind : ℕ → α) :
    peek l behind i = a := by
  rw [peek, h]
  rfl

theorem peek_drop {l : List α} {j : ℕ} (h : j ≤ l.length) (behind : ℕ → α) (i : ℕ) :
    peek (l.drop j) behind i = peek l behind (j + i) := by
  have hdist : i - (l.length - j) = j + i - l.length := by omega
  rw [peek, peek, List.getElem?_drop, List.length_drop, hdist]

end Memory
