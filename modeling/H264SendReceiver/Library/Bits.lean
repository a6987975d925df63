import Mathlib.Data.List.Basic
import Mathlib.Data.Nat.Bitwise
import Mathlib.Tactic.Common
import Mathlib.Tactic.Ring

/-!
# Bit strings, most significant bit first

The number a bit string denotes, the digits of a number at a given width,
and the bits of a byte string. `pack` is the writer: it is inverse to
`bitsOf` on bit strings that fill their last byte.
-/

namespace Bits

def value (bs : List Bool) : ℕ := bs.foldl (fun v b ↦ 2 * v + b.toNat) 0

/-- The `n` low binary digits of `v`. -/
def digits : ℕ → ℕ → List Bool
  | 0, _ => []
  | n + 1, v => v.testBit n :: digits n v

@[simp] theorem value_nil : value [] = 0 := rfl

theorem foldl_value (bs : List Bool) (v : ℕ) :
    bs.foldl (fun v b ↦ 2 * v + b.toNat) v = v * 2 ^ bs.length + value bs := by
  induction bs generalizing v with
  | nil => simp
  | cons b bs ih =>
      rw [value, List.foldl_cons, List.foldl_cons, ih, ih (2 * 0 + b.toNat), List.length_cons,
        pow_succ]
      ring

theorem value_cons (b : Bool) (bs : List Bool) :
    value (b :: bs) = b.toNat * 2 ^ bs.length + value bs := by
  rw [value, List.foldl_cons, foldl_value]
  simp

theorem value_append (xs ys : List Bool) :
    value (xs ++ ys) = value xs * 2 ^ ys.length + value ys := by
  rw [value, List.foldl_append, foldl_value]
  rfl

theorem value_lt (bs : List Bool) : value bs < 2 ^ bs.length := by
  induction bs with
  | nil => simp
  | cons b bs ih =>
      rw [value_cons, List.length_cons, pow_succ]
      cases b <;> simp <;> omega

theorem value_eq_zero_iff {bs : List Bool} : value bs = 0 ↔ true ∉ bs := by
  induction bs with
  | nil => simp
  | cons b bs ih => cases b <;> simp [value_cons, ih]

@[simp] theorem length_digits (n v : ℕ) : (digits n v).length = n := by
  induction n with
  | zero => rfl
  | succ n ih => simp [digits, ih]

theorem value_digits (n v : ℕ) : value (digits n v) = v % 2 ^ n := by
  induction n with
  | zero => simp [digits, Nat.mod_one]
  | succ n ih =>
      rw [digits, value_cons, length_digits, ih, Nat.mod_pow_succ, Nat.toNat_testBit,
        Nat.mul_comm, Nat.add_comm]

theorem value_digits_of_lt {n v : ℕ} (h : v < 2 ^ n) : value (digits n v) = v := by
  rw [value_digits, Nat.mod_eq_of_lt h]

theorem digits_value (bs : List Bool) :
    ∀ m, digits bs.length (m * 2 ^ bs.length + value bs) = bs := by
  induction bs with
  | nil => intro m; rfl
  | cons b bs ih =>
      intro m
      have hlt := value_lt bs
      have hsplit : m * 2 ^ (bs.length + 1) + value (b :: bs) =
          (m * 2 + b.toNat) * 2 ^ bs.length + value bs := by
        rw [value_cons, pow_succ]
        ring
      have hbit : ((m * 2 + b.toNat) * 2 ^ bs.length + value bs).testBit bs.length = b := by
        rw [Nat.mul_comm, Nat.testBit_two_pow_mul_add _ hlt, if_neg (lt_irrefl _), Nat.sub_self]
        cases b <;> simp [Nat.testBit_zero]
      rw [List.length_cons, hsplit, digits, hbit, ih]

/-- The number of zero bits in front of the first one bit or the end. -/
def leadingZeros (bs : List Bool) : ℕ := (bs.takeWhile (!·)).length

@[simp] theorem leadingZeros_nil : leadingZeros [] = 0 := rfl

@[simp] theorem leadingZeros_true (bs : List Bool) : leadingZeros (true :: bs) = 0 := rfl

@[simp] theorem leadingZeros_false (bs : List Bool) :
    leadingZeros (false :: bs) = leadingZeros bs + 1 := rfl

theorem leadingZeros_replicate (k : ℕ) (bs : List Bool) :
    leadingZeros (List.replicate k false ++ bs) = k + leadingZeros bs := by
  induction k with
  | zero => simp
  | succ k ih =>
      rw [List.replicate_succ, List.cons_append, leadingZeros_false, ih]
      omega

/-- In front of the end the zero bits are followed by a one bit. -/
theorem eq_replicate_append {bs : List Bool} (h : leadingZeros bs < bs.length) :
    bs = List.replicate (leadingZeros bs) false ++ true :: bs.drop (leadingZeros bs + 1) := by
  induction bs with
  | nil => simp at h
  | cons b bs ih =>
      cases b with
      | true => rfl
      | false =>
          rw [leadingZeros_false, List.length_cons] at h
          rw [leadingZeros_false, List.replicate_succ, List.cons_append, List.drop_succ_cons]
          exact congrArg _ (ih (by omega))

def byteBits (b : UInt8) : List Bool := digits 8 b.toNat

def bitsOf (buf : List UInt8) : List Bool := buf.flatMap byteBits

@[simp] theorem length_byteBits (b : UInt8) : (byteBits b).length = 8 := length_digits 8 _

@[simp] theorem bitsOf_nil : bitsOf [] = [] := rfl

@[simp] theorem bitsOf_cons (b : UInt8) (buf : List UInt8) :
    bitsOf (b :: buf) = byteBits b ++ bitsOf buf := rfl

@[simp] theorem bitsOf_append (xs ys : List UInt8) : bitsOf (xs ++ ys) = bitsOf xs ++ bitsOf ys :=
  List.flatMap_append

@[simp] theorem length_bitsOf (buf : List UInt8) : (bitsOf buf).length = 8 * buf.length := by
  induction buf with
  | nil => rfl
  | cons b buf ih =>
      rw [bitsOf_cons, List.length_append, ih, length_byteBits, List.length_cons]
      omega

theorem getElem?_digits {n v i : ℕ} (h : i < n) :
    (digits n v)[i]? = some (v.testBit (n - 1 - i)) := by
  induction n generalizing i with
  | zero => omega
  | succ n ih =>
      cases i with
      | zero => simp [digits]
      | succ i =>
          rw [digits, List.getElem?_cons_succ, ih (by omega), Nat.add_sub_cancel,
            Nat.sub_sub, Nat.add_comm 1 i]

theorem getElem?_bitsOf {buf : List UInt8} {i : ℕ} (h : i < 8 * buf.length) :
    (bitsOf buf)[i]? = some ((buf.getD (i / 8) 0).toNat.testBit (7 - i % 8)) := by
  induction buf generalizing i with
  | nil => simp at h
  | cons b buf ih =>
      rw [List.length_cons] at h
      by_cases hi : i < 8
      · have hdiv : i / 8 = 0 := by omega
        have hmod : i % 8 = i := by omega
        rw [bitsOf_cons, hdiv, hmod, List.getElem?_append_left (by simpa using hi)]
        exact getElem?_digits hi
      · have hdiv : i / 8 = (i - 8) / 8 + 1 := by omega
        have hmod : i % 8 = (i - 8) % 8 := by omega
        rw [bitsOf_cons, hdiv, hmod, List.getElem?_append_right (by simpa using hi),
          length_byteBits, ih (by omega), List.getD_cons_succ]

/-- Write a bit string into bytes; bits that fill no byte are dropped. -/
def pack : List Bool → List UInt8
  | b₇ :: b₆ :: b₅ :: b₄ :: b₃ :: b₂ :: b₁ :: b₀ :: rest =>
      UInt8.ofNat (value [b₇, b₆, b₅, b₄, b₃, b₂, b₁, b₀]) :: pack rest
  | _ => []

theorem byteBits_ofNat_value (b₇ b₆ b₅ b₄ b₃ b₂ b₁ b₀ : Bool) :
    byteBits (UInt8.ofNat (value [b₇, b₆, b₅, b₄, b₃, b₂, b₁, b₀])) =
      [b₇, b₆, b₅, b₄, b₃, b₂, b₁, b₀] := by
  have hlt : value [b₇, b₆, b₅, b₄, b₃, b₂, b₁, b₀] < 2 ^ 8 := value_lt _
  have hdigits := digits_value [b₇, b₆, b₅, b₄, b₃, b₂, b₁, b₀] 0
  rw [Nat.zero_mul, Nat.zero_add] at hdigits
  rw [byteBits, UInt8.toNat_ofNat', Nat.mod_eq_of_lt hlt]
  exact hdigits

theorem bitsOf_pack {bs : List Bool} (h : 8 ∣ bs.length) : bitsOf (pack bs) = bs := by
  fun_induction pack bs with
  | case1 b₇ b₆ b₅ b₄ b₃ b₂ b₁ b₀ rest ih =>
      have hrest : 8 ∣ rest.length := by
        simp only [List.length_cons] at h
        omega
      rw [bitsOf_cons, byteBits_ofNat_value, ih hrest]
      rfl
  | case2 bs hshort =>
      rcases bs with _ | ⟨b₇, _ | ⟨b₆, _ | ⟨b₅, _ | ⟨b₄, _ | ⟨b₃, _ | ⟨b₂, _ | ⟨b₁, _ | ⟨b₀, rest⟩⟩⟩⟩⟩⟩⟩⟩
      · rfl
      all_goals first
        | exact (hshort _ _ _ _ _ _ _ _ _ rfl).elim
        | simp only [List.length_cons, List.length_nil] at h; omega

end Bits
