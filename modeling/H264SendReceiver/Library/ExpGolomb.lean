import H264SendReceiver.Library.Bits

/-!
# Exponential Golomb codes

The codeword of `v` is the binary form of `v + 1`, preceded by one zero bit
less than it has digits. Signed values are numbered
`0, 1, -1, 2, -2, …` first.
-/

namespace ExpGolomb

open Bits

def ueCode (v : ℕ) : List Bool :=
  List.replicate (v + 1).log2 false ++ digits ((v + 1).log2 + 1) (v + 1)

def codeNum (v : ℤ) : ℕ := if 0 < v then (2 * v - 1).toNat else (-2 * v).toNat

def seCode (v : ℤ) : List Bool := ueCode (codeNum v)

@[simp] theorem length_ueCode (v : ℕ) : (ueCode v).length = 2 * (v + 1).log2 + 1 := by
  simp only [ueCode, List.length_append, List.length_replicate, length_digits]
  omega

/-- The marker bit of a codeword is its first one bit. -/
theorem ueCode_eq (v : ℕ) :
    ueCode v = List.replicate (v + 1).log2 false ++
      true :: digits (v + 1).log2 (v + 1) := by
  have hbit : (v + 1).testBit (v + 1).log2 = true := by
    rw [Nat.testBit_eq_decide_div_mod_eq]
    have hdiv : (v + 1) / 2 ^ (v + 1).log2 = 1 := by
      have hle : 2 ^ (v + 1).log2 ≤ v + 1 := Nat.log2_self_le (by omega)
      have hlt : v + 1 < 2 ^ ((v + 1).log2 + 1) := Nat.lt_log2_self
      rw [pow_succ] at hlt
      exact Nat.div_eq_of_lt_le (by rwa [Nat.one_mul]) (by omega)
    simp [hdiv]
  rw [ueCode, digits, hbit]

/-- The digits behind the marker bit give the value. -/
theorem value_suffix (v : ℕ) :
    value (digits (v + 1).log2 (v + 1)) + 2 ^ (v + 1).log2 = v + 1 := by
  have hle : 2 ^ (v + 1).log2 ≤ v + 1 := Nat.log2_self_le (by omega)
  have hlt : v + 1 < 2 ^ ((v + 1).log2 + 1) := Nat.lt_log2_self
  rw [pow_succ] at hlt
  rw [value_digits, Nat.mod_eq_sub_mod hle, Nat.mod_eq_of_lt (by omega)]
  omega

theorem leadingZeros_ueCode (v : ℕ) (rest : List Bool) :
    leadingZeros (ueCode v ++ rest) = (v + 1).log2 := by
  rw [ueCode_eq, List.append_assoc, leadingZeros_replicate, List.cons_append, leadingZeros_true,
    Nat.add_zero]

/-- Any digits behind the marker bit make a codeword. -/
theorem ueCode_of_suffix (t : List Bool) :
    ueCode (2 ^ t.length + value t - 1) = List.replicate t.length false ++ true :: t := by
  have hlt := value_lt t
  have hpos : 0 < 2 ^ t.length := Nat.two_pow_pos _
  have hv : 2 ^ t.length + value t - 1 + 1 = 1 * 2 ^ t.length + value t := by omega
  have hlog : (1 * 2 ^ t.length + value t).log2 = t.length :=
    (Nat.log2_eq_iff (by omega)).mpr ⟨by omega, by rw [pow_succ]; omega⟩
  rw [ueCode_eq, hv, hlog, digits_value]

/-- A bit string begins with a codeword of a number below `2 ^ n - 1` exactly
when fewer than `n` zero bits are followed by a one bit and as many digits. -/
theorem exists_ueCode_prefix_iff {u : List Bool} {n : ℕ} :
    (∃ v, v + 1 < 2 ^ n ∧ ueCode v <+: u) ↔
      leadingZeros u < n ∧ 2 * leadingZeros u + 1 ≤ u.length := by
  constructor
  · rintro ⟨v, hv, rest, rfl⟩
    rw [leadingZeros_ueCode, List.length_append, length_ueCode]
    exact ⟨(Nat.log2_lt (by omega)).mpr hv, by omega⟩
  · rintro ⟨hn, hlen⟩
    have hu : u = _ := eq_replicate_append (by omega)
    generalize leadingZeros u = k at hn hlen hu
    obtain ⟨t, ht⟩ : ∃ t, t = (u.drop (k + 1)).take k := ⟨_, rfl⟩
    have htake : t.length = k := by
      rw [ht, List.length_take, List.length_drop]
      omega
    have hcode := ueCode_of_suffix t
    have hlt := value_lt t
    rw [htake] at hcode hlt
    refine ⟨2 ^ k + value t - 1, ?_, (u.drop (k + 1)).drop k, ?_⟩
    · have hpow : 2 ^ (k + 1) ≤ 2 ^ n := Nat.pow_le_pow_right (by omega) hn
      rw [pow_succ] at hpow
      omega
    · rw [hcode, List.append_assoc, List.cons_append, ht, List.take_append_drop, ← hu]

end ExpGolomb
