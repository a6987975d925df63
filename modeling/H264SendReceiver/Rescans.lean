import H264SendReceiver.AnnexB.AnyMemory
import H264SendReceiver.AnnexB.Runs
import Mathlib.Tactic.Linarith
import Mathlib.Tactic.Ring

/-!
# What a long NALU costs

`readNalu` searches the whole buffer again after every chunk, so that the
comparisons for one NALU grow with the square of its length. The bound holds
whatever lies behind the buffer.
-/

namespace H264SendReceiver

namespace FileReader

/-! ## The comparisons of one search -/

theorem one_le_length_log_and {x y : Traced BufRead Bool} (h : 1 ≤ x.log.length) :
    1 ≤ (x.and y).log.length := by
  rw [Traced.log_and, List.length_append]
  omega

/-- Both conditions begin with a comparison. -/
theorem two_le_length_log_findStartCode {buf : ℕ → UInt8} {len : ℕ} (hlen : 3 ≤ len)
    (hnone : (findStartCode buf len).val = none) : 2 ≤ (findStartCode buf len).log.length := by
  have hfirst {x y : Traced BufRead Bool} :
      1 ≤ (((equals buf len 0x00 0).and x).and y).log.length :=
    one_le_length_log_and (one_le_length_log_and le_rfl)
  have hsecond {x y z : Traced BufRead Bool} :
      1 ≤ ((((equals buf len 0x00 0).and x).and y).and z).log.length :=
    one_le_length_log_and hfirst
  rw [findStartCode, if_neg (by omega), Traced.val_bind] at hnone
  rw [findStartCode, if_neg (by omega), Traced.log_bind, List.length_append]
  split at hnone
  · simp at hnone
  · rename_i hthree
    rw [if_neg hthree, Traced.log_bind, List.length_append]
    have h₁ := hfirst (x := equals buf len 0x00 1) (y := equals buf len 0x01 2)
    have h₂ := hsecond (x := equals buf len 0x00 1) (y := equals buf len 0x00 2)
      (z := equals buf len 0x01 3)
    omega

/-- A start code of three bytes takes three comparisons, one of four bytes
seven. -/
theorem two_mul_le_length_log_findStartCode {buf : ℕ → UInt8} {len s : ℕ}
    (hsome : (findStartCode buf len).val = some s) :
    3 ≤ len ∧ 3 ≤ s ∧ 2 * s ≤ (findStartCode buf len).log.length + 3 := by
  rw [findStartCode] at hsome ⊢
  split at hsome
  · simp at hsome
  · rename_i hlen
    rw [if_neg hlen]
    rw [Traced.val_bind] at hsome
    rw [Traced.log_bind, List.length_append]
    split at hsome
    · rename_i hthree
      obtain rfl : 3 = s := by simpa using hsome
      simp only [Traced.val_and, Bool.and_eq_true] at hthree
      simp [Traced.log_and, hthree, length_log_equals]
      omega
    · rename_i hthree
      rw [if_neg hthree, Traced.log_bind, List.length_append]
      rw [Traced.val_bind] at hsome
      split at hsome
      · rename_i hfour
        obtain rfl : 4 = s := by simpa using hsome
        simp only [Traced.val_and, Bool.and_eq_true] at hfour
        simp [Traced.log_and, hfour, length_log_equals]
        omega
      · simp at hsome

theorem le_length_log_findNext_of_none {buf : ℕ → UInt8} {len left : ℕ} :
    ∀ {idx}, len ≤ idx + left → (findNext buf len left idx).val = none →
      2 * (len - (idx + 2)) ≤ (findNext buf len left idx).log.length := by
  induction left with
  | zero => intro idx hlen _; omega
  | succ left ih =>
      intro idx hlen hnone
      rw [findNext, Traced.val_bind] at hnone
      rw [findNext, Traced.log_bind, List.length_append]
      split at hnone
      · simp at hnone
      · rename_i hhere
        have hrest := ih (by omega) hnone
        by_cases hthree : 3 ≤ len - idx
        · have htwo := two_le_length_log_findStartCode hthree hhere
          omega
        · omega

theorem le_length_log_findNext_of_some {buf : ℕ → UInt8} {len left j : ℕ} :
    ∀ {idx}, (findNext buf len left idx).val = some j →
      j + 3 ≤ len ∧ 2 * j + 3 ≤ 2 * idx + (findNext buf len left idx).log.length := by
  induction left with
  | zero => intro idx h; simp [findNext] at h
  | succ left ih =>
      intro idx hsome
      have hbounds := findNext_eq_some hsome
      rw [findNext, Traced.val_bind] at hsome
      rw [findNext, Traced.log_bind, List.length_append]
      split at hsome
      · rename_i hhere
        obtain rfl : idx = j := by simpa using hsome
        have hcode := two_mul_le_length_log_findStartCode hhere
        omega
      · rename_i hhere
        obtain ⟨hthree, hrest⟩ := ih hsome
        have htwo := two_le_length_log_findStartCode (by omega) hhere
        omega

/-! ## The comparisons of one call -/

section Pass

variable {mem : ℕ → ℕ → UInt8} {r : FileReader} {s : ℕ} (hs : (front mem r).val = some s)
include hs

theorem le_length_log_pass_of_some {j : ℕ} (hj : (search mem r s).val = some j) :
    j ≤ (r.data 1).length ∧ 3 ≤ ((front mem r).log ++ (search mem r s).log).length ∧
      2 * j ≤ ((front mem r).log ++ (search mem r s).log).length + 7 := by
  obtain ⟨-, hthree, hfront⟩ := two_mul_le_length_log_findStartCode hs
  obtain ⟨hin, hsearch⟩ := le_length_log_findNext_of_some hj
  rw [← front] at hfront
  rw [← search] at hsearch
  rw [List.length_append]
  omega

theorem le_length_log_pass_of_none (hnone : (search mem r s).val = none) :
    3 ≤ ((front mem r).log ++ (search mem r s).log).length ∧
      2 * (r.data 1).length ≤ ((front mem r).log ++ (search mem r s).log).length + 7 := by
  obtain ⟨-, hthree, hfront⟩ := two_mul_le_length_log_findStartCode hs
  have hsearch := le_length_log_findNext_of_none (by omega) hnone
  rw [← front] at hfront
  rw [← search] at hsearch
  rw [List.length_append]
  omega

end Pass

/-- A pass over `m` bytes pays for the chunk that made them out of `b`. -/
theorem sq_le_of_pass {b m cost : ℕ} (hchunk : m ≤ b + 1024) (hthree : 3 ≤ cost)
    (hcost : 2 * m ≤ cost + 7) : m ^ 2 ≤ b ^ 2 + 1024 * cost := by
  by_cases hle : m ≤ b
  · exact (Nat.pow_le_pow_left hle 2).trans (Nat.le_add_right _ _)
  · obtain ⟨d, rfl⟩ := Nat.exists_eq_add_of_le (show b ≤ m by omega)
    have hnew : d * (2 * b + d) ≤ 1024 * cost := by
      by_cases hd : 7 ≤ d
      · exact Nat.mul_le_mul (by omega) (by omega)
      · calc d * (2 * b + d) ≤ 6 * (cost + 7) := Nat.mul_le_mul (by omega) (by omega)
          _ ≤ 1024 * cost := by omega
    calc (b + d) ^ 2 = b ^ 2 + d * (2 * b + d) := by ring
      _ ≤ b ^ 2 + 1024 * cost := by omega

theorem readNaluLoop_comparisons (passes : ℕ) :
    ∀ (mem : ℕ → ℕ → UInt8) (r : FileReader) (nalu : Nalu) {r' : FileReader} {n : Nalu},
      (readNaluLoop mem passes r nalu).val = some (true, r', n) →
      n.buffer.length ^ 2 ≤
        r.buffer.length ^ 2 + 1024 * (readNaluLoop mem passes r nalu).log.length := by
  induction passes with
  | zero => intro mem r nalu r' n h; simp [readNaluLoop] at h
  | succ passes ih =>
      intro mem r nalu r' n h
      have hchunk : (r.data 1).length ≤ r.buffer.length + 1024 := by
        rw [data, List.length_append, List.length_take]
        omega
      cases readNaluLoop_pass mem passes r nalu with
      | refused hs hpass =>
          rw [hpass] at h
          simp at h
      | @cut s j hs hj hpass =>
          obtain ⟨hin, hthree, hcost⟩ := le_length_log_pass_of_some hs hj
          rw [hpass] at h ⊢
          obtain ⟨buffer, -, hnalu⟩ := Option.map_eq_some_iff.mp h
          simp only [Prod.mk.injEq, true_and] at hnalu
          obtain ⟨-, rfl⟩ := hnalu
          dsimp only
          rw [List.length_take_of_le hin]
          exact sq_le_of_pass (hin.trans hchunk) hthree hcost
      | @last s hs hj _ hpass =>
          obtain ⟨hthree, hcost⟩ := le_length_log_pass_of_none hs hj
          rw [hpass] at h ⊢
          simp only [Option.some.injEq, Prod.mk.injEq, true_and] at h
          obtain ⟨-, rfl⟩ := h
          exact sq_le_of_pass hchunk hthree hcost
      | @again s hs hj _ hpass =>
          obtain ⟨hthree, hcost⟩ := le_length_log_pass_of_none hs hj
          have hfirst := sq_le_of_pass hchunk hthree hcost
          rw [hpass] at h ⊢
          have hrest : n.buffer.length ^ 2 ≤ (r.data 1).length ^ 2 + 1024 * _ :=
            ih (fun i ↦ mem (i + 1)) r.refilled (nalu.setStartCodeLen s) h
          apply hrest.trans
          dsimp only
          rw [List.length_append]
          omega

/-- A call that hands out `n` bytes, of which `b` may have been buffered
before, makes at least `(n ^ 2 - b ^ 2) / 1024` comparisons. -/
theorem readNalu_comparisons (mem : ℕ → ℕ → UInt8) (r : FileReader) (nalu : Nalu)
    {r' : FileReader} {n : Nalu} (h : (readNalu mem r nalu).val = some (true, r', n)) :
    n.buffer.length ^ 2 ≤ r.buffer.length ^ 2 + 1024 * (readNalu mem r nalu).log.length :=
  readNaluLoop_comparisons _ mem r nalu h

theorem readNalu_comparisons_five :
    ∃ r' n, (readNalu (fun _ _ ↦ 0) (opened "a" [0, 0, 1, 0x65, 0x88] none) {}).val =
        some (true, r', n) ∧ n.buffer = [0, 0, 1, 0x65, 0x88] ∧
      n.buffer.length ^ 2 ≤ 0 ^ 2 + 1024 *
        (readNalu (fun _ _ ↦ 0) (opened "a" [0, 0, 1, 0x65, 0x88] none) {}).log.length :=
  ⟨_, _, rfl, rfl, readNalu_comparisons (fun _ _ ↦ 0) (opened "a" [0, 0, 1, 0x65, 0x88] none) {}
    rfl⟩

end FileReader

end H264SendReceiver
