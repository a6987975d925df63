import H264SendReceiver.AnnexB.Checked
import H264SendReceiver.Cursor

/-!
# Reading a stream to its end

The loop of `FuncTestBitStream` reads a number of bits at a time until the end
is reached. The read in front of the end is shorter. With checked arithmetic
the loop has a result for every count from 1 to 32, and for other counts only
where little or nothing is left.
-/

namespace H264SendReceiver

open Bits

namespace BitStream

/-- `while (!isEnd()) readNBits(count)`, for at most `rounds` rounds. -/
def drain? (count : ℕ) : ℕ → BitStream → Option (List CInt × BitStream)
  | 0, _ => none
  | rounds + 1, s =>
      if s.isEnd then some ([], s)
      else do
        let (ret, s) ← s.readNBits? count
        let (rets, s) ← drain? count rounds s
        return (ret :: rets, s)

theorem readNBits?_of_wide {s : BitStream} {i count : ℕ} (hi : i ≤ 8 * s.buffer.length)
    (hwide : 32 < min count (8 * s.buffer.length - i)) : (s.seek i).readNBits? count = none := by
  obtain ⟨left, hleft⟩ : ∃ left, min count (8 * s.buffer.length - i) = left + 1 :=
    ⟨_, (Nat.succ_pred_eq_of_pos (by omega)).symm⟩
  rw [readNBits?]
  simp only [clamp_getRemainBitSize hi, hleft, readNBitsLoop?,
    CInt.shl?_eq_none (show 32 ≤ left by omega)]
  rfl

theorem readNBits?_of_narrow {s : BitStream} {i count : ℕ} (hi : i ≤ 8 * s.buffer.length)
    (hnarrow : min count (8 * s.buffer.length - i) ≤ 32) :
    (s.seek i).readNBits? count =
      some (BitVec.ofNat 32 (value ((s.bits.drop i).take count)),
        s.seek (i + min count (8 * s.buffer.length - i))) := by
  have hvalue := readNBits_value (fun _ _ ↦ 0) hi hnarrow
  have hcursor := (readNBits_cursor (fun _ _ ↦ 0) count hi).1
  have hchecked : (s.seek i).readNBits? count =
      some ((s.seek i).readNBits (fun _ _ ↦ 0) count).val := by
    rw [readNBits?, readNBits]
    simp only [clamp_getRemainBitSize hi]
    exact readNBitsLoop?_eq _ _ hnarrow i 1 0 (by omega) (by omega)
  rw [hchecked, ← hvalue, ← hcursor]

/-- The number of reads of `count` bits that deliver `n` bits. -/
def steps (count n : ℕ) : ℕ := (n + count - 1) / count

theorem steps_zero (count : ℕ) : steps count 0 = 0 := by
  rw [steps, Nat.zero_add]
  cases count with
  | zero => rfl
  | succ count => exact Nat.div_eq_of_lt (by omega)

theorem steps_of_pos {count n : ℕ} (hcount : 1 ≤ count) (hn : 0 < n) :
    steps count n = steps count (n - min count n) + 1 := by
  by_cases hle : count ≤ n
  · rw [Nat.min_eq_left hle, steps, steps,
      show n + count - 1 = n - count + count - 1 + count by omega,
      Nat.add_div_right _ hcount]
  · rw [Nat.min_eq_right (by omega), Nat.sub_self, steps_zero, steps]
    exact Nat.div_eq_of_lt_le (by omega) (by omega)

/-- The values of the groups of `count` bits. -/
def groups (count : ℕ) (u : List Bool) : List CInt :=
  (List.range (steps count u.length)).map fun j ↦
    BitVec.ofNat 32 (value ((u.drop (count * j)).take count))

theorem groups_of_pos {count : ℕ} {u : List Bool} (hcount : 1 ≤ count) (hu : 0 < u.length) :
    groups count u =
      BitVec.ofNat 32 (value (u.take count)) :: groups count (u.drop (min count u.length)) := by
  rw [groups, steps_of_pos hcount hu, List.range_succ_eq_map, List.map_cons, List.map_map,
    Nat.mul_zero, List.drop_zero, groups, List.length_drop]
  congr 1
  apply List.map_congr_left
  intro j _
  have hdrop : u.drop (count * (j + 1)) = (u.drop (min count u.length)).drop (count * j) := by
    rw [List.drop_drop, Nat.mul_succ, List.drop_eq_drop_iff]
    omega
  exact congrArg (fun v ↦ BitVec.ofNat 32 (value (v.take count))) hdrop

theorem groups_nil (count : ℕ) : groups count [] = [] := by
  rw [groups, List.length_nil, steps_zero]
  rfl

/-- The loop needs a round for each group and one to see the end. -/
theorem drain?_seek {count : ℕ} (hcount : 1 ≤ count) {s : BitStream} (rounds : ℕ) :
    ∀ i, i ≤ 8 * s.buffer.length → min count (8 * s.buffer.length - i) ≤ 32 →
      drain? count rounds (s.seek i) =
        if steps count (8 * s.buffer.length - i) < rounds then
          some (groups count (s.bits.drop i), s.seek (8 * s.buffer.length))
        else none := by
  induction rounds with
  | zero => intro i _ _; rfl
  | succ rounds ih =>
      intro i hi hnarrow
      rw [drain?, isEnd_seek hi]
      by_cases hend : i = 8 * s.buffer.length
      · have hnil : s.bits.drop i = [] := List.drop_eq_nil_of_le (by rw [length_bits]; omega)
        rw [if_pos (decide_eq_true hend), hnil, groups_nil, hend, Nat.sub_self, steps_zero,
          if_pos (Nat.succ_pos _)]
      · have hlen : (s.bits.drop i).length = 8 * s.buffer.length - i := by
          rw [List.length_drop, length_bits]
        have hgroups := groups_of_pos (u := s.bits.drop i) hcount (by omega)
        have hrest := ih (i + min count (8 * s.buffer.length - i)) (by omega) (by omega)
        rw [hlen, List.drop_drop] at hgroups
        rw [if_neg (by simpa using hend), readNBits?_of_narrow hi hnarrow,
          steps_of_pos hcount (show 0 < 8 * s.buffer.length - i by omega), hgroups]
        simp only [Option.bind_eq_bind, Option.bind_some, hrest, Option.pure_def,
          Nat.sub_add_eq, Nat.add_lt_add_iff_right]
        split <;> rfl

/-- A count of zero makes no progress, and a wide one shifts too far. -/
theorem drain?_eq_none {count : ℕ} {s : BitStream} {i : ℕ} (hi : i < 8 * s.buffer.length)
    (hbad : count = 0 ∨ 32 < min count (8 * s.buffer.length - i)) (rounds : ℕ) :
    drain? count rounds (s.seek i) = none := by
  induction rounds with
  | zero => rfl
  | succ rounds ih =>
      rw [drain?, isEnd_seek hi.le, if_neg (by simpa using hi.ne)]
      rcases hbad with rfl | hwide
      · rw [readNBits?_of_narrow hi.le (by omega)]
        simp only [Nat.zero_min, Nat.add_zero, Option.bind_eq_bind, Option.bind_some, ih,
          Option.bind_none]
      · rw [readNBits?_of_wide hi.le hwide]
        rfl

theorem drain?_end (count rounds : ℕ) (s : BitStream) :
    drain? count (rounds + 1) (s.seek (8 * s.buffer.length)) =
      some ([], s.seek (8 * s.buffer.length)) := by
  rw [drain?, isEnd_seek le_rfl, if_pos (decide_eq_true rfl)]

theorem drain?_seek_iff {s : BitStream} {i : ℕ} (count : ℕ) (hi : i ≤ 8 * s.buffer.length) :
    ((∃ rounds x, (s.seek i).drain? count rounds = some x) ↔
        s.bits.drop i = [] ∨ 1 ≤ count ∧ min count (s.bits.drop i).length ≤ 32) ∧
      ∀ rounds x, (s.seek i).drain? count rounds = some x →
        x.1 = groups count (s.bits.drop i) ∧ x.2.unread = [] := by
  have hlen : (s.bits.drop i).length = 8 * s.buffer.length - i := by
    rw [List.length_drop, length_bits]
  have hbehind : (s.seek (8 * s.buffer.length)).unread = [] := by
    rw [unread_seek, ← length_bits, List.drop_length]
  by_cases hend : i = 8 * s.buffer.length
  · have hnil : s.bits.drop i = [] := List.eq_nil_of_length_eq_zero (by omega)
    rw [hnil, groups_nil, hend]
    refine ⟨iff_of_true ⟨1, _, drain?_end count 0 s⟩ (Or.inl rfl), fun rounds x hx ↦ ?_⟩
    cases rounds with
    | zero => simp [drain?] at hx
    | succ rounds =>
        rw [drain?_end, Option.some.injEq] at hx
        rw [← hx]
        exact ⟨rfl, hbehind⟩
  · have hne : s.bits.drop i ≠ [] := fun hnil ↦ by simp [hnil] at hlen; omega
    rw [or_iff_right hne, hlen]
    by_cases hgood : 1 ≤ count ∧ min count (8 * s.buffer.length - i) ≤ 32
    · have hdrain := fun rounds ↦ drain?_seek hgood.1 rounds i hi hgood.2
      refine ⟨iff_of_true ⟨_, _, (hdrain _).trans (if_pos (Nat.lt_succ_self _))⟩ hgood,
        fun rounds x hx ↦ ?_⟩
      rw [hdrain] at hx
      split at hx
      · rw [← Option.some.inj hx]
        exact ⟨rfl, hbehind⟩
      · simp at hx
    · have hlt : i < 8 * s.buffer.length := by omega
      have hnone := drain?_eq_none hlt
        (show count = 0 ∨ 32 < min count (8 * s.buffer.length - i) by omega)
      refine ⟨iff_of_false ?_ hgood, fun rounds x hx ↦ ?_⟩
      · rintro ⟨rounds, x, hx⟩
        simp [hnone] at hx
      · simp [hnone] at hx

end BitStream

namespace ReadCall

open BitStream

/-- From every position the loop ends by defined operations exactly when
nothing is left, or the count is positive and asks for at most 32 of the bits
that are left; its results are then the values of the groups of bits, and
nothing is left behind them. -/
theorem drain?_run_iff (wide : CInt → ℕ → CInt) (buffer : List UInt8)
    (h : buffer.length < 2 ^ 61) (cs : List ReadCall) (count : ℕ) :
    let s := (run wide cs (ofBuffer buffer h)).val
    ((∃ rounds x, s.drain? count rounds = some x) ↔
        s.unread = [] ∨ 1 ≤ count ∧ min count s.unread.length ≤ 32) ∧
      ∀ rounds x, s.drain? count rounds = some x →
        x.1 = groups count s.unread ∧ x.2.unread = [] := by
  obtain ⟨i, hi, hrun⟩ := run_ofBuffer wide h cs
  simp only [hrun, unread_seek]
  exact drain?_seek_iff count hi

theorem drain?_run_iff_short :
    let s := (run (fun _ _ ↦ 0) [.readNBits 3] (ofBuffer [0x67, 0x01] (by decide))).val
    ((∃ rounds x, s.drain? 5 rounds = some x) ↔
        s.unread = [] ∨ 1 ≤ 5 ∧ min 5 s.unread.length ≤ 32) ∧
      ∀ rounds x, s.drain? 5 rounds = some x → x.1 = groups 5 s.unread ∧ x.2.unread = [] :=
  drain?_run_iff (fun _ _ ↦ 0) [0x67, 0x01] (by decide) [.readNBits 3] 5

end ReadCall

end H264SendReceiver
