import H264SendReceiver.Program
import Mathlib.Tactic.IntervalCases

/-!
# How many NALUs a file holds

Both start codes end in `00 00 01`, and a search from behind a start code
misses none of the later ones: the NALUs of a file can be counted without
splitting it. In a file that was cut off all NALUs but the last are those of
the whole one.
-/

namespace H264SendReceiver

/-- The number of positions at which `00 00 01` begins. -/
def codeCount (D : List UInt8) : ℕ :=
  (List.range D.length).countP fun i ↦ [0x00, 0x00, 0x01] <+: D.drop i

theorem codeCount_split_at {l : List UInt8} {j : ℕ} (hj : j ≤ l.length) :
    codeCount l = ((List.range j).countP fun i ↦ [0x00, 0x00, 0x01] <+: l.drop i) +
      codeCount (l.drop j) := by
  have hlen : l.length = j + (l.drop j).length := by
    rw [List.length_drop]
    omega
  rw [codeCount, hlen, List.range_add, List.countP_append, List.countP_map, codeCount]
  congr 1
  apply List.countP_congr
  intro i _
  rw [Function.comp_apply, ← List.drop_drop]

/-- A unit has its own start code and no other. -/
theorem prefix_drop_iff {l : List UInt8} {s i : ℕ} (hs : startCode l = some s)
    (hi : i < annexB.cut l s) : [0x00, 0x00, 0x01] <+: l.drop i ↔ i = s - 3 := by
  by_cases hlt : i < s
  · rcases startCode_eq_some hs with rfl | rfl
    · obtain ⟨r, rfl⟩ := startCode_eq_three_iff.mp hs
      interval_cases i <;> simp
    · obtain ⟨r, rfl⟩ := startCode_eq_four_iff.mp hs
      interval_cases i <;> simp
  · have hnone : startCode (l.drop i) = none := annexB.mark_drop_of_lt_cut (by omega) hi
    apply iff_of_false
    · intro h
      rw [startCode_eq_three_iff.mpr h] at hnone
      simp at hnone
    · intro heq
      rcases startCode_eq_some hs with rfl | rfl <;> omega

theorem countP_unit {l : List UInt8} {s : ℕ} (hs : startCode l = some s) :
    ((List.range (annexB.cut l s)).countP fun i ↦ [0x00, 0x00, 0x01] <+: l.drop i) = 1 := by
  have hmem : s - 3 ∈ List.range (annexB.cut l s) := by
    have hle := annexB.le_cut hs
    have hpos := annexB.pos hs
    rw [List.mem_range]
    omega
  rw [← List.count_eq_one_of_mem List.nodup_range hmem, List.count]
  apply List.countP_congr
  intro i hi
  rw [decide_eq_true_eq, prefix_drop_iff hs (List.mem_range.mp hi), beq_iff_eq]

theorem length_split_eq {l : List UInt8} (h : (startCode l).isSome) :
    (annexB.split l).length = codeCount l := by
  induction l using annexB.split_induction with
  | hnone l hs =>
      have hnone : startCode l = none := hs
      simp [hnone] at h
  | hsome l s hs ih =>
      rw [annexB.split_of_mark hs, List.length_cons, codeCount_split_at annexB.cut_le,
        countP_unit hs, Nat.add_comm]
      cases hj : annexB.next l s with
      | none =>
          rw [annexB.cut_of_next_none hj, List.drop_length, annexB.split_nil]
          rfl
      | some j =>
          rw [annexB.cut_of_next hj] at ih ⊢
          rw [ih (annexB.mark_drop_of_next hj)]

namespace FileReader

/-- The loop finds as many NALUs as there are `00 00 01` in the file, and one
of these in each. -/
theorem readLoop_count (fileName : String) {D : List UInt8} (hsize : D.length < 2 ^ 31)
    (hstart : (startCode D).isSome) {mem : ℕ → ℕ → ℕ → UInt8}
    (hmem : ZerosLead D ∨ ∀ c i, mem c i 0 ≠ 0x01) :
    ∃ nalus r', (readLoop mem (D.length + 1) (opened fileName D none) {}).val =
        some (nalus, r') ∧
      nalus.length = codeCount D ∧ ∀ n ∈ nalus, codeCount n.buffer = 1 := by
  obtain ⟨r', hread⟩ := readLoop_opened fileName (unitsFit_of_length hsize) hmem
  refine ⟨_, r', hread, by rw [List.length_map, length_split_eq hstart], fun n hn ↦ ?_⟩
  obtain ⟨u, hu, rfl⟩ := List.mem_map.mp hn
  have hmark : startCode u.2 = some u.1 := annexB.mark_of_mem_split hu
  have hcount := length_split_eq (l := u.2) (by rw [hmark]; rfl)
  rw [annexB.split_of_mem_split hu] at hcount
  exact hcount.symm

theorem readLoop_count_two :
    ∃ D : List UInt8, D = [0, 0, 0, 1, 0x65, 0, 0, 1, 0x41] ∧ ∃ nalus r',
      (readLoop (fun _ _ _ ↦ 0x00) (D.length + 1) (opened "a" D none) {}).val =
        some (nalus, r') ∧
      nalus.length = codeCount D ∧ ∀ n ∈ nalus, codeCount n.buffer = 1 :=
  ⟨_, rfl, readLoop_count "a" (by decide) (by decide) (Or.inr fun _ _ ↦ by decide)⟩

/-- The NALUs of the first `n` bytes of a file, but for the last of them, are
NALUs of the file, from the first one on. -/
theorem readLoop_cut_off (fileName : String) {D : List UInt8} (hsize : D.length < 2 ^ 31) (n : ℕ)
    {mem mem' : ℕ → ℕ → ℕ → UInt8} (hmem : ∀ c i, mem c i 0 ≠ 0x01)
    (hmem' : ∀ c i, mem' c i 0 ≠ 0x01) :
    ∃ nalus r nalus' r',
      (readLoop mem ((D.take n).length + 1) (opened fileName (D.take n) none) {}).val =
        some (nalus, r) ∧
      (readLoop mem' (D.length + 1) (opened fileName D none) {}).val = some (nalus', r') ∧
      nalus.dropLast <+: nalus' := by
  have hshort : (D.take n).length < 2 ^ 31 := (List.length_take_le' n D).trans_lt hsize
  obtain ⟨r, hread⟩ := readLoop_opened fileName (unitsFit_of_length hshort) (Or.inr hmem)
  obtain ⟨r', hread'⟩ := readLoop_opened fileName (unitsFit_of_length hsize) (Or.inr hmem')
  refine ⟨_, r, _, r', hread, hread', ?_⟩
  have hunits := annexB.dropLast_split_prefix (D.take n) (D.drop n)
  rw [List.take_append_drop] at hunits
  rw [← List.map_dropLast]
  exact hunits.map toNalu

theorem readLoop_cut_off_in_code :
    ∃ (D : List UInt8) (n : ℕ), D = [0, 0, 1, 0x65, 0, 0, 1, 0x41, 0, 0, 1, 0x42] ∧ n = 10 ∧
      ∃ nalus r nalus' r',
      (readLoop (fun _ _ _ ↦ 0x00) ((D.take n).length + 1) (opened "a" (D.take n) none) {}).val =
        some (nalus, r) ∧
      (readLoop (fun _ _ _ ↦ 0x00) (D.length + 1) (opened "a" D none) {}).val =
        some (nalus', r') ∧
      nalus.dropLast <+: nalus' :=
  ⟨_, _, rfl, rfl, readLoop_cut_off "a" (by decide) _ (fun _ _ ↦ by decide) fun _ _ ↦ by decide⟩

end FileReader

end H264SendReceiver
