import H264SendReceiver.Program

/-!
# Writing delivered NALUs to a new file

NALUs taken from any files, in any order, come back from the file that holds
them one after the other, unless a start code of three bytes follows a zero
byte: that byte then becomes part of the start code.
-/

namespace H264SendReceiver

/-- A start code that begins in front of another one and reaches into it. -/
theorem startCode_append_iff {l t : List UInt8} (hl : l ≠ []) (hnone : startCode l = none)
    (ht : (startCode t).isSome) :
    (startCode (l ++ t)).isSome ↔ l = [0] ∧ startCode t = some 3 := by
  by_cases hlong : 4 ≤ l.length
  · rw [startCode_of_four_le hlong, hnone]
    apply iff_of_false (by simp)
    intro h
    rw [h.1] at hlong
    simp at hlong
  have hthree : ¬ [0x00, 0x00, 0x01] <+: l :=
    fun h ↦ by simp [startCode_eq_three_iff.mpr h] at hnone
  obtain ⟨s, hs⟩ := Option.isSome_iff_exists.mp ht
  rw [startCode_isSome_iff, hs]
  rcases startCode_eq_some hs with rfl | rfl
  · obtain ⟨r, rfl⟩ := startCode_eq_three_iff.mp hs
    rcases l with _ | ⟨a, _ | ⟨b, _ | ⟨c, _ | ⟨d, l⟩⟩⟩⟩
    · simp at hl
    · simp [eq_comm]
    · simp
    · simpa using hthree
    · simp at hlong
  · obtain ⟨r, rfl⟩ := startCode_eq_four_iff.mp hs
    rcases l with _ | ⟨a, _ | ⟨b, _ | ⟨c, _ | ⟨d, l⟩⟩⟩⟩
    · simp at hl
    · simp
    · simp
    · simpa using hthree
    · simp at hlong

theorem no_code_in_unit {u : ℕ × List UInt8} (hu : annexB.split u.2 = [u]) {i : ℕ} (hi : u.1 ≤ i) :
    startCode (u.2.drop i) = none :=
  annexB.next_eq_none_iff.mp (annexB.next_of_split_eq hu).2 i hi

theorem lt_length_of_last {l : List UInt8} {s : ℕ} (hs : startCode l = some s)
    (hlast : l.getLast? = some 0) : s < l.length := by
  have hle : s ≤ l.length := annexB.le_length hs
  apply lt_of_le_of_ne hle
  intro heq
  rcases startCode_eq_some hs with rfl | rfl
  · rw [← (startCode_eq_three_iff.mp hs).eq_of_length heq] at hlast
    simp at hlast
  · rw [← (startCode_eq_four_iff.mp hs).eq_of_length heq] at hlast
    simp at hlast

section Append

variable {u : ℕ × List UInt8} (hu : annexB.split u.2 = [u]) {rest : List UInt8}
  (hrest : (startCode rest).isSome)
include hu hrest

/-- A start code that begins in a unit and reaches into the next one begins
with the last byte of the unit. -/
theorem code_at_seam {i : ℕ} (hi : u.1 ≤ i) (hlt : i < u.2.length)
    (hcross : (startCode (u.2.drop i ++ rest)).isSome) :
    i + 1 = u.2.length ∧ u.2.getLast? = some 0 ∧ startCode rest = some 3 := by
  have hne : u.2.drop i ≠ [] := by simpa using hlt
  obtain ⟨hzero, hthree⟩ := (startCode_append_iff hne (no_code_in_unit hu hi) hrest).mp hcross
  have hlast := List.getLast?_drop (l := u.2) (i := i)
  have hlen := congrArg List.length hzero
  rw [hzero, if_neg (by omega)] at hlast
  rw [List.length_drop, List.length_singleton] at hlen
  exact ⟨by omega, hlast.symm, hthree⟩

theorem split_unit_append (hsep : ¬ (u.2.getLast? = some 0 ∧ startCode rest = some 3)) :
    annexB.split (u.2 ++ rest) = u :: annexB.split rest := by
  have hmark := (annexB.next_of_split_eq hu).1
  apply annexB.split_block (annexB.mark_append hmark rest) (annexB.le_length hmark)
    (Or.inr hrest)
  intro i hi hlt
  rw [List.drop_append_of_le_length hlt.le, ← Option.not_isSome_iff_eq_none]
  exact fun hcross ↦ hsep (code_at_seam hu hrest hi hlt hcross).2

/-- The zero byte at the end of a unit goes to a three-byte start code. -/
theorem split_unit_append_zero (hlast : u.2.getLast? = some 0) (hthree : startCode rest = some 3) :
    annexB.split (u.2 ++ rest) = (u.1, u.2.dropLast) :: annexB.split (0 :: rest) := by
  have hmark := (annexB.next_of_split_eq hu).1
  have hlen := lt_length_of_last hmark hlast
  have hmove : u.2 ++ rest = u.2.dropLast ++ 0 :: rest := by
    have hconcat := List.dropLast_append_getLast? 0 hlast
    rw [← List.singleton_append, ← List.append_assoc, hconcat]
  have hfour : (startCode ([0] ++ rest)).isSome :=
    (startCode_append_iff (by simp) (by decide) hrest).mpr ⟨rfl, hthree⟩
  rw [hmove]
  refine annexB.split_block ?_ (by rw [List.length_dropLast]; omega) (Or.inr hfour)
    fun i hi hlt ↦ ?_
  · rw [← hmove]
    exact annexB.mark_append hmark rest
  · rw [List.length_dropLast] at hlt
    rw [← hmove, List.drop_append_of_le_length (by omega), ← Option.not_isSome_iff_eq_none]
    intro hcross
    have hseam := (code_at_seam hu hrest hi (by omega) hcross).1
    omega

end Append

/-- Nothing of `u` goes to the start code of `v`. -/
def Separate (u v : ℕ × List UInt8) : Prop := ¬ (u.2.getLast? = some 0 ∧ v.1 = 3)

theorem split_flatten_iff {us : List (ℕ × List UInt8)} (hus : ∀ u ∈ us, annexB.split u.2 = [u]) :
    annexB.split (us.map Prod.snd).flatten = us ↔ us.IsChain Separate := by
  induction us with
  | nil => simp
  | cons u us ih =>
      rw [List.forall_mem_cons] at hus
      cases us with
      | nil => simpa using hus.1
      | cons v us =>
          have hv := (annexB.next_of_split_eq (hus.2 v (List.mem_cons_self ..))).1
          have hcode : startCode ((v :: us).map Prod.snd).flatten = some v.1 := by
            rw [List.map_cons, List.flatten_cons]
            exact annexB.mark_append hv _
          have hsome : (startCode ((v :: us).map Prod.snd).flatten).isSome := by rw [hcode]; rfl
          rw [List.map_cons, List.flatten_cons, List.isChain_cons_cons, ← ih hus.2]
          by_cases hsep : Separate u v
          · have hrest : ¬ (u.2.getLast? = some 0 ∧
                startCode ((v :: us).map Prod.snd).flatten = some 3) := by
              rw [hcode, Option.some.injEq]
              exact hsep
            rw [and_iff_right hsep, split_unit_append hus.1 hsome hrest, List.cons.injEq,
              and_iff_right rfl]
          · -- the unit comes back without its last byte
            obtain ⟨hlast, hthree⟩ := not_not.mp hsep
            rw [hthree] at hcode
            rw [split_unit_append_zero hus.1 hsome hlast hcode]
            refine iff_of_false (fun heq ↦ ?_) fun h ↦ hsep h.1
            have hunit := congrArg (fun w ↦ w.2.length) (List.cons.inj heq).1
            have hpos := lt_length_of_last (annexB.next_of_split_eq hus.1).1 hlast
            simp only [List.length_dropLast] at hunit
            omega

namespace FileReader

theorem toNalu_injective : Function.Injective toNalu := by
  rintro ⟨s, l⟩ ⟨s', l'⟩ h
  simpa [toNalu] using h

/-- NALUs taken from any files and written one after the other are read back
as they were exactly when no three-byte start code follows a zero byte. -/
theorem readLoop_remux_iff (fileName : String) {us : List (ℕ × List UInt8)}
    (hus : ∀ u ∈ us, ∃ D, u ∈ annexB.split D)
    (hsize : (us.map Prod.snd).flatten.length < 2 ^ 31) {mem : ℕ → ℕ → ℕ → UInt8}
    (hmem : ∀ c i, mem c i 0 ≠ 0x01) :
    (∃ r', (readLoop mem ((us.map Prod.snd).flatten.length + 1)
        (opened fileName (us.map Prod.snd).flatten none) {}).val = some (us.map toNalu, r')) ↔
      us.IsChain Separate := by
  have hunits : ∀ u ∈ us, annexB.split u.2 = [u] := by
    intro u hu
    obtain ⟨D, hD⟩ := hus u hu
    exact annexB.split_of_mem_split hD
  obtain ⟨r', hread⟩ := readLoop_opened fileName (unitsFit_of_length hsize) (Or.inr hmem)
  rw [hread, ← split_flatten_iff hunits]
  simp only [Option.some.injEq, Prod.mk.injEq, exists_and_left, exists_eq', and_true]
  exact (List.map_injective_iff.mpr toNalu_injective).eq_iff

theorem readLoop_remux_iff_zero :
    ∃ us : List (ℕ × List UInt8), us = [(4, [0, 0, 0, 1, 0x65, 0]), (3, [0, 0, 1, 0x41])] ∧
      ((∃ r', (readLoop (fun _ _ _ ↦ 0x00) ((us.map Prod.snd).flatten.length + 1)
          (opened "a" (us.map Prod.snd).flatten none) {}).val = some (us.map toNalu, r')) ↔
        us.IsChain Separate) := by
  refine ⟨_, rfl, readLoop_remux_iff "a" ?_ (by decide) fun _ _ ↦ by decide⟩
  simp only [List.forall_mem_cons, List.not_mem_nil, false_implies, implies_true, and_true]
  exact ⟨⟨[0, 0, 0, 1, 0x65, 0], by decide +kernel⟩, ⟨[0, 0, 1, 0x41], by decide +kernel⟩⟩

end FileReader

end H264SendReceiver
