import H264SendReceiver.AnnexB.Runs

/-!
# The reader splits its file

Reading in chunks gives the units of the whole file. The byte behind the
buffered data is taken to be no `01` here.
-/

namespace H264SendReceiver.FileReader

/-- Calls on a freshly opened reader return the units of the file in order
and then refuse, leaving the argument as it is. -/
theorem readNalus_split (fileName : String) (hname : fileName ≠ "") (D : List UInt8)
    (hD : D.length < 2 ^ 31) (calls : List NaluCall)
    (hmem : ∀ call ∈ calls, ∀ i, call.mem i 0 ≠ 0x01) :
    (openReader { fileName } (some D) none).1 = true ∧
    ∃ as r', (readNalus calls (openReader { fileName } (some D) none).2).val = (as, some r') ∧
      as = answers (annexB.split D) calls ∧
      ((startCode D).isSome → (annexB.split D).length ≤ calls.length →
        ((delivered as).map Nalu.buffer).flatten = D) := by
  rw [openReader_new hname]
  have hrun := readNalus_eq calls (opened fileName D none)
  rw [available_opened] at hrun
  obtain ⟨r', hval⟩ := hrun (unitsFit_of_length hD) (Or.inr hmem)
  refine ⟨rfl, _, r', hval, rfl, fun hstart hcalls ↦ ?_⟩
  rw [delivered_answers, List.take_of_length_le hcalls, List.map_map]
  exact annexB.flatten_split hstart

theorem readNalus_split_two :
    (openReader { fileName := "a" } (some [0, 0, 1, 0x41, 0, 0, 0, 1, 0x42]) none).1 = true ∧
    ∃ as r', (readNalus (List.replicate 3 ⟨fun _ _ ↦ 0, {}⟩)
        (openReader { fileName := "a" } (some [0, 0, 1, 0x41, 0, 0, 0, 1, 0x42]) none).2).val =
          (as, some r') ∧
      as = answers (annexB.split [0, 0, 1, 0x41, 0, 0, 0, 1, 0x42])
        (List.replicate 3 ⟨fun _ _ ↦ 0, {}⟩) ∧
      ((startCode [0, 0, 1, 0x41, 0, 0, 0, 1, 0x42]).isSome →
        (annexB.split [0, 0, 1, 0x41, 0, 0, 0, 1, 0x42]).length ≤
          (List.replicate 3 (⟨fun _ _ ↦ 0, {}⟩ : NaluCall)).length →
        ((delivered as).map Nalu.buffer).flatten = [0, 0, 1, 0x41, 0, 0, 0, 1, 0x42]) :=
  readNalus_split "a" (by decide) _ (by decide) _ fun _ ↦ mismatch_of_mem_replicate

end H264SendReceiver.FileReader
