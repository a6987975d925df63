import H264SendReceiver.AnnexB.Runs
import H264SendReceiver.EmulationPrevention

/-!
# What `getRbsp` reads

The only test in front of the copy of the first two body bytes is that the
EBSP is not empty. A NALU may be a header byte alone, and then that copy reads
behind the buffer; with two body bytes or more nothing is read outside it.
-/

namespace H264SendReceiver

namespace Ebsp

/-- The call keeps to the bytes it was given, and makes an RBSP of body bytes
in their order. -/
structure ReadsInside (behind : ℕ → UInt8) (e : Ebsp) (rbsp : Rbsp) : Prop where
  in_range : ∀ idx ∈ (getRbsp behind e rbsp).log, idx < e.buffer.length
  of_body : ∃ b : List UInt8, (getRbsp behind e rbsp).val = some (true, ⟨b⟩) ∧
    b.length ≤ e.buffer.length - 1 ∧ b.Sublist e.buffer.tail

theorem readsInside_iff (behind : ℕ → UInt8) {e : Ebsp} (hvalid : e.isValid = true)
    (rbsp : Rbsp) :
    ReadsInside behind e rbsp ↔ 3 ≤ e.buffer.length ∧ e.buffer.length < 2 ^ 31 := by
  have hrange := within_getRbsp_iff behind hvalid rbsp
  obtain ⟨_ | ⟨h, body⟩⟩ := e
  · simp [isValid] at hvalid
  constructor
  · rintro ⟨hin, b, hval, -⟩
    have hlen : 2 ≤ body.length := Nat.le_of_succ_le_succ (hrange.mp hin)
    exact ⟨hrange.mp hin, ((getRbsp_eq_some_iff behind h rbsp hlen).mp hval).1⟩
  · rintro ⟨hlen, hfits⟩
    obtain ⟨p, q, rest, rfl⟩ := exists_cons_cons (Nat.le_of_succ_le_succ hlen)
    have hsub : (p :: q :: Emulation.stripFrom p q rest).Sublist (p :: q :: rest) :=
      ((Emulation.stripFrom_sublist rest p q).cons_cons q).cons_cons p
    refine ⟨hrange.mpr hlen, _, ?_, hsub.length_le, hsub⟩
    exact (getRbsp_eq_some_iff behind h rbsp (by simp)).mpr ⟨hfits, p, q, rest, rfl, rfl⟩

end Ebsp

theorem Nalu.isValid_of_getEbsp {n : Nalu} {ebsp e : Ebsp} (h : n.getEbsp ebsp = (true, e)) :
    e.isValid = true := by
  unfold getEbsp at h
  split at h
  · simp at h
  · rename_i hvalid
    have hlen := (n.isValid_iff.mp (by simpa using hvalid)).2
    rw [Prod.mk.injEq] at h
    rw [← h.2]
    simpa [Ebsp.setBuffer, Ebsp.isValid] using hlen

namespace FileReader

/-- On the EBSP of a NALU that some call of `readNalu` returned, `getRbsp`
reads inside the buffer exactly when there are two body bytes, and fewer than
its index can count. -/
theorem readsInside_of_readNalu_iff (mem : ℕ → ℕ → UInt8) (r : FileReader) (arg : Nalu) :
    ∀ r' nalu, (readNalu mem r arg).val = some (true, r', nalu) →
      ∀ ebsp e, nalu.getEbsp ebsp = (true, e) → ∀ behind rbsp,
        (Ebsp.ReadsInside behind e rbsp ↔ 3 ≤ e.buffer.length ∧ e.buffer.length < 2 ^ 31) :=
  fun _ _ _ _ _ hebsp behind rbsp ↦
    Ebsp.readsInside_iff behind (Nalu.isValid_of_getEbsp hebsp) rbsp

theorem readsInside_of_readNalu_iff_sps :
    Ebsp.ReadsInside (fun _ ↦ 0) ⟨[0x67, 0x42, 0xC0]⟩ {} ↔
      3 ≤ [(0x67 : UInt8), 0x42, 0xC0].length ∧ [(0x67 : UInt8), 0x42, 0xC0].length < 2 ^ 31 :=
  readsInside_of_readNalu_iff (fun _ _ ↦ 0) (opened "a" [0, 0, 1, 0x67, 0x42, 0xC0] none) {}
    ⟨⟨true, [], true, true, none⟩, "a", []⟩ ⟨3, [0, 0, 1, 0x67, 0x42, 0xC0]⟩ (by decide +kernel)
    {} ⟨[0x67, 0x42, 0xC0]⟩ (by decide) (fun _ ↦ 0) {}

/-- The EBSP of an end of sequence unit is one byte. -/
theorem readsInside_of_readNalu_fails :
    ¬ ∀ (fileName : String) (D : List UInt8) (calls : List NaluCall),
      ∀ nalu ∈ delivered (readNalus calls (openReader { fileName } (some D) none).2).val.1,
        ∀ ebsp e, nalu.getEbsp ebsp = (true, e) → ∀ behind rbsp,
          Ebsp.ReadsInside behind e rbsp := by
  intro h
  have hunit := h "a" [0, 0, 1, 0x0A] [⟨fun _ _ ↦ 0, {}⟩] ⟨3, [0, 0, 1, 0x0A]⟩
    (by decide +kernel) {} ⟨[0x0A]⟩ (by decide) (fun _ ↦ 0) {}
  have hlen := ((Ebsp.readsInside_iff (fun _ ↦ 0) (by decide) {}).mp hunit).1
  exact absurd hlen (by decide)

end FileReader

end H264SendReceiver
