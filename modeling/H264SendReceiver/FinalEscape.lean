import H264SendReceiver.EmulationPrevention

/-!
# An escape at the end

A body that ends in zero bytes is written with one `0x03` behind its escaped
form. `getRbsp` takes a `0x03` for an escape only when a byte up to `0x03`
follows it, and says so: as the last byte of an EBSP it stays.
-/

namespace H264SendReceiver.Ebsp

open Emulation

/-- A `0x03` behind the escaped body, one that ends in two zero bytes or any
other, comes back as the last byte of the RBSP. -/
theorem getRbsp_final_escape (behind : ℕ → UInt8) (h : UInt8) (rbsp : Rbsp) {b : List UInt8}
    (hb : 2 ≤ b.length) (hfits : (escape b).length + 2 < 2 ^ 31) :
    (getRbsp behind ⟨h :: (escape b ++ [0x03])⟩ rbsp).val = some (true, ⟨b ++ [0x03]⟩) := by
  obtain ⟨p, q, bs, rfl⟩ := exists_cons_cons hb
  have hcode : escape (p :: q :: bs) ++ [0x03] =
      p :: q :: (escapeFrom (zeroRun p q) bs ++ [0x03]) := by
    rw [escape_cons_cons]
    rfl
  rw [getRbsp_eq_some_iff behind h rbsp (by simp [hcode])]
  refine ⟨?_, p, q, _, hcode, ?_⟩
  · rw [List.length_append, List.length_singleton]
    omega
  · rw [stripFrom_escapeFrom_concat]
    rfl

theorem getRbsp_final_escape_zeros :
    (getRbsp (fun _ ↦ 0) ⟨0x65 :: (escape [0x80, 0x00, 0x00, 0x00] ++ [0x03])⟩ {}).val =
      some (true, ⟨[0x80, 0x00, 0x00, 0x00] ++ [0x03]⟩) :=
  getRbsp_final_escape (fun _ ↦ 0) 0x65 {} (by decide) (by decide)

/-- The shortest body with two zero bytes at its end is not recovered. -/
theorem getRbsp_final_escape_fails :
    ¬ ∀ (behind : ℕ → UInt8) (h : UInt8) (rbsp : Rbsp) (b : List UInt8), 2 ≤ b.length →
      [0x00, 0x00] <:+ b →
      (getRbsp behind ⟨h :: (escape b ++ [0x03])⟩ rbsp).val = some (true, ⟨b⟩) := by
  intro hall
  have hread := hall (fun _ ↦ 0) 0x65 {} [0x00, 0x00] (by decide) List.suffix_rfl
  revert hread
  decide

end H264SendReceiver.Ebsp
