import H264SendReceiver.AnnexB.Ebsp

/-!
# Removal is inverse to insertion

`getRbsp` undoes the escaping of every body of two bytes or more, and every
canonical byte string is the escaped form of what `getRbsp` makes of it,
provided the EBSP is shorter than `2 ^ 31` bytes. The index of its loop is an
`int`; on a longer EBSP it is incremented past its range.
-/

namespace H264SendReceiver.Ebsp

open Emulation

theorem escape_cons_cons (p q : UInt8) (bs : List UInt8) :
    escape (p :: q :: bs) = p :: q :: escapeFrom (zeroRun p q) bs := by
  by_cases hp : p = 0 <;> by_cases hq : q = 0 <;> simp [escape, escapeFrom, zeroRun, hp, hq]

theorem exists_cons_cons {b : List UInt8} (hb : 2 ≤ b.length) : ∃ p q bs, b = p :: q :: bs := by
  rcases b with _ | ⟨p, _ | ⟨q, bs⟩⟩
  · simp at hb
  · simp at hb
  · exact ⟨p, q, bs, rfl⟩

theorem getRbsp_eq_some_iff (behind : ℕ → UInt8) (h : UInt8) {e b : List UInt8} (rbsp : Rbsp)
    (he : 2 ≤ e.length) :
    (getRbsp behind ⟨h :: e⟩ rbsp).val = some (true, ⟨b⟩) ↔
      e.length + 1 < 2 ^ 31 ∧ ∃ p q rest, e = p :: q :: rest ∧ b = p :: q :: stripFrom p q rest := by
  obtain ⟨p, q, rest, rfl⟩ := exists_cons_cons he
  rw [val_getRbsp]
  simp only [List.length_cons]
  constructor
  · intro heq
    split at heq
    · rename_i hfits
      simp only [Option.some.injEq, Prod.mk.injEq, Rbsp.mk.injEq, true_and] at heq
      exact ⟨hfits, p, q, rest, rfl, heq.symm⟩
    · simp at heq
  · rintro ⟨hfits, p', q', rest', he, rfl⟩
    simp only [List.cons.injEq] at he
    obtain ⟨rfl, rfl, rfl⟩ := he
    rw [if_pos hfits]

theorem getRbsp_escape_iff (behind : ℕ → UInt8) (h : UInt8) {b : List UInt8} (rbsp : Rbsp)
    (hb : 2 ≤ b.length) :
    (getRbsp behind ⟨h :: escape b⟩ rbsp).val = some (true, ⟨b⟩) ↔
      (escape b).length + 1 < 2 ^ 31 := by
  obtain ⟨p, q, bs, rfl⟩ := exists_cons_cons hb
  rw [escape_cons_cons, getRbsp_eq_some_iff behind h rbsp (by simp)]
  refine and_iff_left ⟨p, q, _, rfl, ?_⟩
  rw [stripFrom_escapeFrom]

theorem exists_getRbsp_iff (behind : ℕ → UInt8) (h : UInt8) {e : List UInt8} (rbsp : Rbsp)
    (he : 2 ≤ e.length) (hcan : Canonical e) :
    (∃ b, (getRbsp behind ⟨h :: e⟩ rbsp).val = some (true, ⟨b⟩) ∧ escape b = e) ↔
      e.length + 1 < 2 ^ 31 := by
  constructor
  · rintro ⟨b, hb, -⟩
    exact ((getRbsp_eq_some_iff behind h rbsp he).mp hb).1
  · intro hfits
    obtain ⟨p, q, rest, rfl⟩ := exists_cons_cons he
    refine ⟨p :: q :: stripFrom p q rest,
      (getRbsp_eq_some_iff behind h rbsp he).mpr ⟨hfits, p, q, rest, rfl, rfl⟩, ?_⟩
    rw [escape_cons_cons, escapeFrom_stripFrom rest.length rest p q le_rfl hcan]

/-- Removal and insertion are inverse to each other exactly on EBSPs shorter
than `2 ^ 31` bytes, and the result never depends on the header byte. -/
theorem getRbsp_bijection (behind : ℕ → UInt8) (h : UInt8) (rbsp : Rbsp) :
    (∀ b : List UInt8, 2 ≤ b.length →
      ((getRbsp behind ⟨h :: escape b⟩ rbsp).val = some (true, ⟨b⟩) ↔
        (escape b).length + 1 < 2 ^ 31)) ∧
    (∀ e : List UInt8, 2 ≤ e.length → Canonical e →
      ((∃ b, (getRbsp behind ⟨h :: e⟩ rbsp).val = some (true, ⟨b⟩) ∧ escape b = e) ↔
        e.length + 1 < 2 ^ 31)) ∧
    ∀ (h' : UInt8) (e : List UInt8), 2 ≤ e.length →
      (getRbsp behind ⟨h :: e⟩ rbsp).val = (getRbsp behind ⟨h' :: e⟩ rbsp).val := by
  refine ⟨fun b hb ↦ getRbsp_escape_iff behind h rbsp hb,
    fun e he hcan ↦ exists_getRbsp_iff behind h rbsp he hcan, fun h' e he ↦ ?_⟩
  obtain ⟨p, q, rest, rfl⟩ := exists_cons_cons he
  rw [val_getRbsp, val_getRbsp]

/-- A body of `2 ^ 31` bytes is not recovered. -/
theorem getRbsp_escape_fails :
    ¬ ∀ (behind : ℕ → UInt8) (h : UInt8) (rbsp : Rbsp) (b : List UInt8), 2 ≤ b.length →
      (getRbsp behind ⟨h :: escape b⟩ rbsp).val = some (true, ⟨b⟩) := by
  intro hall
  have hlen : (List.replicate (2 ^ 31) (0x80 : UInt8)).length = 2 ^ 31 := List.length_replicate
  have hok := (getRbsp_escape_iff (fun _ ↦ 0) 0x65 ⟨[]⟩ (by omega)).mp
    (hall (fun _ ↦ 0) 0x65 ⟨[]⟩ (List.replicate (2 ^ 31) 0x80) (by omega))
  have hlong := length_le_length_escapeFrom (List.replicate (2 ^ 31) 0x80) 0
  rw [hlen] at hlong
  rw [escape] at hok
  omega

/-- Escaping the RBSP gives the EBSP back exactly when the body is one that
escaping can produce. -/
theorem getRbsp_lossless_iff (behind : ℕ → UInt8) (h : UInt8) {e : List UInt8} (rbsp : Rbsp)
    (he : 2 ≤ e.length) (hfits : e.length + 1 < 2 ^ 31) :
    (∃ b, (getRbsp behind ⟨h :: e⟩ rbsp).val = some (true, ⟨b⟩) ∧ escape b = e) ↔
      Canonical e := by
  constructor
  · rintro ⟨b, -, rfl⟩
    exact canonical_escape b
  · exact fun hcan ↦ (exists_getRbsp_iff behind h rbsp he hcan).mpr hfits

theorem getRbsp_lossless_iff_idle :
    (∃ b, (getRbsp (fun _ ↦ 0) ⟨[0x65, 0x00, 0x00, 0x03, 0x04]⟩ {}).val = some (true, ⟨b⟩) ∧
        escape b = [0x00, 0x00, 0x03, 0x04]) ↔ Canonical [0x00, 0x00, 0x03, 0x04] :=
  getRbsp_lossless_iff (fun _ ↦ 0) 0x65 {} (by decide) (by decide)

/-- The RBSP lacks the header and one byte for each escape of the body, and no
more than a third of the body. -/
theorem getRbsp_length (behind : ℕ → UInt8) {e : Ebsp} (rbsp : Rbsp)
    (hlen : 3 ≤ e.buffer.length) (hfits : e.buffer.length < 2 ^ 31) :
    ∃ b : List UInt8, (getRbsp behind e rbsp).val = some (true, ⟨b⟩) ∧
      b.length + escapes e.buffer.tail = e.buffer.length - 1 ∧
      2 * (e.buffer.length - 1) ≤ 3 * b.length := by
  obtain ⟨_ | ⟨h, body⟩⟩ := e
  · simp at hlen
  obtain ⟨p, q, rest, rfl⟩ := exists_cons_cons (Nat.le_of_succ_le_succ hlen)
  have hescapes := length_stripFrom_add_escapes rest p q
  have hthird := two_mul_length_le rest p q
  have hrun := zeroRun_le p q
  refine ⟨p :: q :: stripFrom p q rest, ?_, ?_, ?_⟩
  · rw [val_getRbsp, if_pos (by simpa using hfits)]
  · simp only [List.length_cons, List.tail_cons]
    omega
  · simp only [List.length_cons]
    omega

theorem getRbsp_length_zeros :
    ∃ b : List UInt8, (getRbsp (fun _ ↦ 0) ⟨[0x65, 0x00, 0x00, 0x03, 0x00, 0x00, 0x03, 0x01]⟩
        {}).val = some (true, ⟨b⟩) ∧
      b.length + escapes [0x00, 0x00, 0x03, 0x00, 0x00, 0x03, 0x01] = 8 - 1 ∧
      2 * (8 - 1) ≤ 3 * b.length :=
  getRbsp_length (fun _ ↦ 0) {} (by decide) (by decide)

end H264SendReceiver.Ebsp
