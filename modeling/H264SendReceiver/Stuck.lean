import H264SendReceiver.Reopen

/-!
# Readers that hand out nothing any more

A buffer whose front is no start code, nor the beginning of one, is never
taken away: neither reading on nor closing and opening another file changes
its front. The reader is stuck for good, and only such a reader is.
-/

namespace H264SendReceiver

/-- The front of the buffer is no start code and will never be one. -/
def Stuck (l : List UInt8) : Prop :=
  startCode l = none ∧ ¬ l <+: [0x00, 0x00, 0x01] ∧ ¬ l <+: [0x00, 0x00, 0x00, 0x01]

instance (l : List UInt8) : Decidable (Stuck l) := inferInstanceAs (Decidable (_ ∧ _ ∧ _))

theorem Stuck.startCode_append {l : List UInt8} (h : Stuck l) (t : List UInt8) :
    startCode (l ++ t) = none := by
  obtain ⟨hnone, hthree, hfour⟩ := h
  -- a code at the front either ends in `l` or goes on behind it
  have hcode {c : List UInt8} (hc : c <+: l ++ t) : c <+: l ∨ l <+: c :=
    List.prefix_or_prefix_of_prefix hc (List.prefix_append l t)
  cases hs : startCode (l ++ t) with
  | none => rfl
  | some s =>
      rcases startCode_eq_some hs with rfl | rfl
      · rcases hcode (startCode_eq_three_iff.mp hs) with hc | hc
        · rw [startCode_eq_three_iff.mpr hc] at hnone
          simp at hnone
        · exact absurd hc hthree
      · rcases hcode (startCode_eq_four_iff.mp hs) with hc | hc
        · rw [startCode_eq_four_iff.mpr hc] at hnone
          simp at hnone
        · exact absurd hc hfour

theorem exists_startCode_of_not_stuck {l : List UInt8} (h : ¬ Stuck l) :
    ∃ t : List UInt8, t.length ≤ 4 ∧ (startCode (l ++ t)).isSome := by
  have hrest {c : List UInt8} (hlen : c.length ≤ 4) (hc : (startCode c).isSome) (hl : l <+: c) :
      ∃ t : List UInt8, t.length ≤ 4 ∧ (startCode (l ++ t)).isSome := by
    obtain ⟨t, rfl⟩ := hl
    rw [List.length_append] at hlen
    exact ⟨t, by omega, hc⟩
  by_cases hnone : startCode l = none
  · rw [Stuck, and_iff_right hnone, not_and_or, not_not, not_not] at h
    rcases h with h | h
    · exact hrest (by decide) (by decide) h
    · exact hrest (by decide) (by decide) h
  · refine ⟨[], by simp, ?_⟩
    rwa [List.append_nil, Option.isSome_iff_ne_none]

theorem Stuck.append {l : List UInt8} (h : Stuck l) (t : List UInt8) : Stuck (l ++ t) := by
  by_contra hstuck
  obtain ⟨u, -, hu⟩ := exists_startCode_of_not_stuck hstuck
  rw [List.append_assoc, h.startCode_append] at hu
  simp at hu

namespace FileReader

variable {r : FileReader}

theorem readNalu_of_stuck (h : Stuck r.buffer) (mem : ℕ → ℕ → UInt8) (nalu : Nalu) :
    (readNalu mem r nalu).val = some (false, r.refilled, nalu) := by
  have hdata : Stuck (r.data 1) := h.append _
  have hzeros : r.data 1 ≠ [0, 0, 0] := by
    intro heq
    rw [heq] at hdata
    exact absurd hdata (by decide)
  have hfront : (front mem r).val = none := by
    rw [front, val_findStartCode, if_neg fun hover ↦ hzeros hover.1]
    exact hdata.1
  rw [readNalu, readNaluLoop_succ, Traced.val_bind, hfront]
  rfl

/-- One operation on a stuck reader hands out nothing and keeps the buffer. -/
theorem exec_of_stuck (h : Stuck r.buffer) (D : List UInt8) (op : Op) :
    ∃ r', op.exec D r = some (none, r') ∧ r.buffer <+: r'.buffer := by
  cases op with
  | openReader found =>
      refine ⟨_, rfl, ?_⟩
      cases found <;> simp only [openReader] <;> split_ifs <;> exact List.prefix_rfl
  | readNalu call =>
      refine ⟨r.refilled, ?_, List.prefix_append _ _⟩
      rw [Op.exec, readNalu_of_stuck h]
      rfl
  | close =>
      refine ⟨_, rfl, ?_⟩
      rw [close]
      split <;> exact List.prefix_rfl

theorem run_of_stuck (D : List UInt8) (ops : List Op) :
    ∀ {r : FileReader}, Stuck r.buffer →
      (run D ops r).1 = [] ∧ ∃ r', (run D ops r).2 = some r' ∧ r.buffer <+: r'.buffer := by
  induction ops with
  | nil => intro r _; exact ⟨rfl, r, rfl, List.prefix_rfl⟩
  | cons op ops ih =>
      intro r h
      obtain ⟨r₁, hexec, hbuffer⟩ := exec_of_stuck h D op
      obtain ⟨t, ht⟩ := hbuffer
      have h₁ : Stuck r₁.buffer := by
        rw [← ht]
        exact h.append t
      obtain ⟨hnone, r', hrun, hkept⟩ := ih h₁
      rw [run, hexec]
      exact ⟨hnone, r', hrun, (List.prefix_append _ t).trans (ht ▸ hkept)⟩

theorem openReader_close (hname : r.fileName ≠ "") (D : List UInt8) :
    (r.close.openReader (some D) none).2 =
      ⟨⟨true, D, false, false, none⟩, r.fileName, r.buffer⟩ := by
  cases hopen : r.file.isOpen <;>
    simp [close, Ifstream.close, openReader, Ifstream.openFile, hopen, hname]

/-- A file that brings the rest of a start code. -/
theorem exists_run_of_not_stuck (h : ¬ Stuck r.buffer) (hname : r.fileName ≠ "")
    (hsize : r.buffer.length + 4 < 2 ^ 31) :
    ∃ D ops, (run D ops r).1 ≠ [] := by
  obtain ⟨t, hlen, ht⟩ := exists_startCode_of_not_stuck h
  obtain ⟨s, hs⟩ := Option.isSome_iff_exists.mp ht
  have havail := available_reopened r.fileName r.buffer t
  have hfits : UnitsFit (r.buffer ++ t) := by
    apply unitsFit_of_length
    rw [List.length_append]
    omega
  have htrue : Truthful (fun _ _ ↦ 0) ⟨⟨true, t, false, false, none⟩, r.fileName, r.buffer⟩ :=
    truthful_of_mismatch (fun _ ↦ by decide) _
  obtain ⟨r', p, n, hval, -⟩ :=
    readNalu_split_cons htrue (by rwa [havail]) (havail ▸ annexB.split_of_mark hs) {}
  refine ⟨t, [.close, .openReader true, .readNalu ⟨fun _ _ ↦ 0, {}⟩], ?_⟩
  simp [run, Op.exec, openReader_close hname, hval]

/-- From any state of a reader: no sequence of operations on any file ever
hands out a NALU exactly when the reader is stuck. What it has buffered it
keeps, whatever is read on top. -/
theorem run_eq_nil_iff (r : FileReader) (hname : r.fileName ≠ "")
    (hsize : r.buffer.length + 4 < 2 ^ 31) :
    ((∀ D ops, (run D ops r).1 = []) ↔ Stuck r.buffer) ∧
      (Stuck r.buffer → ∀ D ops, ∃ r', (run D ops r).2 = some r' ∧ r.buffer <+: r'.buffer) := by
  refine ⟨⟨fun h ↦ ?_, fun h D ops ↦ (run_of_stuck D ops h).1⟩,
    fun h D ops ↦ (run_of_stuck D ops h).2⟩
  by_contra hstuck
  obtain ⟨D, ops, hrun⟩ := exists_run_of_not_stuck hstuck hname hsize
  exact hrun (h D ops)

theorem run_eq_nil_iff_two :
    let r : FileReader := { fileName := "a", buffer := [0x00, 0x05] }
    ((∀ D ops, (run D ops r).1 = []) ↔ Stuck r.buffer) ∧
      (Stuck r.buffer → ∀ D ops, ∃ r', (run D ops r).2 = some r' ∧ r.buffer <+: r'.buffer) :=
  run_eq_nil_iff { fileName := "a", buffer := [0x00, 0x05] } (by decide) (by decide)

end FileReader

end H264SendReceiver
