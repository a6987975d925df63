import H264SendReceiver.AnnexB.Chunks

/-!
# One pass of `readNalu`

A pass reads a chunk, looks for a start code at the front of the buffer and
for the next one behind it. It ends the call in one of three ways or goes on
to the next pass.
-/

namespace H264SendReceiver.FileReader

open Memory

/-- The search of a pass for the start code at the front. -/
def front (mem : ℕ → ℕ → UInt8) (r : FileReader) : Traced BufRead (Option ℕ) :=
  findStartCode (peek (r.data 1) (mem 0)) (r.data 1).length

/-- The search of a pass for the start code behind the first `s` bytes. -/
def search (mem : ℕ → ℕ → UInt8) (r : FileReader) (s : ℕ) : Traced BufRead (Option ℕ) :=
  findNext (peek (r.data 1) (mem 0)) (r.data 1).length ((r.data 1).length - s) s

theorem readNaluLoop_succ (mem : ℕ → ℕ → UInt8) (passes : ℕ) (r : FileReader) (nalu : Nalu) :
    readNaluLoop mem (passes + 1) r nalu = front mem r >>= fun found ↦
      match found with
      | none => pure (some (false, r.refilled, nalu))
      | some s => search mem r s >>= fun next ↦
          match next with
          | some j => pure ((eraseFront (r.data 1) (CInt.ofSizeT j).toInt).map fun buffer ↦
              (true, { r.refilled with buffer }, ⟨s, (r.data 1).take j⟩))
          | none =>
              if r.file.avail = [] then
                pure (some (true, { r.refilled with buffer := [] }, ⟨s, r.data 1⟩))
              else readNaluLoop (fun i ↦ mem (i + 1)) passes r.refilled
                (nalu.setStartCodeLen s) := by
  rw [readNaluLoop, readFromFile_eq]
  refine congrArg (front mem r >>= ·) (funext fun found ↦ ?_)
  cases found with
  | none => rfl
  | some s =>
      refine congrArg (search mem r s >>= ·) (funext fun next ↦ ?_)
      cases next with
      | some j =>
          cases herase : eraseFront (r.data 1) (CInt.ofSizeT j).toInt <;>
            simp [refilled, herase, Nalu.setBuffer, Nalu.setStartCodeLen]
      | none => simp [refilled, Nalu.setBuffer, Nalu.setStartCodeLen]

/-- What a pass comes to that has `passes` more behind it. -/
inductive Pass (mem : ℕ → ℕ → UInt8) (passes : ℕ) (r : FileReader) (nalu : Nalu) : Prop where
  | refused (hs : (front mem r).val = none)
      (h : readNaluLoop mem (passes + 1) r nalu =
        ⟨some (false, r.refilled, nalu), (front mem r).log⟩)
  | cut {s j : ℕ} (hs : (front mem r).val = some s) (hj : (search mem r s).val = some j)
      (h : readNaluLoop mem (passes + 1) r nalu =
        ⟨(eraseFront (r.data 1) (CInt.ofSizeT j).toInt).map fun buffer ↦
            (true, { r.refilled with buffer }, ⟨s, (r.data 1).take j⟩),
          (front mem r).log ++ (search mem r s).log⟩)
  /-- The end: everything buffered goes out. -/
  | last {s : ℕ} (hs : (front mem r).val = some s) (hj : (search mem r s).val = none)
      (havail : r.file.avail = [])
      (h : readNaluLoop mem (passes + 1) r nalu =
        ⟨some (true, { r.refilled with buffer := [] }, ⟨s, r.data 1⟩),
          (front mem r).log ++ (search mem r s).log⟩)
  | again {s : ℕ} (hs : (front mem r).val = some s) (hj : (search mem r s).val = none)
      (havail : r.file.avail ≠ [])
      (h : readNaluLoop mem (passes + 1) r nalu =
        let rest := readNaluLoop (fun i ↦ mem (i + 1)) passes r.refilled (nalu.setStartCodeLen s)
        ⟨rest.val, (front mem r).log ++ (search mem r s).log ++ rest.log⟩)

theorem readNaluLoop_pass (mem : ℕ → ℕ → UInt8) (passes : ℕ) (r : FileReader) (nalu : Nalu) :
    Pass mem passes r nalu := by
  have heq := readNaluLoop_succ mem passes r nalu
  cases hs : (front mem r).val with
  | none =>
      rw [Traced.bind_of_val hs] at heq
      exact .refused hs (heq.trans (congrArg (Traced.mk _) (List.append_nil _)))
  | some s =>
      rw [Traced.bind_of_val hs] at heq
      cases hj : (search mem r s).val with
      | some j =>
          simp only [Traced.bind_of_val hj, Traced.val_pure, Traced.log_pure,
            List.append_nil] at heq
          exact .cut hs hj heq
      | none =>
          simp only [Traced.bind_of_val hj] at heq
          by_cases havail : r.file.avail = []
          · simp only [if_pos havail, Traced.val_pure, Traced.log_pure, List.append_nil] at heq
            exact .last hs hj havail heq
          · simp only [if_neg havail, ← List.append_assoc] at heq
            exact .again hs hj havail heq

/-- A call that goes on has taken a byte at least, so that one pass less is
enough from here on. -/
theorem length_avail_refilled_lt {r : FileReader} {passes : ℕ} (havail : r.file.avail ≠ [])
    (hpasses : r.file.avail.length < passes + 1) : r.refilled.file.avail.length < passes := by
  have hpos := List.length_pos_iff.mpr havail
  rw [refilled, Ifstream.avail_afterRead, List.length_drop]
  omega

end H264SendReceiver.FileReader
