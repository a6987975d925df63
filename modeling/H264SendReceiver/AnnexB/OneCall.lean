import H264SendReceiver.AnnexB.Pass

/-!
# What a call of `readNalu` returns

A pass works on a prefix of the available bytes. Under `Truthful` it finds on
the prefix what there is to find on all of them, or nothing yet.
-/

namespace H264SendReceiver.FileReader

variable {mem : ℕ → ℕ → UInt8} {r : FileReader}

theorem data_eq_available {k : ℕ} (h : r.file.avail.length ≤ 1024 * k) :
    r.data k = r.available := by
  rw [data, available, List.take_of_length_le h]

theorem four_le_length_data {k : ℕ} (h : ¬ r.file.avail.length ≤ 1024 * (k + 1)) :
    4 ≤ (r.data (k + 1)).length := by
  simp only [data, List.length_append, List.length_take]
  omega

theorem startCode_data (r : FileReader) (k : ℕ) :
    startCode (r.data (k + 1)) = startCode r.available := by
  by_cases h : r.file.avail.length ≤ 1024 * (k + 1)
  · rw [data_eq_available h]
  · rw [← r.data_append (k + 1), startCode_of_four_le (four_le_length_data h)]

theorem Truthful.val_front (h : Truthful mem r) :
    (front mem r).val = startCode r.available := by
  rw [front, val_findStartCode, if_neg, startCode_data r 0]
  rintro ⟨hzeros, hbyte⟩
  have hmore : ¬ r.file.avail.length ≤ 1024 * 1 := fun hle ↦ by
    have hhead := h 0 hbyte (Or.inl hzeros)
    simp [List.drop_eq_nil_of_le hle] at hhead
  have hlen := four_le_length_data (k := 0) hmore
  simp [hzeros] at hlen

theorem next_available_of_data {k s j : ℕ} (h : annexB.next (r.data k) s = some j) :
    annexB.next r.available s = some j := by
  rw [← r.data_append k]
  exact annexB.next_append h _

theorem next_available_of_zeroTail {k s : ℕ} (hnone : annexB.next (r.data k) s = none)
    (hzero : ZeroTail (r.data k) s)
    (hone : (r.file.avail.drop (1024 * k)).head? = some 0x01) :
    annexB.next r.available s = some ((r.data k).length - 3) := by
  obtain ⟨hs, hzeros⟩ := hzero
  obtain ⟨rest, hrest⟩ : ∃ rest, r.file.avail.drop (1024 * k) = 0x01 :: rest := by
    cases hdrop : r.file.avail.drop (1024 * k) with
    | nil => simp [hdrop] at hone
    | cons b rest => exact ⟨rest, by rw [hdrop] at hone; rw [Option.some.inj hone]⟩
  rw [← r.data_append k, hrest]
  refine annexB.next_eq_some_iff.mpr ⟨by omega, ?_, fun i hsi hi ↦ ?_⟩
  · have hcode : startCode ([0, 0, 0] ++ 0x01 :: rest) = some 4 :=
      startCode_eq_four_iff.mpr ⟨rest, rfl⟩
    change (startCode _).isSome = true
    rw [List.drop_append_of_le_length (by omega), hzeros, hcode]
    rfl
  · change startCode _ = none
    rw [List.drop_append_of_le_length (by omega),
      startCode_of_four_le (by rw [List.length_drop]; omega)]
    exact annexB.next_eq_none_iff.mp hnone i hsi

/-- A cut made on the data is the cut of all available bytes. -/
theorem Truthful.search_some (h : Truthful mem r) {s j : ℕ}
    (hs : startCode r.available = some s) (hj : (search mem r s).val = some j) :
    annexB.next r.available s = some j ∧ j ≤ (r.data 1).length := by
  have hcode : startCode (r.data 1) = some s := (startCode_data r 0).trans hs
  have hle := annexB.le_length hcode
  rw [search, val_findNext _ _ _ _ (by omega)] at hj
  cases hnext : annexB.next (r.data 1) s with
  | some i =>
      rw [hnext, Option.some_or] at hj
      obtain rfl := Option.some.inj hj
      exact ⟨next_available_of_data hnext, (annexB.lt_length_of_next hnext).le⟩
  | none =>
      rw [hnext, Option.none_or] at hj
      split at hj
      · -- the search took the byte behind the data; the file has it there
        rename_i hz
        obtain rfl := Option.some.inj hj
        have hhead := h 0 hz.2 (Or.inr ⟨s, hcode, hnext, hz.1⟩)
        exact ⟨next_available_of_zeroTail hnext hz.1 hhead, by omega⟩
      · simp at hj

theorem search_none {s : ℕ} (hs : s ≤ (r.data 1).length) (hj : (search mem r s).val = none) :
    annexB.next (r.data 1) s = none := by
  rw [search, val_findNext _ _ _ _ (by omega), Option.or_eq_none_iff] at hj
  exact hj.1

theorem eraseFront_of_fits {l : List UInt8} {n : ℕ} (h : n ≤ l.length) (hn : n < 2 ^ 31) :
    eraseFront l (CInt.ofSizeT n).toInt = some (l.drop n) := by
  rw [CInt.toInt_ofSizeT hn, eraseFront, if_pos ⟨by omega, by omega⟩, Int.toNat_natCast]

/-- Without a start code at the front the call ends in its first pass. -/
theorem readNalu_of_none (h : Truthful mem r) (hnone : startCode r.available = none)
    (nalu : Nalu) :
    ∃ r', (readNalu mem r nalu).val = some (false, r', nalu) ∧ r.Advances 1 0 r' := by
  have hfront := h.val_front.trans hnone
  refine ⟨r.refilled, ?_, .one r (Nat.zero_le _)⟩
  rw [readNalu, readNaluLoop_succ, Traced.val_bind, hfront]
  rfl

theorem readNaluLoop_of_some (passes : ℕ) :
    ∀ (mem : ℕ → ℕ → UInt8) (r : FileReader) (nalu : Nalu) (s : ℕ),
      r.file.avail.length < passes → Truthful mem r → CutFits r.available →
      startCode r.available = some s →
      ∃ r' p, (readNaluLoop mem passes r nalu).val =
          some (true, r', ⟨s, r.available.take (annexB.cut r.available s)⟩) ∧
        r.Advances p (annexB.cut r.available s) r' := by
  induction passes with
  | zero =>
      intro mem r nalu s hpasses
      omega
  | succ passes ih =>
      intro mem r nalu s hpasses htrue hfits hs
      have hcode : startCode (r.data 1) = some s := (startCode_data r 0).trans hs
      have hle : s ≤ (r.data 1).length := annexB.le_length hcode
      have hfront := htrue.val_front.trans hs
      cases readNaluLoop_pass mem passes r nalu with
      | refused hnone h => simp [hfront] at hnone
      | cut hfound hj h =>
          -- cut off what lies in front of the next start code
          obtain rfl := Option.some.inj (hfront.symm.trans hfound)
          obtain ⟨hnext, hlen⟩ := htrue.search_some hs hj
          rw [h, eraseFront_of_fits hlen (hfits s _ hs hnext), annexB.cut_of_next hnext,
            ← r.data_append 1, List.take_append_of_le_length hlen]
          exact ⟨_, 1, rfl, .one r hlen⟩
      | last hfound hj havail h =>
          -- nothing more comes in: what is buffered is the last unit
          obtain rfl := Option.some.inj (hfront.symm.trans hfound)
          have hall : r.data 1 = r.available := data_eq_available (by simp [havail])
          have hnone := search_none hle hj
          rw [hall] at hnone
          have hdrop := Advances.one r le_rfl
          rw [List.drop_length] at hdrop
          rw [h, annexB.cut_of_next_none hnone, List.take_length, ← hall]
          exact ⟨_, 1, rfl, hdrop⟩
      | again hfound hj havail h =>
          obtain rfl := Option.some.inj (hfront.symm.trans hfound)
          have hstep := ih (fun i ↦ mem (i + 1)) r.refilled (nalu.setStartCodeLen s) s
            (length_avail_refilled_lt havail hpasses) htrue.refilled
          rw [available_refilled] at hstep
          obtain ⟨r', p, hval, hadv⟩ := hstep hfits hs
          rw [h]
          exact ⟨r', p + 1, hval, hadv.refilled havail⟩

/-- The call returns the first unit of the available bytes. -/
theorem readNalu_of_some (h : Truthful mem r) (hfits : CutFits r.available) {s : ℕ}
    (hs : startCode r.available = some s) (nalu : Nalu) :
    ∃ r' p, (readNalu mem r nalu).val =
        some (true, r', ⟨s, r.available.take (annexB.cut r.available s)⟩) ∧
      r.Advances p (annexB.cut r.available s) r' := by
  have hle := r.file.avail_prefix_unread.length_le
  exact readNaluLoop_of_some _ mem r nalu s (by omega) h hfits hs

end H264SendReceiver.FileReader
