import H264SendReceiver.AnnexB.ByteStream
import H264SendReceiver.AnnexB.Sessions

/-!
# Failing reads

`readFromFile` answers `false` for the end of the file, for a failed read and
for a closed file, and `readNalu` takes each for the end: what is buffered
then goes out as the last unit. It is one exactly when the bytes that got
lost begin with the next start code, or there are none.
-/

namespace H264SendReceiver.FileReader

/-- The call reads what it can of the next unit and gets all of it. -/
def Whole (r : FileReader) : Prop :=
  r.available = r.remaining ∨ startCode r.available = none ∨
    ∃ s, startCode r.available = some s ∧
      ((annexB.next r.available s).isSome ∨
        annexB.next r.remaining s = some r.available.length)

theorem next_of_next_available {r : FileReader} {s j : ℕ}
    (h : annexB.next r.available s = some j) : annexB.next r.remaining s = some j := by
  obtain ⟨t, ht⟩ := r.available_prefix_remaining
  rw [← ht]
  exact annexB.next_append h t

theorem whole_iff_cut {r : FileReader} {s : ℕ} (hs : startCode r.available = some s) :
    r.Whole ↔ annexB.cut r.available s = annexB.cut r.remaining s := by
  cases hj : annexB.next r.available s with
  | some j =>
      rw [annexB.cut_of_next hj, annexB.cut_of_next (next_of_next_available hj)]
      exact iff_of_true (Or.inr (Or.inr ⟨s, hs, Or.inl (by rw [hj]; rfl)⟩)) rfl
  | none =>
      rw [annexB.cut_of_next_none hj]
      constructor
      · rintro (heq | hnone | ⟨s', hs', hfound | hnext⟩)
        · rw [← heq, annexB.cut_of_next_none hj]
        · simp [hs] at hnone
        · obtain rfl := Option.some.inj (hs.symm.trans hs')
          simp [hj] at hfound
        · obtain rfl := Option.some.inj (hs.symm.trans hs')
          rw [annexB.cut_of_next hnext]
      · intro hcut
        cases hnext : annexB.next r.remaining s with
        | some j =>
            rw [annexB.cut_of_next hnext] at hcut
            exact Or.inr (Or.inr ⟨s, hs, Or.inr (by rw [hnext, hcut])⟩)
        | none =>
            rw [annexB.cut_of_next_none hnext] at hcut
            exact Or.inl (r.available_prefix_remaining.eq_of_length hcut)

theorem take_available (r : FileReader) {n : ℕ} (h : n ≤ r.available.length) :
    r.available.take n = r.remaining.take n := by
  obtain ⟨t, ht⟩ := r.available_prefix_remaining
  rw [← ht, List.take_append_of_le_length h]

/-- The returned NALU is the first unit of the file exactly in a whole call. -/
theorem whole_iff_toNalu {r : FileReader} {s : ℕ} (hs : startCode r.available = some s) :
    r.Whole ↔ (⟨s, r.available.take (annexB.cut r.available s)⟩ : Nalu) =
      toNalu (s, r.remaining.take (annexB.cut r.remaining s)) := by
  rw [whole_iff_cut hs]
  constructor
  · intro hcut
    rw [← hcut, r.take_available annexB.cut_le]
    rfl
  · intro heq
    have hlen := congrArg (fun n : Nalu ↦ n.buffer.length) heq
    simpa [toNalu, List.length_take, Nat.min_eq_left annexB.cut_le] using hlen

/-- In a run whose calls are regular the NALUs are the first units of the file
exactly when every call is whole. -/
theorem run_isPrefix_iff {content : List UInt8} (ops : List Op)
    (hops : ∀ found, Op.openReader found ∉ ops) :
    ∀ r : FileReader, Along Regular content ops r →
      ((run content ops r).1 <+: (annexB.split r.remaining).map toNalu ↔
        Along (fun _ r ↦ r.Whole) content ops r) := by
  induction ops with
  | nil =>
      intro r _
      exact iff_of_true List.nil_prefix trivial
  | cons op ops ih =>
      intro r hregular
      have hrest := ih fun found h ↦ hops found (List.mem_cons_of_mem _ h)
      cases op with
      | openReader found => exact absurd (List.mem_cons_self ..) (hops found)
      | close =>
          have hclose := hrest r.close hregular.2
          rw [remaining_close] at hclose
          simpa [run, Along, Op.exec] using hclose
      | readNalu call =>
          -- the call answers for the available bytes, a beginning of the file
          obtain ⟨hcall, hlater⟩ := hregular
          obtain ⟨htrue, hfits⟩ := hcall call rfl
          cases hs : startCode r.available with
          | none =>
              obtain ⟨r', hval, hadv⟩ := readNalu_of_none htrue hs call.nalu
              have hremaining := hadv.remaining_drop
              rw [List.drop_zero] at hremaining
              simp only [Op.exec, hval] at hlater
              have htail := hrest r' hlater
              rw [hremaining] at htail
              have hwhole : r.Whole := Or.inr (Or.inl hs)
              simpa [run, Along, Op.exec, hval, hwhole] using htail
          | some s =>
              obtain ⟨r', p, hval, hadv⟩ := readNalu_of_some htrue hfits hs call.nalu
              have hfile : startCode r.remaining = some s := by
                obtain ⟨t, ht⟩ := r.available_prefix_remaining
                rw [← ht]
                exact annexB.mark_append hs t
              simp only [Op.exec, hval] at hlater
              rw [annexB.split_of_mark hfile, List.map_cons]
              simp only [run, Along, Op.exec, hval, Op.readNalu.injEq, forall_eq', if_true,
                Option.toList_some, List.singleton_append]
              rw [List.cons_prefix_cons, ← whole_iff_toNalu hs]
              refine and_congr_right fun hwhole ↦ ?_
              rw [← (whole_iff_cut hs).mp hwhole, ← hadv.remaining_drop]
              exact hrest r' hlater

theorem run_opened_isPrefix_iff (fileName : String) (D : List UInt8) (readsLeft : Option ℕ)
    (ops : List Op) (hname : fileName ≠ "") (hops : ∀ found, Op.openReader found ∉ ops)
    (hregular : Along Regular D ops (openReader { fileName } (some D) readsLeft).2) :
    (run D ops (openReader { fileName } (some D) readsLeft).2).1 <+:
        (annexB.split D).map toNalu ↔
      Along (fun _ r ↦ r.Whole) D ops (openReader { fileName } (some D) readsLeft).2 := by
  rw [openReader_new hname] at hregular ⊢
  exact run_isPrefix_iff ops hops (opened fileName D readsLeft) hregular

theorem run_opened_isPrefix_iff_two :
    (run [0, 0, 1, 0x41, 0, 0, 1, 0x42]
        [Op.readNalu ⟨fun _ _ ↦ 0, {}⟩, Op.close, Op.readNalu ⟨fun _ _ ↦ 0, {}⟩]
        (openReader { fileName := "a" } (some [0, 0, 1, 0x41, 0, 0, 1, 0x42]) (some 1)).2).1 <+:
        (annexB.split [0, 0, 1, 0x41, 0, 0, 1, 0x42]).map toNalu ↔
      Along (fun _ r ↦ r.Whole) [0, 0, 1, 0x41, 0, 0, 1, 0x42]
        [Op.readNalu ⟨fun _ _ ↦ 0, {}⟩, Op.close, Op.readNalu ⟨fun _ _ ↦ 0, {}⟩]
        (openReader { fileName := "a" } (some [0, 0, 1, 0x41, 0, 0, 1, 0x42]) (some 1)).2 :=
  run_opened_isPrefix_iff "a" _ (some 1) _ (by decide) (by simp)
    (along_regular _ (by simp)
      (fun call h i ↦ by
        obtain rfl : call = ⟨fun _ _ ↦ 0, {}⟩ := by simpa using h
        exact (by decide : (0x00 : UInt8) ≠ 0x01)) _ (by decide))

/-- A device that fails after the first read: the 1024 bytes read until then
go out as a NALU. -/
theorem run_truncated :
    ¬ ∀ (fileName : String) (D : List UInt8) (readsLeft : Option ℕ) (ops : List Op),
      fileName ≠ "" → (startCode D).isSome → (∀ found, Op.openReader found ∉ ops) →
      ∀ nalu ∈ (run D ops (openReader { fileName } (some D) readsLeft).2).1,
        nalu ∈ (annexB.split D).map toNalu := by
  intro h
  obtain ⟨b, hb⟩ : ∃ b, b = sliceBlock 1099 := ⟨_, rfl⟩
  have hbytes : b.bytes.length = 1103 := by rw [hb, length_bytes_sliceBlock]
  have hD : byteStream [b] = b.bytes := by rw [byteStream_cons]; exact List.append_nil _
  have hstart : startCode b.bytes = some 3 := by
    rw [← hD, startCode_byteStream_cons, hb]
    rfl
  have hsplit : annexB.split b.bytes = [(3, b.bytes)] := by
    rw [← hD, split_byteStream (List.IsChain.singleton _), hD, hb]
    rfl
  obtain ⟨r, hr⟩ : ∃ r, r = opened "a" b.bytes (some 1) := ⟨_, rfl⟩
  have havail : r.available = b.bytes.take 1024 := by
    simp [hr, opened, available, Ifstream.avail]
  have hs : startCode r.available = some 3 := by
    have htake : 4 ≤ r.available.length := by
      rw [havail, List.length_take]
      omega
    rw [← startCode_of_four_le htake (b.bytes.drop 1024), havail, List.take_append_drop, hstart]
  have htrue : Truthful (fun _ _ ↦ 0) r := truthful_of_mismatch (fun _ ↦ by decide) r
  have hfits : CutFits r.available :=
    cutFits_of_length (by rw [havail, List.length_take]; omega)
  obtain ⟨r', p, hval, -⟩ := readNalu_of_some htrue hfits hs {}
  have hunit := h "a" b.bytes (some 1) [Op.readNalu ⟨fun _ _ ↦ 0, {}⟩] (by decide)
    (by rw [hstart]; rfl) (by simp)
  rw [openReader_new (by decide), ← hr] at hunit
  simp only [run, Op.exec, hval, hsplit, if_true, Option.toList_some, List.singleton_append,
    List.mem_singleton, forall_eq, List.map_cons, List.map_nil] at hunit
  -- what was returned is too short for the only unit
  have hlen := congrArg (fun n : Nalu ↦ n.buffer.length) hunit
  simp only [toNalu, hbytes, List.length_take, havail] at hlen
  omega

end H264SendReceiver.FileReader
