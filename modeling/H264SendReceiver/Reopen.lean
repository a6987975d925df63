import H264SendReceiver.AnnexB.Sessions

/-!
# Closing and reopening

`close` keeps `m_buffer`. What is left in it comes back in front of the file
when the reader is opened again; a reader that is opened with an empty buffer
is a new one.
-/

namespace H264SendReceiver.FileReader

/-- What the buffer adds in front of the file does no harm. -/
def StartsFresh (buffer D : List UInt8) : Prop :=
  buffer = [] ∨ startCode (buffer ++ D) = none

theorem openReader_of_ok {r : FileReader} (hclosed : r.file.isOpen = false) {D : List UInt8}
    (hok : (r.openReader (some D) none).1 = true) :
    (r.openReader (some D) none).2 =
      ⟨⟨true, D, false, false, none⟩, r.fileName, r.buffer⟩ ∧ r.fileName ≠ "" := by
  have hname : r.fileName ≠ "" := by
    intro hname
    simp [openReader, hclosed, hname] at hok
  exact ⟨by simp [openReader, Ifstream.openFile, hclosed, hname], hname⟩

theorem available_reopened (fileName : String) (buffer D : List UInt8) :
    available ⟨⟨true, D, false, false, none⟩, fileName, buffer⟩ = buffer ++ D := by
  simp [available, Ifstream.avail]

theorem length_flatten_take_split_le (l : List UInt8) (n : ℕ) :
    (((annexB.split l).take n).map Prod.snd).flatten.length ≤ l.length := by
  have hsplit : (((annexB.split l).take n).map Prod.snd).flatten.length +
      (((annexB.split l).drop n).map Prod.snd).flatten.length =
      ((annexB.split l).map Prod.snd).flatten.length := by
    rw [← List.length_append, ← List.flatten_append, ← List.map_append, List.take_append_drop]
  have hall : ((annexB.split l).map Prod.snd).flatten.length ≤ l.length := by
    cases hs : annexB.mark l with
    | none => simp [annexB.split_of_mark_none hs]
    | some s => rw [annexB.flatten_split (by rw [hs]; rfl)]
  omega

/-- A stale start code: the units of buffer and file together have more bytes
than the file, so that they are no units of the file. -/
theorem buffer_eq_nil_of_isPrefix {buffer D : List UInt8} {s : ℕ}
    (hs : startCode (buffer ++ D) = some s) {n : ℕ}
    (h : (annexB.split (buffer ++ D)).map toNalu <+: ((annexB.split D).take n).map toNalu) :
    buffer = [] := by
  obtain ⟨rest, hrest⟩ := h
  have hbytes := congrArg (fun nalus ↦ (nalus.map Nalu.buffer).flatten.length) hrest
  have hmap : (Nalu.buffer ∘ toNalu : ℕ × List UInt8 → List UInt8) = Prod.snd := rfl
  simp only [List.map_append, List.map_map, List.flatten_append, List.length_append, hmap] at hbytes
  have hbound := length_flatten_take_split_le D n
  rw [annexB.flatten_split (Option.isSome_of_eq_some hs), List.length_append] at hbytes
  exact List.length_eq_zero_iff.mp (by omega)

/-- What a session returns is the beginning of what a new reader returns in a
session of its own. -/
def SessionIsPrefix (fileName : String) (D : List UInt8) (r : FileReader)
    (session fresh : List Op) : Prop :=
  (run D session (r.openReader (some D) none).2).1 <+:
    (run D fresh (openReader { fileName } (some D) none).2).1

/-- A session on the reopened reader `r`, and one on a new reader with as many
calls of `readNalu` at least. No call of either is misled. -/
structure Comparable (fileName : String) (D : List UInt8) (r : FileReader)
    (session fresh : List Op) : Prop where
  close_session : Op.close ∉ session
  close_fresh : Op.close ∉ fresh
  calls_le : (naluCalls session).length ≤ (naluCalls fresh).length
  regular_session : Along Regular D session (r.openReader (some D) none).2
  regular_fresh : Along Regular D fresh (openReader { fileName } (some D) none).2

theorem naluCalls_map (calls : List NaluCall) : naluCalls (calls.map Op.readNalu) = calls := by
  rw [naluCalls, List.filterMap_map]
  exact List.filterMap_some

/-- Calls with no byte `01` behind any buffer make comparable sessions. -/
theorem comparable_of_mismatch {fileName : String} {D : List UInt8} {r : FileReader}
    {calls calls' : List NaluCall} (hle : calls.length ≤ calls'.length)
    (hmem : ∀ call ∈ calls, ∀ i, call.mem i 0 ≠ 0x01)
    (hmem' : ∀ call ∈ calls', ∀ i, call.mem i 0 ≠ 0x01)
    (hsize : (r.openReader (some D) none).2.remaining.length < 2 ^ 31)
    (hsize' : (openReader { fileName } (some D) none).2.remaining.length < 2 ^ 31) :
    Comparable fileName D r (calls.map Op.readNalu) (calls'.map Op.readNalu) where
  close_session := by simp
  close_fresh := by simp
  calls_le := by rwa [naluCalls_map, naluCalls_map]
  regular_session := along_regular _ (by simp) (by simpa using hmem) _ hsize
  regular_fresh := along_regular _ (by simp) (by simpa using hmem') _ hsize'

/-- After any run, the sessions behind an `open` return the first NALUs of
those a new reader returns when they start fresh, and only then. -/
theorem sessionIsPrefix_iff (fileName : String) (D : List UInt8) (before : List Op)
    {r : FileReader} (hrun : (run D before { fileName }).2 = some r)
    (hclosed : r.file.isOpen = false) (hok : (r.openReader (some D) none).1 = true) :
    (StartsFresh r.buffer D → ∀ session fresh, Comparable fileName D r session fresh →
      SessionIsPrefix fileName D r session fresh) ∧
    ((r.buffer ++ D).length < 2 ^ 31 →
      (∀ session fresh, Comparable fileName D r session fresh →
        SessionIsPrefix fileName D r session fresh) →
      StartsFresh r.buffer D) := by
  have hname : r.fileName = fileName := fileName_run before hrun
  obtain ⟨hreopened, hne⟩ := openReader_of_ok hclosed hok
  rw [hname] at hreopened hne
  -- what the two sessions return, the file being in front of both readers
  have hsessions {session fresh : List Op} (h : Comparable fileName D r session fresh) :
      SessionIsPrefix fileName D r session fresh ↔
        ((annexB.split (r.buffer ++ D)).take (naluCalls session).length).map toNalu <+:
          ((annexB.split D).take (naluCalls fresh).length).map toNalu := by
    have hstale := h.regular_session
    have hnew := h.regular_fresh
    rw [hreopened] at hstale
    rw [openReader_new hne] at hnew
    rw [SessionIsPrefix, hreopened, openReader_new hne,
      run_eq_split session h.close_session _ rfl hstale,
      run_eq_split fresh h.close_fresh _ rfl hnew, available_reopened, available_opened]
  constructor
  · rintro (hempty | hnone) session fresh h
    · -- the reopened reader is the new one
      rw [hsessions h, hempty, List.nil_append]
      exact (List.take_prefix_take_left h.calls_le).map toNalu
    · rw [hsessions h, annexB.split_of_mark_none hnone, List.take_nil]
      exact List.nil_prefix
  · intro hsize hall
    cases hs : startCode (r.buffer ++ D) with
    | none => exact Or.inr hs
    | some s =>
        obtain ⟨calls, hlen, hmem⟩ : ∃ calls : List NaluCall,
            calls.length = (annexB.split (r.buffer ++ D)).length ∧
              ∀ call ∈ calls, ∀ i, call.mem i 0 ≠ 0x01 :=
          ⟨List.replicate _ _, List.length_replicate, fun _ ↦ mismatch_of_mem_replicate⟩
        have hD : D.length < 2 ^ 31 := by
          rw [List.length_append] at hsize
          omega
        have hcomparable : Comparable fileName D r (calls.map Op.readNalu)
            (calls.map Op.readNalu) :=
          comparable_of_mismatch le_rfl hmem hmem (by rw [hreopened]; exact hsize)
            (by rw [openReader_new hne]; exact hD)
        have hprefix := (hsessions hcomparable).mp (hall _ _ hcomparable)
        rw [naluCalls_map, hlen, List.take_length] at hprefix
        exact Or.inl (buffer_eq_nil_of_isPrefix hs hprefix)

/-- A file read to its end, closed and opened again. -/
theorem sessionIsPrefix_iff_again :
    SessionIsPrefix "a" [0, 0, 1, 0x41] ⟨⟨false, [], true, true, none⟩, "a", []⟩
      ((List.replicate 1 ⟨fun _ _ ↦ 0x00, {}⟩).map Op.readNalu)
      ((List.replicate 2 ⟨fun _ _ ↦ 0x00, {}⟩).map Op.readNalu) :=
  (sessionIsPrefix_iff "a" [0, 0, 1, 0x41]
    [Op.openReader true, Op.readNalu ⟨fun _ _ ↦ 0x00, {}⟩, Op.close]
    (r := ⟨⟨false, [], true, true, none⟩, "a", []⟩) (by decide +kernel) rfl rfl).1
    (Or.inl rfl) _ _
    (comparable_of_mismatch (by decide) (fun _ ↦ mismatch_of_mem_replicate)
      (fun _ ↦ mismatch_of_mem_replicate) (by decide) (by decide))

/-- Closed after its first unit and opened again, a reader returns the
second one first. -/
theorem sessionIsPrefix_fails :
    ¬ ∀ (fileName : String) (D : List UInt8) (before session fresh : List Op) (r : FileReader),
      (run D before { fileName }).2 = some r → r.file.isOpen = false →
      (r.openReader (some D) none).1 = true → Comparable fileName D r session fresh →
      SessionIsPrefix fileName D r session fresh := by
  intro h
  have hsession := h "a" [0, 0, 1, 0x41, 0, 0, 1, 0x42]
    [Op.openReader true, Op.readNalu ⟨fun _ _ ↦ 0x00, {}⟩, Op.close]
    ((List.replicate 1 ⟨fun _ _ ↦ 0x00, {}⟩).map Op.readNalu)
    ((List.replicate 1 ⟨fun _ _ ↦ 0x00, {}⟩).map Op.readNalu)
    ⟨⟨false, [], true, true, none⟩, "a", [0, 0, 1, 0x42]⟩ (by decide +kernel) rfl rfl
    (comparable_of_mismatch le_rfl (fun _ ↦ mismatch_of_mem_replicate)
      (fun _ ↦ mismatch_of_mem_replicate) (by decide) (by decide))
  rw [SessionIsPrefix] at hsession
  revert hsession
  decide +kernel

end H264SendReceiver.FileReader
