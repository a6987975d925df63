import H264SendReceiver.Transcript

/-!
# What the other two test functions tell

`FuncTestFileReader` prints a summary of every NALU and a blank line for one
without a body. `FuncTestEbsp` prints every NALU that has a body, byte by byte.
Neither text depends on the memory behind the buffers but through the NALUs
that `readNalu` hands out.
-/

namespace H264SendReceiver

open Text

/-- Length, start code and header byte of a NALU that has a header byte. -/
def Nalu.summary (n : Nalu) : Option (ℕ × List UInt8 × UInt8) :=
  if n.isValid then some (n.buffer.length, n.buffer.take n.startCodeLen, n.getHead) else none

namespace FileReader

theorem newline_notMem_fileReaderLines (n : Nalu) : ∀ l ∈ fileReaderLines n, '\n' ∉ l := by
  rw [fileReaderLines]
  split
  · simp only [List.forall_mem_append]
    exact ⟨n.newline_notMem_lines, by simp⟩
  · simp

theorem newline_notMem_ebspLines (n : Nalu) : ∀ l ∈ ebspLines n, '\n' ∉ l := by
  rw [ebspLines]
  split
  · simp only [List.forall_mem_append]
    exact ⟨n.newline_notMem_lines, n.ebsp.newline_notMem_lines, by simp⟩
  · simp

/-- A title opens the block of a valid NALU, a blank line is the block of
another one. -/
theorem cut_fileReaderLines {n m : Nalu} {t u : List (List Char)}
    (h : fileReaderLines n ++ t = fileReaderLines m ++ u) : n.summary = m.summary ∧ t = u := by
  have htitle {k : Nalu} {x y : List (List Char)} : k.lines ++ [[]] ++ x ≠ [[]] ++ y := by
    intro hk
    exact absurd (List.cons.inj hk).1 (by decide)
  rw [fileReaderLines, fileReaderLines] at h
  rw [Nalu.summary, Nalu.summary]
  by_cases hn : n.isValid = true <;> by_cases hm : m.isValid = true
  · rw [if_pos hn, if_pos hm] at h
    obtain ⟨hblock, hrest⟩ := List.append_inj h rfl
    obtain ⟨hlen, hcode, hhead⟩ := Nalu.lines_eq_iff.mp (List.append_inj hblock rfl).1
    rw [if_pos hn, if_pos hm, hlen, hcode, hhead]
    exact ⟨rfl, hrest⟩
  · rw [if_pos hn, if_neg hm] at h
    exact absurd h htitle
  · rw [if_neg hn, if_pos hm] at h
    exact absurd h.symm htitle
  · rw [if_neg hn, if_neg hm] at h
    rw [if_neg hn, if_neg hm]
    exact ⟨rfl, List.append_cancel_left h⟩

theorem fileReaderLines_congr {n m : Nalu} (h : n.summary = m.summary) :
    fileReaderLines n = fileReaderLines m := by
  rw [Nalu.summary, Nalu.summary] at h
  rw [fileReaderLines, fileReaderLines]
  by_cases hn : n.isValid = true <;> by_cases hm : m.isValid = true
  · rw [if_pos hn, if_pos hm, Option.some.injEq, Prod.mk.injEq, Prod.mk.injEq] at h
    rw [if_pos hn, if_pos hm, Nalu.lines_eq_iff.mpr h]
  · simp [hn, hm] at h
  · simp [hn, hm] at h
  · rw [if_neg hn, if_neg hm]

theorem cut_ebspLines {n m : Nalu} {t u : List (List Char)} (hn : n.isValid = true)
    (hm : m.isValid = true) (h : ebspLines n ++ t = ebspLines m ++ u) : n = m ∧ t = u := by
  rw [ebspLines, ebspLines, if_pos hn, if_pos hm] at h
  obtain ⟨hblock, hrest⟩ := List.append_inj h rfl
  obtain ⟨hlines, htail⟩ := List.append_inj hblock rfl
  exact ⟨nalu_eq_of_lines hn hm hlines (List.append_inj htail rfl).1, hrest⟩

theorem flatMap_ebspLines (nalus : List Nalu) :
    nalus.flatMap ebspLines = (nalus.filter Nalu.isValid).flatMap ebspLines := by
  induction nalus with
  | nil => rfl
  | cons n nalus ih =>
      rw [List.flatMap_cons, List.filter_cons, ih]
      split
      · rw [List.flatMap_cons]
      · rename_i hvalid
        rw [ebspLines, if_neg hvalid, List.nil_append]

/-- Blocks that do not depend on the memory. -/
theorem transcript_eq_iff (fileName : String) {lines : Nalu → List (List Char)}
    (hlines : ∀ n, ∀ l ∈ lines n, '\n' ∉ l) (behind behind' : ℕ → ℕ → UInt8)
    (nalus nalus' : List Nalu) :
    transcript fileName (fun _ ↦ lines) behind nalus =
        transcript fileName (fun _ ↦ lines) behind' nalus' ↔
      nalus.flatMap lines = nalus'.flatMap lines := by
  have hindex (ns : List Nalu) : (ns.mapIdx fun _ ↦ lines).flatten = ns.flatMap lines := by
    rw [List.flatMap_def]
    exact congrArg _ (List.ext_getElem (by simp) (by simp))
  have hno (ns : List Nalu) : ∀ l ∈ ns.flatMap lines, '\n' ∉ l := by
    intro l hl
    obtain ⟨n, -, hn⟩ := List.mem_flatMap.mp hl
    exact hlines n l hn
  rw [transcript, transcript, hindex, hindex, List.append_cancel_right_eq,
    List.append_cancel_left_eq]
  exact ⟨unlines_inj (hno nalus) (hno nalus'), fun h ↦ by rw [h]⟩

section Texts

variable {fileName : String} (hname : fileName ≠ "") {D D' : List UInt8}
  (hsize : D.length < 2 ^ 31) (hsize' : D'.length < 2 ^ 31) (mem mem' : ℕ → ℕ → ℕ → UInt8)
  (behind behind' : ℕ → ℕ → UInt8)
include hname hsize hsize'

/-- Two files give the same text of `FuncTestFileReader` exactly when their
NALUs have the same summaries, in the same order. -/
theorem funcTestFileReader_eq_iff :
    ∃ nalus nalus' r r',
      (readLoop mem (D.length + 1) (opened fileName D none) {}).val = some (nalus, r) ∧
      (readLoop mem' (D'.length + 1) (opened fileName D' none) {}).val = some (nalus', r') ∧
      ((funcTestFileReader mem behind fileName (some D)).val =
          (funcTestFileReader mem' behind' fileName (some D')).val ↔
        nalus.map Nalu.summary = nalus'.map Nalu.summary) := by
  obtain ⟨nalus, r, passes, hread, -, htext⟩ :=
    val_funcTest (fun behind n h ↦ val_fileReaderBody h behind) hname hsize mem behind
  obtain ⟨nalus', r', passes', hread', -, htext'⟩ :=
    val_funcTest (fun behind n h ↦ val_fileReaderBody h behind) hname hsize' mem' behind'
  refine ⟨nalus, nalus', r, r', hread, hread', ?_⟩
  rw [funcTestFileReader, htext, htext', Option.some.injEq,
    transcript_eq_iff fileName newline_notMem_fileReaderLines]
  constructor
  · intro h
    apply map_eq_of_flatMap_eq (P := fun _ ↦ True) _ (fun n m t u _ _ ↦ cut_fileReaderLines)
      (by simp) (by simp) h
    intro n _
    rw [fileReaderLines]
    split <;> simp
  · intro h
    -- the lines of a NALU are a function of its summary
    have hfactors : Function.FactorsThrough fileReaderLines Nalu.summary :=
      fun n m ↦ fileReaderLines_congr
    obtain ⟨e, he⟩ := (Function.factorsThrough_iff fileReaderLines).mp hfactors
    have hmap (ns : List Nalu) : ns.flatMap fileReaderLines = (ns.map Nalu.summary).flatMap e := by
      rw [he, List.flatMap_map]
      rfl
    rw [hmap nalus, hmap nalus', h]

/-- Two files give the same text of `FuncTestEbsp` exactly when the NALUs with
a body are the same. -/
theorem funcTestEbspText_eq_iff :
    ∃ nalus nalus' r r',
      (readLoop mem (D.length + 1) (opened fileName D none) {}).val = some (nalus, r) ∧
      (readLoop mem' (D'.length + 1) (opened fileName D' none) {}).val = some (nalus', r') ∧
      ((funcTestEbspText mem behind fileName (some D)).val =
          (funcTestEbspText mem' behind' fileName (some D')).val ↔
        nalus.filter Nalu.isValid = nalus'.filter Nalu.isValid) := by
  obtain ⟨nalus, r, passes, hread, -, htext⟩ :=
    val_funcTest (fun behind n h ↦ val_ebspBody h behind) hname hsize mem behind
  obtain ⟨nalus', r', passes', hread', -, htext'⟩ :=
    val_funcTest (fun behind n h ↦ val_ebspBody h behind) hname hsize' mem' behind'
  refine ⟨nalus, nalus', r, r', hread, hread', ?_⟩
  rw [funcTestEbspText, htext, htext', Option.some.injEq,
    transcript_eq_iff fileName newline_notMem_ebspLines, flatMap_ebspLines nalus,
    flatMap_ebspLines nalus']
  constructor
  · intro h
    have hmap := map_eq_of_flatMap_eq (g := id) (P := fun n : Nalu ↦ n.isValid = true)
      (fun n hn ↦ by rw [ebspLines, if_pos hn]; exact List.cons_ne_nil _ _)
      (fun n m t u ↦ cut_ebspLines) (fun n hn ↦ (List.mem_filter.mp hn).2)
      (fun n hn ↦ (List.mem_filter.mp hn).2) h
    rwa [List.map_id, List.map_id] at hmap
  · intro h
    rw [h]

end Texts

/-- The bodies of the two NALUs differ. -/
theorem funcTestFileReader_eq_iff_bodies :
    ∃ D D' : List UInt8, D = [0, 0, 1, 0x65, 0x88] ∧ D' = [0, 0, 1, 0x65, 0x89] ∧
      ∃ nalus nalus' r r',
        (readLoop (fun _ _ _ ↦ 0x00) (D.length + 1) (opened "a" D none) {}).val =
          some (nalus, r) ∧
        (readLoop (fun _ _ _ ↦ 0x00) (D'.length + 1) (opened "a" D' none) {}).val =
          some (nalus', r') ∧
        ((funcTestFileReader (fun _ _ _ ↦ 0x00) (fun _ _ ↦ 0x00) "a" (some D)).val =
            (funcTestFileReader (fun _ _ _ ↦ 0x00) (fun _ _ ↦ 0x00) "a" (some D')).val ↔
          nalus.map Nalu.summary = nalus'.map Nalu.summary) :=
  ⟨[0, 0, 1, 0x65, 0x88], [0, 0, 1, 0x65, 0x89], rfl, rfl,
    funcTestFileReader_eq_iff (by decide) (by decide) (by decide) _ _ _ _⟩

/-- The first file ends in a start code. -/
theorem funcTestEbspText_eq_iff_empty_body :
    ∃ D D' : List UInt8, D = [0, 0, 1, 0x65, 0, 0, 1] ∧ D' = [0, 0, 1, 0x65] ∧
      ∃ nalus nalus' r r',
        (readLoop (fun _ _ _ ↦ 0x00) (D.length + 1) (opened "a" D none) {}).val =
          some (nalus, r) ∧
        (readLoop (fun _ _ _ ↦ 0x00) (D'.length + 1) (opened "a" D' none) {}).val =
          some (nalus', r') ∧
        ((funcTestEbspText (fun _ _ _ ↦ 0x00) (fun _ _ ↦ 0x00) "a" (some D)).val =
            (funcTestEbspText (fun _ _ _ ↦ 0x00) (fun _ _ ↦ 0x00) "a" (some D')).val ↔
          nalus.filter Nalu.isValid = nalus'.filter Nalu.isValid) :=
  ⟨[0, 0, 1, 0x65, 0, 0, 1], [0, 0, 1, 0x65], rfl, rfl,
    funcTestEbspText_eq_iff (by decide) (by decide) (by decide) _ _ _ _⟩

end FileReader

end H264SendReceiver
