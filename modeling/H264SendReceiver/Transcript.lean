import H264SendReceiver.AnnexB.Sessions
import H264SendReceiver.Program
import H264SendReceiver.RoundTrip

/-!
# The printed text

The text of a test function is a list of lines for each NALU between two fixed
pieces. It ends, is the expected one for a written file, and tells every NALU
that has an EBSP, byte by byte.
-/

namespace H264SendReceiver

open Text

/-! ## The lines printed for one NALU -/

namespace FileReader

/-- A NALU that `readNalu` may hand out, short enough for an `int` index. -/
structure Handed (n : Nalu) : Prop where
  startCodeLen : n.startCodeLen = 3 ∨ n.startCodeLen = 4
  length_lt : n.buffer.length < 2 ^ 31

def fileReaderLines (n : Nalu) : List (List Char) :=
  if n.isValid then n.lines ++ [[]] else [[]]

def ebspLines (n : Nalu) : List (List Char) :=
  if n.isValid then n.lines ++ (n.ebsp.lines ++ [[]]) else []

def rbspLines (behind : ℕ → UInt8) (n : Nalu) : List (List Char) :=
  if n.isValid then
    n.lines ++ (n.ebsp.lines ++ (Rbsp.lines ⟨n.ebsp.rbspBytes behind⟩ ++ [[]]))
  else []

theorem unlines_blank : unlines [[]] = ['\n'] := rfl

section Bodies

variable {n : Nalu} (h : Handed n)
include h

theorem val_dumpString_of_handed (hvalid : n.isValid = true) :
    n.dumpString.val = some (unlines n.lines) := by
  have hcode := h.startCodeLen
  rw [Nalu.val_dumpString hvalid, if_pos (by omega)]

theorem val_fileReaderBody (behind : ℕ → UInt8) :
    (fileReaderBody behind n).val = some (unlines (fileReaderLines n)) := by
  rw [fileReaderBody, Traced.val_bind, fileReaderLines]
  cases hvalid : n.isValid with
  | false => simp [Nalu.val_dumpString_of_not_valid hvalid, unlines_blank]
  | true => simp [val_dumpString_of_handed h hvalid, unlines_append, unlines_blank]

theorem val_ebspBody (behind : ℕ → UInt8) :
    (ebspBody behind n).val = some (unlines (ebspLines n)) := by
  rw [ebspBody, Traced.val_bind, ebspLines]
  cases hvalid : n.isValid with
  | false =>
      simp [Nalu.val_dumpString_of_not_valid hvalid, Nalu.getEbsp_of_not_valid hvalid, unlines]
  | true =>
      simp [val_dumpString_of_handed h hvalid, Nalu.getEbsp_of_valid hvalid,
        Ebsp.dumpString_eq (Nalu.isValid_ebsp hvalid), unlines_append, unlines_blank]

theorem val_rbspBody (behind : ℕ → UInt8) :
    (rbspBody behind n).val = some (unlines (rbspLines behind n)) := by
  rw [rbspBody, Traced.val_bind, rbspLines]
  cases hvalid : n.isValid with
  | false =>
      simp [Nalu.val_dumpString_of_not_valid hvalid, Nalu.getEbsp_of_not_valid hvalid, unlines]
  | true =>
      have hebsp := Nalu.isValid_ebsp hvalid
      have hlen : n.ebsp.buffer.length < 2 ^ 31 := by
        have hlt := h.length_lt
        rw [Nalu.length_ebsp]
        omega
      have hrbsp := Ebsp.isValid_rbspBytes behind hebsp
      simp [val_dumpString_of_handed h hvalid, Nalu.getEbsp_of_valid hvalid,
        Ebsp.val_getRbsp_of_valid behind hebsp hlen, Ebsp.dumpString_eq hebsp,
        Rbsp.dumpString_eq hrbsp, unlines_append, unlines_blank]

end Bodies

/-! ## The text of a test function -/

def startLines (fileName : String) : List (List Char) :=
  ["File reader construct. file: ".toList ++ fileName.toList,
    "Open file success. file: ".toList ++ fileName.toList]

def endLines (fileName : String) : List (List Char) :=
  ["Close file success. file: ".toList ++ fileName.toList,
    "File reader destruct. file: ".toList ++ fileName.toList]

/-- The whole text, given what is printed for each NALU. -/
def transcript (fileName : String) (lines : (ℕ → UInt8) → Nalu → List (List Char))
    (behind : ℕ → ℕ → UInt8) (nalus : List Nalu) : List Char :=
  unlines (startLines fileName) ++
    unlines (nalus.mapIdx fun i n ↦ lines (behind i) n).flatten ++ unlines (endLines fileName)

theorem ReadsOut.handed {r r' : FileReader} {nalus : List Nalu} {passes : ℕ}
    (h : ReadsOut r nalus r' passes) (hsize : r.remaining.length < 2 ^ 31) :
    ∀ n ∈ nalus, Handed n := by
  intro n hn
  refine ⟨(h.codes n hn).startCodeLen, lt_of_le_of_lt ?_ hsize⟩
  have hsub := List.sublist_flatten_of_mem (List.mem_map_of_mem (f := Nalu.buffer) hn)
  rw [← h.bytes, List.length_append]
  exact hsub.length_le.trans (Nat.le_add_right _ _)

theorem map_mapIdx {α β γ : Type} (f : ℕ → α → β) (g : β → γ) (l : List α) :
    (l.mapIdx f).map g = l.mapIdx fun i a ↦ g (f i a) := by
  simp only [List.mapIdx_eq_zipIdx_map, List.map_map]
  rfl

theorem text_opened {fileName : String} (hname : fileName ≠ "") (D : List UInt8) :
    constructText { fileName } ++ openText { fileName } (some D) =
      unlines (startLines fileName) := by
  simp [constructText, openText, logLine, hname, Ifstream.openFile, startLines, unlines]

theorem text_closed {r : FileReader} {fileName : String} (hopen : r.file.isOpen = true)
    (hfile : r.fileName = fileName) :
    r.closeText ++ r.close.destructText = unlines (endLines fileName) := by
  simp [closeText, destructText, logLine, hopen, hfile, close, Ifstream.close, endLines, unlines]

section FuncTest

variable {body : (ℕ → UInt8) → Nalu → Traced BufRead (Option (List Char))}
  {lines : (ℕ → UInt8) → Nalu → List (List Char)}
  (hbody : ∀ behind n, Handed n → (body behind n).val = some (unlines (lines behind n)))
  {fileName : String} (hname : fileName ≠ "") {D : List UInt8} (hsize : D.length < 2 ^ 31)
  (mem : ℕ → ℕ → ℕ → UInt8) (behind : ℕ → ℕ → UInt8)
include hbody hname hsize

theorem val_funcTest_of_readLoop {nalus : List Nalu} {r' : FileReader} {passes : ℕ}
    (hread : (readLoop mem (D.length + 1) (opened fileName D none) {}).val = some (nalus, r'))
    (hout : ReadsOut (opened fileName D none) nalus r' passes) :
    (funcTest body mem behind fileName (some D)).val =
      some (transcript fileName lines behind nalus) := by
  have hhanded := hout.handed hsize
  have heach : (nalus.mapIdx fun i n ↦ (body (behind i) n).val) =
      (nalus.mapIdx fun i n ↦ unlines (lines (behind i) n)).map some := by
    rw [map_mapIdx, List.mapIdx_eq_mapIdx_iff]
    exact fun i hi ↦ hbody _ _ (hhanded _ (List.getElem_mem hi))
  have hloop := val_naluLoop _ mem behind _ _ hread heach
  have hremaining : (opened fileName D none).remaining = D := rfl
  have hclosed : r'.closeText ++ r'.close.destructText = unlines (endLines fileName) :=
    text_closed hout.isOpen hout.fileName
  rw [funcTest, openReader_new hname]
  simp only [Bool.not_true, Bool.false_eq_true, if_false, hremaining, Traced.val_bind, hloop,
    Traced.val_pure, transcript]
  rw [text_opened hname, List.append_assoc (_ ++ _), hclosed, unlines_flatten,
    map_mapIdx]

theorem val_funcTest :
    ∃ nalus r' passes,
      (readLoop mem (D.length + 1) (opened fileName D none) {}).val = some (nalus, r') ∧
      ReadsOut (opened fileName D none) nalus r' passes ∧
      (funcTest body mem behind fileName (some D)).val =
        some (transcript fileName lines behind nalus) := by
  have hremaining : (opened fileName D none).remaining = D := rfl
  have havail := available_opened fileName D
  obtain ⟨nalus, r', passes, hread, hout, -⟩ :=
    readLoop_total (D.length + 1) mem (opened fileName D none) {} (by rwa [havail])
      (by rw [hremaining]; omega)
  exact ⟨nalus, r', passes, hread, hout,
    val_funcTest_of_readLoop hbody hname hsize mem behind hread hout⟩

end FuncTest

end FileReader

/-! ## A written file -/

namespace WrittenUnit

open FileReader

def nalu (u : WrittenUnit) : Nalu := toNalu (u.codeLen, codeBytes u.codeLen ++ u.ebsp)

def printed (u : WrittenUnit) : List (List Char) :=
  u.nalu.lines ++ (Ebsp.lines ⟨u.ebsp⟩ ++ (Rbsp.lines ⟨u.body⟩ ++ [[]]))

theorem rbspBytes_ebsp (u : WrittenUnit) (behind : ℕ → UInt8) :
    Ebsp.rbspBytes behind ⟨u.ebsp⟩ = u.body := by
  obtain ⟨p, q, bs, hbody⟩ := Ebsp.exists_cons_cons u.two_le_length
  rw [ebsp, hbody, Ebsp.escape_cons_cons]
  simp only [Ebsp.rbspBytes, Emulation.stripFrom_escapeFrom]

theorem rbspLines_nalu (u : WrittenUnit) (behind : ℕ → UInt8) :
    rbspLines behind u.nalu = u.printed := by
  have hlen := length_codeBytes u.codeLen_eq
  have hvalid : u.nalu.isValid = true := by
    rw [Nalu.isValid_iff]
    have hcode := u.codeLen_eq
    simp only [nalu, toNalu, ebsp, List.length_append, List.length_cons, hlen]
    omega
  have hebsp : u.nalu.ebsp = ⟨u.ebsp⟩ := by
    simp only [Nalu.ebsp, nalu, toNalu, List.drop_left' hlen]
  rw [rbspLines, if_pos hvalid, hebsp, rbspBytes_ebsp, printed]

theorem readLoop_writtenFile (fileName : String) (units : List WrittenUnit)
    (hsize : (writtenFile units).length < 2 ^ 31) (mem : ℕ → ℕ → ℕ → UInt8) :
    ∃ r', (readLoop mem ((writtenFile units).length + 1)
      (opened fileName (writtenFile units) none) {}).val = some (units.map nalu, r') := by
  have hlead : ZerosLead (writtenFile units) := by
    rw [← byteStream_block]
    exact zerosLead_byteStream trailing_of_mem_block
  obtain ⟨r', hread⟩ := readLoop_opened fileName (unitsFit_of_length hsize) (Or.inl hlead)
  rw [split_writtenFile, List.map_map] at hread
  exact ⟨r', hread⟩

/-- `FuncTestRbsp` prints every unit that was written, with its body before
the escaping, and nothing else. -/
theorem funcTestRbsp_writtenFile {fileName : String} (hname : fileName ≠ "")
    (units : List WrittenUnit) (hsize : (writtenFile units).length < 2 ^ 31)
    (mem : ℕ → ℕ → ℕ → UInt8) (behind : ℕ → ℕ → UInt8) :
    (funcTestRbsp mem behind fileName (some (writtenFile units))).val =
      some (unlines (startLines fileName ++ units.flatMap printed ++ endLines fileName)) := by
  obtain ⟨nalus, r', passes, hread, -, htext⟩ :=
    val_funcTest (fun behind n h ↦ val_rbspBody h behind) hname hsize mem behind
  obtain ⟨r'', hunits⟩ := readLoop_writtenFile fileName units hsize mem
  rw [hread, Option.some.injEq, Prod.mk.injEq] at hunits
  have hlines : ((units.map nalu).mapIdx fun i n ↦ rbspLines (behind i) n) =
      units.map printed := by
    apply List.ext_getElem (by simp)
    intro i _ _
    simp only [List.getElem_mapIdx, List.getElem_map, rbspLines_nalu]
  rw [funcTestRbsp, htext, transcript, hunits.1, hlines, List.flatMap_def, unlines_append,
    unlines_append]

theorem funcTestRbsp_writtenFile_two :
    ∃ units : List WrittenUnit, units.map body = [[0x00, 0x00, 0x01], [0x00, 0x00, 0x00, 0x80]] ∧
      (funcTestRbsp (fun _ _ _ ↦ 0x01) (fun _ _ ↦ 0xff) "a" (some (writtenFile units))).val =
        some (unlines (startLines "a" ++ units.flatMap printed ++ endLines "a")) :=
  ⟨[⟨4, 0x67, [0x00, 0x00, 0x01], Or.inr rfl, by decide, by decide, by decide⟩,
      ⟨3, 0x68, [0x00, 0x00, 0x00, 0x80], Or.inl rfl, by decide, by decide, by decide⟩], rfl,
    funcTestRbsp_writtenFile (by decide) _ (by decide) _ _⟩

end WrittenUnit

/-! ## Reading the text back -/

namespace FileReader

theorem nalu_eq_of_lines {n m : Nalu} (hn : n.isValid = true) (hm : m.isValid = true)
    (hlines : n.lines = m.lines) (hebsp : n.ebsp.lines = m.ebsp.lines) : n = m := by
  obtain ⟨-, hcode, -⟩ := Nalu.lines_eq_iff.mp hlines
  have hbody : n.buffer.drop n.startCodeLen = m.buffer.drop m.startCodeLen :=
    bodyLines_inj hebsp
  have hlenN := (n.isValid_iff.mp hn).2
  have hlenM := (m.isValid_iff.mp hm).2
  have hlen := congrArg List.length hcode
  rw [List.length_take_of_le hlenN.le, List.length_take_of_le hlenM.le] at hlen
  have hbuffer : n.buffer = m.buffer := by
    rw [← List.take_append_drop n.startCodeLen n.buffer, hcode, hbody, List.take_append_drop]
  rcases n with ⟨s, buffer⟩
  rcases m with ⟨s', buffer'⟩
  dsimp only at hlen hbuffer
  rw [hlen, hbuffer]

/-- What `FuncTestRbsp` prints, as the blocks of the NALUs that have an EBSP. -/
theorem flatten_rbspLines (nalus : List Nalu) :
    ∀ behind : ℕ → ℕ → UInt8, ∃ marked : List (Nalu × (ℕ → UInt8)),
      marked.map Prod.fst = nalus.filter Nalu.isValid ∧
      (nalus.mapIdx fun i n ↦ rbspLines (behind i) n).flatten =
        marked.flatMap fun x ↦ rbspLines x.2 x.1 := by
  induction nalus with
  | nil => intro behind; exact ⟨[], rfl, rfl⟩
  | cons n nalus ih =>
      intro behind
      obtain ⟨marked, hfst, hlines⟩ := ih fun i ↦ behind (i + 1)
      rw [List.mapIdx_cons, List.flatten_cons, hlines, List.filter_cons]
      split
      · exact ⟨(n, behind 0) :: marked, by rw [List.map_cons, hfst], by rw [List.flatMap_cons]⟩
      · rename_i hvalid
        exact ⟨marked, hfst, by rw [rbspLines, if_neg hvalid, List.nil_append]⟩

theorem cut_rbspLines {x y : Nalu × (ℕ → UInt8)} {t u : List (List Char)}
    (hx : x.1.isValid = true) (hy : y.1.isValid = true)
    (h : rbspLines x.2 x.1 ++ t = rbspLines y.2 y.1 ++ u) : x.1 = y.1 ∧ t = u := by
  rw [rbspLines, rbspLines, if_pos hx, if_pos hy] at h
  obtain ⟨hblock, hrest⟩ := List.append_inj h rfl
  obtain ⟨hlines, htail⟩ := List.append_inj hblock rfl
  exact ⟨nalu_eq_of_lines hx hy hlines (List.append_inj htail rfl).1, hrest⟩

theorem newline_notMem_rbspLines (behind : ℕ → UInt8) (n : Nalu) :
    ∀ l ∈ rbspLines behind n, '\n' ∉ l := by
  rw [rbspLines]
  split
  · simp only [List.forall_mem_append]
    exact ⟨n.newline_notMem_lines, n.ebsp.newline_notMem_lines, Rbsp.newline_notMem_lines _,
      by simp⟩
  · simp

theorem transcript_inj {fileName : String} {behind behind' : ℕ → ℕ → UInt8}
    {nalus nalus' : List Nalu}
    (h : transcript fileName rbspLines behind nalus =
      transcript fileName rbspLines behind' nalus') :
    nalus.filter Nalu.isValid = nalus'.filter Nalu.isValid := by
  obtain ⟨marked, hfst, hlines⟩ := flatten_rbspLines nalus behind
  obtain ⟨marked', hfst', hlines'⟩ := flatten_rbspLines nalus' behind'
  have hvalid {ms : List (Nalu × (ℕ → UInt8))} {ns : List Nalu}
      (hms : ms.map Prod.fst = ns.filter Nalu.isValid) : ∀ x ∈ ms, x.1.isValid = true := by
    intro x hx
    have hmem := List.mem_map_of_mem (f := Prod.fst) hx
    rw [hms] at hmem
    exact (List.mem_filter.mp hmem).2
  have hno (ms : List (Nalu × (ℕ → UInt8))) :
      ∀ l ∈ ms.flatMap fun x ↦ rbspLines x.2 x.1, '\n' ∉ l := by
    intro l hl
    obtain ⟨x, -, hx⟩ := List.mem_flatMap.mp hl
    exact newline_notMem_rbspLines x.2 x.1 l hx
  rw [transcript, transcript, hlines, hlines', List.append_cancel_right_eq,
    List.append_cancel_left_eq] at h
  have hblocks := unlines_inj (hno marked) (hno marked') h
  rw [← hfst, ← hfst']
  apply map_eq_of_flatMap_eq (P := fun x ↦ x.1.isValid = true) _ (fun x y t u ↦ cut_rbspLines)
    (hvalid hfst) (hvalid hfst') hblocks
  intro x hx
  rw [rbspLines, if_pos hx]
  exact List.cons_ne_nil _ _

/-- The text of `FuncTestRbsp` tells every NALU that has an EBSP, byte by
byte, whatever lies behind the buffers. -/
theorem funcTestRbsp_inj {fileName : String} (hname : fileName ≠ "") {D D' : List UInt8}
    (hsize : D.length < 2 ^ 31) (hsize' : D'.length < 2 ^ 31) (mem mem' : ℕ → ℕ → ℕ → UInt8)
    (behind behind' : ℕ → ℕ → UInt8)
    (h : (funcTestRbsp mem behind fileName (some D)).val =
      (funcTestRbsp mem' behind' fileName (some D')).val) :
    ∃ nalus nalus' r r',
      (readLoop mem (D.length + 1) (opened fileName D none) {}).val = some (nalus, r) ∧
      (readLoop mem' (D'.length + 1) (opened fileName D' none) {}).val = some (nalus', r') ∧
      nalus.filter Nalu.isValid = nalus'.filter Nalu.isValid := by
  obtain ⟨nalus, r, passes, hread, -, htext⟩ :=
    val_funcTest (fun behind n h ↦ val_rbspBody h behind) hname hsize mem behind
  obtain ⟨nalus', r', passes', hread', -, htext'⟩ :=
    val_funcTest (fun behind n h ↦ val_rbspBody h behind) hname hsize' mem' behind'
  rw [funcTestRbsp, htext, htext', Option.some.injEq] at h
  exact ⟨nalus, nalus', r, r', hread, hread', transcript_inj h⟩

theorem funcTestRbsp_inj_over_memory :
    ∃ D : List UInt8, D = [0, 0, 1, 0x65, 0x88, 0x84] ∧ ∃ nalus nalus' r r',
      (readLoop (fun _ _ _ ↦ 0x00) (D.length + 1) (opened "a" D none) {}).val =
        some (nalus, r) ∧
      (readLoop (fun _ _ _ ↦ 0x01) (D.length + 1) (opened "a" D none) {}).val =
        some (nalus', r') ∧
      nalus.filter Nalu.isValid = nalus'.filter Nalu.isValid :=
  ⟨[0, 0, 1, 0x65, 0x88, 0x84], rfl, funcTestRbsp_inj (by decide) (by decide) (by decide) _ _
    (fun _ _ ↦ 0x00) (fun _ _ ↦ 0xff) (by decide +kernel)⟩

/-- A file of NALUs with two body bytes each, and nothing behind the buffer
that looks like the rest of a start code. -/
structure Readable (D : List UInt8) (mem : ℕ → ℕ → ℕ → UInt8) : Prop where
  length_lt : D.length < 2 ^ 31
  starts : (startCode D).isSome
  bodies : ∀ u ∈ annexB.split D, u.1 + 3 ≤ u.2.length
  memory : ZerosLead D ∨ ∀ c i, mem c i 0 ≠ 0x01

section Readable

variable {D : List UInt8} {mem : ℕ → ℕ → ℕ → UInt8} (h : Readable D mem)
include h

theorem Readable.readLoop (fileName : String) :
    ∃ r', (readLoop mem (D.length + 1) (opened fileName D none) {}).val =
      some ((annexB.split D).map toNalu, r') :=
  readLoop_opened fileName (unitsFit_of_length h.length_lt) h.memory

theorem Readable.isValid : ∀ n ∈ (annexB.split D).map toNalu, n.isValid = true := by
  intro n hn
  obtain ⟨u, hu, rfl⟩ := List.mem_map.mp hn
  have hbody := h.bodies u hu
  have hcode : 0 < u.1 := annexB.pos (annexB.mark_of_mem_split hu)
  exact (Nalu.isValid_iff _).mpr ⟨hcode, by simp only [toNalu]; omega⟩

theorem Readable.rbspLines_eq (behind behind' : ℕ → UInt8) :
    ∀ n ∈ (annexB.split D).map toNalu, rbspLines behind n = rbspLines behind' n := by
  intro n hn
  obtain ⟨u, hu, rfl⟩ := List.mem_map.mp hn
  have hbody := h.bodies u hu
  have hlen : 3 ≤ (toNalu u).ebsp.buffer.length := by
    rw [Nalu.length_ebsp]
    simp only [toNalu]
    omega
  rw [rbspLines, rbspLines, Ebsp.rbspBytes_congr behind behind' hlen]

theorem Readable.val_funcTestRbsp {fileName : String} (hname : fileName ≠ "")
    (behind : ℕ → ℕ → UInt8) :
    (funcTestRbsp mem behind fileName (some D)).val =
      some (transcript fileName rbspLines behind ((annexB.split D).map toNalu)) := by
  obtain ⟨nalus, r, passes, hread, -, htext⟩ :=
    val_funcTest (fun behind n h ↦ val_rbspBody h behind) hname h.length_lt mem behind
  obtain ⟨r', hsplit⟩ := h.readLoop fileName
  rw [hread, Option.some.injEq, Prod.mk.injEq] at hsplit
  rw [funcTestRbsp, htext, hsplit.1]

end Readable

/-- The text of `FuncTestRbsp` is a picture of the file. -/
theorem funcTestRbsp_eq_iff {fileName : String} (hname : fileName ≠ "") {D D' : List UInt8}
    {mem mem' : ℕ → ℕ → ℕ → UInt8} (h : Readable D mem) (h' : Readable D' mem')
    (behind behind' : ℕ → ℕ → UInt8) :
    (funcTestRbsp mem behind fileName (some D)).val =
      (funcTestRbsp mem' behind' fileName (some D')).val ↔ D = D' := by
  rw [h.val_funcTestRbsp hname, h'.val_funcTestRbsp hname, Option.some.injEq]
  constructor
  · intro htext
    have heq := transcript_inj htext
    rw [List.filter_eq_self.mpr h.isValid, List.filter_eq_self.mpr h'.isValid] at heq
    have hbytes := congrArg (fun ns ↦ (ns.map Nalu.buffer).flatten) heq
    simp only [List.map_map] at hbytes
    have hD : ((annexB.split D).map Prod.snd).flatten = D := annexB.flatten_split h.starts
    have hD' : ((annexB.split D').map Prod.snd).flatten = D' := annexB.flatten_split h'.starts
    rw [← hD, ← hD']
    exact hbytes
  · rintro rfl
    have hlines : ((annexB.split D).map toNalu).mapIdx (fun i n ↦ rbspLines (behind i) n) =
        ((annexB.split D).map toNalu).mapIdx fun i n ↦ rbspLines (behind' i) n := by
      rw [List.mapIdx_eq_mapIdx_iff]
      exact fun i hi ↦ h.rbspLines_eq _ _ _ (List.getElem_mem hi)
    rw [transcript, transcript, hlines]

theorem funcTestRbsp_eq_iff_last :
    (funcTestRbsp (fun _ _ _ ↦ 0x00) (fun _ _ ↦ 0x00) "a"
        (some [0, 0, 1, 0x65, 0x88, 0x84])).val =
      (funcTestRbsp (fun _ _ _ ↦ 0x00) (fun _ _ ↦ 0x00) "a"
        (some [0, 0, 1, 0x65, 0x88, 0x85])).val ↔
      ([0, 0, 1, 0x65, 0x88, 0x84] : List UInt8) = [0, 0, 1, 0x65, 0x88, 0x85] :=
  funcTestRbsp_eq_iff (by decide)
    ⟨by decide, by decide, by decide +kernel, Or.inr fun _ _ ↦ by decide⟩
    ⟨by decide, by decide, by decide +kernel, Or.inr fun _ _ ↦ by decide⟩ _ _

end FileReader

end H264SendReceiver
