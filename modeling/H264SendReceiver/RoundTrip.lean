import H264SendReceiver.AnnexB.ByteStream
import H264SendReceiver.EmulationPrevention

/-!
# From file to RBSP

NALU bodies are escaped, put behind a header and a start code and written one
after the other. Reading the file gives back the headers and the bodies.
-/

namespace H264SendReceiver

open Emulation FileReader

/-- What a writer puts into one NALU. -/
structure WrittenUnit where
  codeLen : ℕ
  header : UInt8
  body : List UInt8
  codeLen_eq : codeLen = 3 ∨ codeLen = 4
  header_ne : header ≠ 0x00
  two_le_length : 2 ≤ body.length
  last_ne : body.getLast? ≠ some 0x00

namespace WrittenUnit

def ebsp (u : WrittenUnit) : List UInt8 := u.header :: escape u.body

def writtenFile (units : List WrittenUnit) : List UInt8 :=
  units.flatMap fun u ↦ codeBytes u.codeLen ++ u.ebsp

structure Recovered (u : WrittenUnit) (answer : Bool × Nalu) : Prop where
  found : answer.1 = true
  startCodeLen : answer.2.getStartCodeLen = u.codeLen
  head : answer.2.getHead = u.header
  ebsp : ∀ ebsp, answer.2.getEbsp ebsp = (true, ⟨u.ebsp⟩)
  rbsp : ∀ behind rbsp, (Ebsp.getRbsp behind ⟨u.ebsp⟩ rbsp).val = some (true, ⟨u.body⟩)

theorem escape_ne_nil (u : WrittenUnit) : escape u.body ≠ [] := by
  intro h
  have hlast := getLast?_escapeFrom u.body 0
  rw [← escape, h, List.getLast?_nil, eq_comm, List.getLast?_eq_none_iff] at hlast
  have hlen := u.two_le_length
  simp [hlast] at hlen

theorem not_infix_ebsp (u : WrittenUnit) {c : UInt8} (hc : c ≤ 0x02) :
    ¬ [0, 0, c] <:+: u.ebsp := by
  rw [ebsp, List.infix_cons_iff, List.cons_prefix_cons]
  rintro (⟨h, -⟩ | h)
  · exact u.header_ne h.symm
  · exact no_low_escape u.body hc h

/-- Escaping rules out every start code between the written ones. -/
def nalUnit (u : WrittenUnit) : NalUnit where
  bytes := u.ebsp
  ne_nil := List.cons_ne_nil _ _
  no_zeros := u.not_infix_ebsp (by decide)
  no_code := u.not_infix_ebsp (by decide)
  last_ne := by
    rw [ebsp, List.getLast?_cons_of_ne_nil u.escape_ne_nil, escape, getLast?_escapeFrom]
    exact u.last_ne

def block (u : WrittenUnit) : Block := ⟨u.codeLen, u.codeLen_eq, u.nalUnit, 0⟩

theorem bytes_block (u : WrittenUnit) : u.block.bytes = codeBytes u.codeLen ++ u.ebsp := by
  simp [Block.bytes, block, nalUnit]

theorem byteStream_block (units : List WrittenUnit) :
    byteStream (units.map block) = writtenFile units := by
  simp [byteStream, writtenFile, List.flatMap_map, bytes_block]

theorem trailing_of_mem_block {units : List WrittenUnit} :
    ∀ b ∈ units.map block, b.trailing = 0 := by
  intro b hb
  obtain ⟨u, -, rfl⟩ := List.mem_map.mp hb
  rfl

theorem split_writtenFile (units : List WrittenUnit) :
    annexB.split (writtenFile units) =
      units.map fun u ↦ (u.codeLen, codeBytes u.codeLen ++ u.ebsp) := by
  rw [← byteStream_block, split_byteStream (settled_of_trailing trailing_of_mem_block), List.map_map]
  exact List.map_congr_left fun u _ ↦ by rw [← bytes_block]; rfl

theorem length_ebsp_le {units : List WrittenUnit} {u : WrittenUnit} (h : u ∈ units) :
    u.ebsp.length ≤ (writtenFile units).length := by
  have hmem : codeBytes u.codeLen ++ u.ebsp ∈
      units.map (fun u ↦ codeBytes u.codeLen ++ u.ebsp) := List.mem_map_of_mem h
  exact ((List.sublist_append_right _ _).trans (List.sublist_flatten_of_mem hmem)).length_le

theorem recovered (u : WrittenUnit) (h : u.ebsp.length < 2 ^ 31) :
    u.Recovered (true, toNalu (u.codeLen, codeBytes u.codeLen ++ u.ebsp)) := by
  refine ⟨rfl, rfl, ?_, fun ebsp ↦ ?_, fun behind rbsp ↦ ?_⟩
  · rw [toNalu_codeBytes u.codeLen_eq]
    exact Nalu.getHead_append (codeBytes_ne_nil _) u.header
  · rw [toNalu_codeBytes u.codeLen_eq]
    exact Nalu.getEbsp_append (codeBytes_ne_nil _) (List.cons_ne_nil _ _) ebsp
  · exact (Ebsp.getRbsp_escape_iff behind u.header rbsp u.two_le_length).mpr h

/-- One call for each unit and one more, wherever the reads end and whatever
lies behind the buffer. -/
theorem readNalus_writtenFile (fileName : String) (hname : fileName ≠ "")
    (units : List WrittenUnit) (hsize : (writtenFile units).length < 2 ^ 31)
    (calls : List NaluCall) (hcalls : calls.length = units.length + 1) :
    ∃ as last r', (readNalus calls
        (openReader { fileName } (some (writtenFile units)) none).2).val =
          (as ++ [last], some r') ∧
      List.Forall₂ Recovered units as ∧ last.1 = false := by
  have hlead : ZerosLead (writtenFile units) := by
    rw [← byteStream_block]
    exact zerosLead_byteStream trailing_of_mem_block
  have hrun := readNalus_eq calls (opened fileName (writtenFile units) none)
  rw [available_opened, split_writtenFile] at hrun
  obtain ⟨r', hval⟩ := hrun (unitsFit_of_length hsize) (Or.inl hlead)
  obtain ⟨nalu, hanswers⟩ := answers_of_length
    (hcalls.trans (congrArg (· + 1) (List.length_map
      fun u : WrittenUnit ↦ (u.codeLen, codeBytes u.codeLen ++ u.ebsp)).symm))
  refine ⟨_, _, r', by rw [openReader_new hname, hval, hanswers], ?_, rfl⟩
  rw [List.map_map, List.forall₂_map_right_iff, List.forall₂_same]
  exact fun u hu ↦ u.recovered ((length_ebsp_le hu).trans_lt hsize)

theorem readNalus_writtenFile_two :
    ∃ units : List WrittenUnit, units.map body = [[0x00, 0x00, 0x01], [0x00, 0x00, 0x00, 0x80]] ∧
      ∃ as last r', (readNalus (List.replicate 3 ⟨fun _ _ ↦ 0x01, {}⟩)
          (openReader { fileName := "a" } (some (writtenFile units)) none).2).val =
            (as ++ [last], some r') ∧
        List.Forall₂ Recovered units as ∧ last.1 = false :=
  ⟨[⟨4, 0x67, [0x00, 0x00, 0x01], Or.inr rfl, by decide, by decide, by decide⟩,
      ⟨3, 0x68, [0x00, 0x00, 0x00, 0x80], Or.inl rfl, by decide, by decide, by decide⟩], rfl,
    readNalus_writtenFile "a" (by decide) _ (by decide) _ rfl⟩

end WrittenUnit

end H264SendReceiver
