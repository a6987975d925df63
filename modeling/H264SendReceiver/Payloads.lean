import H264SendReceiver.Fields
import H264SendReceiver.Transcript

/-!
# From fields to a file and back

A payload is a list of fields, a stop bit and zero bits up to a whole byte.
Escaped, put behind a header and a start code and written to a file, it comes
back through all stages of the reader.
-/

namespace H264SendReceiver

open Bits BitStream FileReader

def trailingBits (n : ℕ) : List Bool := true :: List.replicate (7 - n % 8) false

namespace Field

def payload (fs : List Field) : List UInt8 := pack (encode fs ++ trailingBits (encode fs).length)

theorem bitsOf_payload (fs : List Field) :
    bitsOf (payload fs) = encode fs ++ trailingBits (encode fs).length := by
  apply bitsOf_pack
  rw [List.length_append, trailingBits, List.length_cons, List.length_replicate]
  omega

theorem length_payload (fs : List Field) : (payload fs).length = (encode fs).length / 8 + 1 := by
  have hlen := congrArg List.length (bitsOf_payload fs)
  rw [length_bitsOf, List.length_append, trailingBits, List.length_cons,
    List.length_replicate] at hlen
  omega

/-- The stop bit keeps the last byte from being zero. -/
theorem getLast?_payload (fs : List Field) : (payload fs).getLast? ≠ some 0x00 := by
  intro hlast
  obtain ⟨ys, hys⟩ := List.getLast?_eq_some_iff.mp hlast
  have hbits := bitsOf_payload fs
  have hzero : bitsOf [0x00] =
      List.replicate (7 - (7 - (encode fs).length % 8)) false ++
        (false :: List.replicate (7 - (encode fs).length % 8) false) := by
    rw [← List.replicate_succ, List.replicate_append_replicate,
      show 7 - (7 - (encode fs).length % 8) + (7 - (encode fs).length % 8 + 1) = 8 by omega]
    rfl
  rw [hys, bitsOf_append, hzero, ← List.append_assoc, trailingBits] at hbits
  have hstop := (List.append_inj_right' hbits rfl)
  simp at hstop

end Field

/-- A NALU whose payload is made of fields. -/
structure FieldUnit where
  codeLen : ℕ
  header : UInt8
  fields : List Field
  codeLen_eq : codeLen = 3 ∨ codeLen = 4
  header_ne : header ≠ 0x00
  inRange : ∀ f ∈ fields, f.InRange
  /-- With the stop bit that makes two bytes. -/
  eight_le_length : 8 ≤ (Field.encode fields).length

namespace FieldUnit

def written (u : FieldUnit) : WrittenUnit where
  codeLen := u.codeLen
  header := u.header
  body := Field.payload u.fields
  codeLen_eq := u.codeLen_eq
  header_ne := u.header_ne
  two_le_length := by
    have hlen := u.eight_le_length
    rw [Field.length_payload]
    omega
  last_ne := Field.getLast?_payload u.fields

/-- The stages of the reader make the header and the fields of the unit out of
the NALU, and stop in front of the trailing bits. -/
structure Parsed (u : FieldUnit) (n : Nalu) : Prop where
  head : n.getHead = u.header
  fields : ∀ behind, ∃ (e : Ebsp) (rbsp : Rbsp) (h : rbsp.buffer.length < 2 ^ 61),
    n.getEbsp {} = (true, e) ∧ (e.getRbsp behind {}).val = some (true, rbsp) ∧
      ∃ s', Field.readAll? u.fields (ofBuffer rbsp.buffer h) =
          some (u.fields.map Field.result, s') ∧
        s'.unread = trailingBits (Field.encode u.fields).length

theorem readAll?_payload_iff (fs : List Field) (hfs : ∀ f ∈ fs, f.InRange)
    (h : (Field.payload fs).length < 2 ^ 61) :
    (∃ s', Field.readAll? fs (ofBuffer (Field.payload fs) h) = some (fs.map Field.result, s') ∧
        s'.unread = trailingBits (Field.encode fs).length) ↔ ∀ f ∈ fs, f.Safe := by
  have hbits : (ofBuffer (Field.payload fs) h).bits.drop 0 =
      Field.encode fs ++ trailingBits (Field.encode fs).length := Field.bitsOf_payload fs
  obtain ⟨hsafe, hcursor⟩ := Field.readAll?_seek fs hfs 0 (Nat.zero_le _) hbits
  rw [← hsafe, Option.map_eq_some_iff]
  constructor
  · rintro ⟨s', hread, -⟩
    exact ⟨_, hread, rfl⟩
  · rintro ⟨⟨rets, s'⟩, hread, rfl⟩
    refine ⟨s', hread, ?_⟩
    obtain rfl : s' = _ := hcursor _ hread
    rw [unread_seek, Nat.zero_add]
    exact (congrArg (List.drop (Field.encode fs).length) hbits).trans List.drop_left

theorem parsed_iff (u : FieldUnit) (hsize : u.written.ebsp.length < 2 ^ 31) :
    u.Parsed u.written.nalu ↔ ∀ f ∈ u.fields, f.Safe := by
  have hrec := u.written.recovered hsize
  have hlen : (Field.payload u.fields).length < 2 ^ 61 := by
    have hescape := Emulation.length_le_length_escapeFrom (Field.payload u.fields) 0
    have hebsp : (Emulation.escape (Field.payload u.fields)).length + 1 < 2 ^ 31 := hsize
    rw [Emulation.escape] at hebsp
    omega
  rw [← readAll?_payload_iff u.fields u.inRange hlen]
  constructor
  · intro h
    obtain ⟨e, rbsp, hfit, hebsp, hrbsp, hread⟩ := h.fields fun _ ↦ 0
    obtain ⟨-, rfl⟩ := Prod.mk.inj (hebsp.symm.trans (hrec.ebsp {}))
    have hval := hrbsp.symm.trans (hrec.rbsp (fun _ ↦ 0) {})
    simp only [Option.some.injEq, Prod.mk.injEq, true_and] at hval
    subst hval
    exact hread
  · intro h
    exact ⟨hrec.head, fun behind ↦ ⟨⟨u.written.ebsp⟩, ⟨Field.payload u.fields⟩, hlen,
      hrec.ebsp {}, hrec.rbsp behind {}, h⟩⟩

/-- A file of payloads comes back as the fields that were written, whatever lies
behind any buffer, exactly when all values are safe ones. -/
theorem parsed_writtenFile_iff (fileName : String) (us : List FieldUnit)
    (hsize : (WrittenUnit.writtenFile (us.map written)).length < 2 ^ 31)
    (mem : ℕ → ℕ → ℕ → UInt8) :
    ∃ nalus r', (readLoop mem ((WrittenUnit.writtenFile (us.map written)).length + 1)
        (opened fileName (WrittenUnit.writtenFile (us.map written)) none) {}).val =
          some (nalus, r') ∧
      (List.Forall₂ Parsed us nalus ↔ ∀ u ∈ us, ∀ f ∈ u.fields, f.Safe) := by
  obtain ⟨r', hread⟩ := WrittenUnit.readLoop_writtenFile fileName (us.map written) hsize mem
  refine ⟨_, r', hread, ?_⟩
  rw [List.map_map, List.forall₂_map_right_iff, List.forall₂_same]
  apply forall₂_congr
  intro u hu
  apply u.parsed_iff
  have hmem := List.mem_map_of_mem (f := written) hu
  exact (WrittenUnit.length_ebsp_le hmem).trans_lt hsize

/-- Two units, one of them with zero bytes that need escaping. -/
theorem parsed_writtenFile_iff_two :
    ∃ us : List FieldUnit, us.map fields =
        [[.unsigned (.u 8 66), .unsigned (.ue 0), .se (-2)],
          [.unsigned (.u 32 0), .flag true, .unsigned (.ue (2 ^ 31 - 1))]] ∧
      ∃ nalus r', (readLoop (fun _ _ _ ↦ 0x01)
          ((WrittenUnit.writtenFile (us.map written)).length + 1)
          (opened "a" (WrittenUnit.writtenFile (us.map written)) none) {}).val =
            some (nalus, r') ∧
        (List.Forall₂ Parsed us nalus ↔ ∀ u ∈ us, ∀ f ∈ u.fields, f.Safe) :=
  ⟨[⟨4, 0x67, [.unsigned (.u 8 66), .unsigned (.ue 0), .se (-2)], Or.inr rfl, by decide,
        by simp [Field.InRange, SyntaxElement.Valid], by decide +kernel⟩,
      ⟨3, 0x68, [.unsigned (.u 32 0), .flag true, .unsigned (.ue (2 ^ 31 - 1))], Or.inl rfl,
        by decide, by simp [Field.InRange, SyntaxElement.Valid], by decide +kernel⟩], rfl,
    parsed_writtenFile_iff "a" _ (by decide +kernel) _⟩

end FieldUnit

end H264SendReceiver
