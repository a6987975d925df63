import H264SendReceiver.AnnexB.ByteStream
import H264SendReceiver.Misled
import Mathlib.Data.List.Chain

/-!
# Zero bytes between NAL units

A zero byte in front of a three-byte start code makes it a four-byte one, and
the reader takes it so. Every other zero byte stays where it is: at the front
of the file, where it hides the start code, or at the end of a NALU.
-/

namespace H264SendReceiver

def paddedStream (leading : ℕ) (bs : List Block) : List UInt8 :=
  List.replicate leading 0 ++ byteStream bs

/-- Every start code and the zero bytes in front of it make four bytes at
most, and none follow the last unit. -/
def Absorbed : ℕ → List Block → Prop
  | zeros, [] => zeros = 0
  | zeros, b :: bs => zeros + b.codeLen ≤ 4 ∧ Absorbed b.trailing bs

/-- The blocks as the reader sees them, and the zero bytes in front of them
that no start code takes over. -/
def settle : ℕ → List Block → ℕ × List Block
  | zeros, [] => (zeros, [])
  | zeros, b :: bs =>
      let rest := settle b.trailing bs
      if 0 < zeros ∧ b.codeLen = 3 then
        (zeros - 1, ⟨4, Or.inr rfl, b.nal, rest.1⟩ :: rest.2)
      else (zeros, { b with trailing := rest.1 } :: rest.2)

theorem paddedStream_settle (bs : List Block) : ∀ zeros,
    paddedStream (settle zeros bs).1 (settle zeros bs).2 = paddedStream zeros bs := by
  induction bs with
  | nil => intro zeros; rfl
  | cons b bs ih =>
      intro zeros
      have hrest := ih b.trailing
      simp only [paddedStream] at hrest
      rw [settle]
      split_ifs with h
      · obtain ⟨k, rfl⟩ : ∃ k, zeros = k + 1 := ⟨zeros - 1, by omega⟩
        have hfour : codeBytes 4 = [0] ++ codeBytes 3 := rfl
        simp only [paddedStream, byteStream_cons, Block.bytes, List.append_assoc, hrest, h.2,
          hfour, Nat.add_sub_cancel, List.replicate_succ']
      · simp only [paddedStream, byteStream_cons, Block.bytes, List.append_assoc, hrest]

theorem map_nal_settle (bs : List Block) : ∀ zeros,
    (settle zeros bs).2.map Block.nal = bs.map Block.nal := by
  induction bs with
  | nil => intro zeros; rfl
  | cons b bs ih =>
      intro zeros
      rw [settle]
      split_ifs <;> simp [ih]

theorem settle_head (zeros : ℕ) (bs : List Block) (h : 0 < (settle zeros bs).1) :
    ∀ b ∈ (settle zeros bs).2.head?, b.codeLen = 4 := by
  cases bs with
  | nil => simp [settle]
  | cons b bs =>
      rw [settle] at h ⊢
      split_ifs at h ⊢ with hthree
      · simp
      · have hlen := b.codeLen_eq
        simp only [List.head?_cons, Option.mem_some_iff, forall_eq'] at h ⊢
        omega

theorem settled_settle (bs : List Block) : ∀ zeros, Settled (settle zeros bs).2 := by
  induction bs with
  | nil => intro zeros; exact List.IsChain.nil
  | cons b bs ih =>
      intro zeros
      have hhead := settle_head b.trailing bs
      rw [settle]
      split_ifs <;>
        exact List.isChain_cons.mpr ⟨fun c hc hpos ↦ hhead hpos c hc, ih b.trailing⟩

theorem absorbed_iff (bs : List Block) : ∀ zeros,
    Absorbed zeros bs ↔ (settle zeros bs).1 = 0 ∧ ∀ b ∈ (settle zeros bs).2, b.trailing = 0 := by
  induction bs with
  | nil => intro zeros; simp [Absorbed, settle]
  | cons b bs ih =>
      intro zeros
      have hlen := b.codeLen_eq
      rw [Absorbed, ih b.trailing, settle]
      split_ifs with h <;> simp only [List.forall_mem_cons]
      · exact and_congr_left fun _ ↦ by omega
      · exact and_congr_left fun _ ↦ by omega

theorem settle_fst_le (zeros : ℕ) (bs : List Block) : (settle zeros bs).1 ≤ zeros := by
  cases bs with
  | nil => exact le_rfl
  | cons b bs =>
      rw [settle]
      split_ifs
      · exact Nat.sub_le _ _
      · exact le_rfl

theorem length_bytes_settle (bs : List Block) : ∀ zeros,
    (∀ b ∈ bs.dropLast, b.bytes.length + 1 < 2 ^ 31) →
    ∀ b ∈ (settle zeros bs).2.dropLast, b.bytes.length < 2 ^ 31 := by
  induction bs with
  | nil => simp [settle]
  | cons b bs ih =>
      intro zeros hfit c hc
      have hnal := congrArg List.length (map_nal_settle bs b.trailing)
      have hle := settle_fst_le b.trailing bs
      simp only [List.length_map] at hnal
      cases bs with
      | nil =>
          rw [settle] at hc
          split_ifs at hc <;> simp [settle] at hc
      | cons d bs =>
          have hne : (settle b.trailing (d :: bs)).2 ≠ [] := by
            rintro hnil
            simp [hnil] at hnal
          have hlen := hfit b (by simp)
          have hrest := ih b.trailing fun e he ↦ hfit e (by simp [he])
          rw [settle] at hc
          split_ifs at hc with hthree <;>
            rw [List.dropLast_cons_of_ne_nil hne, List.mem_cons] at hc <;>
            obtain rfl | hc := hc
          · simp only [Block.bytes, List.length_append, List.length_replicate,
              length_codeBytes b.codeLen_eq, length_codeBytes (Or.inr rfl)] at hlen ⊢
            omega
          · exact hrest c hc
          · simp only [Block.bytes, List.length_append, List.length_replicate] at hlen ⊢
            omega
          · exact hrest c hc

theorem split_paddedStream (leading : ℕ) (bs : List Block) :
    annexB.split (paddedStream leading bs) =
      if (settle leading bs).1 = 0 then (settle leading bs).2.map fun b ↦ (b.codeLen, b.bytes)
      else [] := by
  rw [← paddedStream_settle]
  split_ifs with hzero
  · rw [hzero, paddedStream, List.replicate_zero, List.nil_append,
      split_byteStream (settled_settle bs leading)]
  · refine annexB.split_of_mark_none (startCode_replicate (Nat.pos_of_ne_zero hzero) ?_)
    have hhead := settle_head leading bs (Nat.pos_of_ne_zero hzero)
    cases hbs : (settle leading bs).2 with
    | nil => exact Or.inl rfl
    | cons b rest =>
        rw [hbs] at hhead
        rw [startCode_byteStream_cons, hhead b rfl]
        exact Or.inr rfl

theorem unitsFit_paddedStream (leading : ℕ) {bs : List Block}
    (hfit : ∀ b ∈ bs.dropLast, b.bytes.length + 1 < 2 ^ 31) :
    FileReader.UnitsFit (paddedStream leading bs) := by
  intro u hu
  rw [split_paddedStream] at hu
  split_ifs at hu
  · rw [← List.map_dropLast] at hu
    obtain ⟨b, hb, rfl⟩ := List.mem_map.mp hu
    exact length_bytes_settle bs leading hfit b hb
  · simp at hu

namespace FileReader

def ebsps (units : List (ℕ × List UInt8)) : List Ebsp := units.filterMap fun u ↦ ebsp? (toNalu u)

theorem ebsps_blocks (bs : List Block) :
    ebsps (bs.map fun b ↦ (b.codeLen, b.bytes)) =
      bs.map fun b ↦ ⟨b.nal.bytes ++ List.replicate b.trailing 0⟩ := by
  rw [ebsps, List.filterMap_map, ← List.filterMap_eq_map]
  refine List.filterMap_congr fun b _ ↦ ?_
  have hne : b.nal.bytes ++ List.replicate b.trailing 0 ≠ [] := by simp [b.nal.ne_nil]
  simp only [Function.comp, Block.bytes, toNalu_codeBytes b.codeLen_eq, ebsp?,
    Nalu.getEbsp_append (codeBytes_ne_nil _) hne]
  rfl

section FuncTestEbsp

variable {fileName : String} (hname : fileName ≠ "") (mem : ℕ → ℕ → ℕ → UInt8)
include hname

theorem funcTestEbsp_of_readLoop {D : List UInt8} {nalus : List Nalu} {r' : FileReader}
    (h : (readLoop mem (D.length + 1) (opened fileName D none) {}).val = some (nalus, r')) :
    funcTestEbsp mem fileName (some D) = some (nalus.filterMap ebsp?, r'.close) := by
  have hremaining : (opened fileName D none).remaining = D := rfl
  have hbodies : (nalus.mapIdx fun _ n ↦ some (ebsp? n)) = (nalus.map ebsp?).map some :=
    List.ext_getElem (by simp) (by simp)
  have hloop : (naluLoop (fun _ n ↦ pure (some (ebsp? n))) mem (fun _ _ ↦ 0) (D.length + 1)
      (opened fileName D none) {}).val = some (nalus.map ebsp?, r') :=
    val_naluLoop (D.length + 1) mem _ _ _ h hbodies
  rw [funcTestEbsp, openReader_new hname]
  simp [hremaining, hloop, List.filterMap_map]

theorem funcTestEbsp_eq {D : List UInt8} (hfit : UnitsFit D)
    (hmem : ZerosLead D ∨ ∀ c i, mem c i 0 ≠ 0x01) :
    ∃ r', funcTestEbsp mem fileName (some D) = some (ebsps (annexB.split D), r') := by
  obtain ⟨r', hread⟩ := readLoop_opened fileName hfit hmem
  refine ⟨r'.close, ?_⟩
  rw [funcTestEbsp_of_readLoop hname mem hread, List.filterMap_map]
  rfl

/-- A file of zero bytes: the byte behind three of them can make a NALU of the
file, but one without an EBSP. -/
theorem funcTestEbsp_zeros (k : ℕ) :
    ∃ r', funcTestEbsp mem fileName (some (List.replicate k 0)) = some ([], r') := by
  obtain ⟨D, hD⟩ : ∃ D : List UInt8, D = List.replicate k 0 := ⟨_, rfl⟩
  have hlen : D.length = k := by rw [hD, List.length_replicate]
  have havail := available_opened fileName D
  have hnone (j : ℕ) : startCode (List.replicate j 0) = none := by
    cases j with
    | zero => rfl
    | succ j => simpa using startCode_replicate (Nat.succ_pos j) (Or.inl (Eq.refl []))
  rw [← hD]
  by_cases hk : k = 3
  · obtain ⟨nalus, r', hread, hreading⟩ := readLoop_reading (D.length + 1) mem
      (opened fileName D none) {} (by rw [havail]; omega) (by rw [havail]; omega)
    rw [havail] at hreading
    refine ⟨r'.close, ?_⟩
    rw [funcTestEbsp_of_readLoop hname mem hread]
    rcases hreading.eq_nil_of_none (hD ▸ hnone k) with rfl | ⟨-, rfl⟩ <;> rfl
  · have htrue : Truthful (mem 0) (opened fileName D none) := by
      intro j _ hover
      have hdata : (opened fileName D none).data (j + 1) =
          List.replicate (min (1024 * (j + 1)) k) 0 := by
        simp [opened, data, Ifstream.avail, hD]
      rw [hdata] at hover
      rcases hover with hthree | ⟨s, hs, -, -⟩
      · have hcount := congrArg List.length hthree
        simp only [List.length_replicate, List.length_cons, List.length_nil] at hcount
        omega
      · simp [hnone] at hs
    have hsplit : annexB.split (opened fileName D none).available = [] := by
      rw [havail, hD]
      exact annexB.split_of_mark_none (hnone k)
    obtain ⟨r', hval, -⟩ := readNalu_split_nil htrue hsplit {}
    have hread : (readLoop mem (D.length + 1) (opened fileName D none) {}).val =
        some ([], r') := by
      rw [readLoop_refused hval]
    exact ⟨r'.close, funcTestEbsp_of_readLoop hname mem hread⟩

/-- The EBSPs of the padded file are the NAL units exactly when every zero
byte is part of a start code, or there is no unit at all. -/
theorem funcTestEbsp_padded_iff (leading : ℕ) (bs : List Block)
    (hfit : ∀ b ∈ bs.dropLast, b.bytes.length + 1 < 2 ^ 31) :
    (∀ mem, ∃ r', funcTestEbsp mem fileName (some (paddedStream leading bs)) =
        some (bs.map fun b ↦ ⟨b.nal.bytes⟩, r')) ↔
      bs = [] ∨ Absorbed leading bs := by
  have hunits := unitsFit_paddedStream leading hfit
  have hsplit := split_paddedStream leading bs
  have hnals : bs.map (fun b ↦ (⟨b.nal.bytes⟩ : Ebsp)) =
      (settle leading bs).2.map fun b ↦ ⟨b.nal.bytes⟩ := by
    have hmap := congrArg (List.map fun nal : NalUnit ↦ (⟨nal.bytes⟩ : Ebsp))
      (map_nal_settle bs leading)
    rw [List.map_map, List.map_map] at hmap
    exact hmap.symm
  constructor
  · -- zeros behind the buffer are no start code: the EBSPs show every zero left
    intro h
    obtain ⟨r', hread⟩ := h fun _ _ _ ↦ 0
    obtain ⟨r'', heq⟩ := funcTestEbsp_eq hname (fun _ _ _ ↦ 0) hunits
      (Or.inr fun _ _ ↦ by decide)
    rw [heq, hsplit, Option.some.injEq, Prod.mk.injEq] at hread
    split_ifs at hread with hzero
    · refine Or.inr ((absorbed_iff bs leading).mpr ⟨hzero, fun b hb ↦ ?_⟩)
      rw [ebsps_blocks, hnals] at hread
      have hb := List.map_inj_left.mp hread.1 b hb
      simpa using hb
    · exact Or.inl (by simpa [ebsps] using hread.1.symm)
  · rintro (rfl | habs) mem
    · simpa [paddedStream, byteStream] using funcTestEbsp_zeros hname mem leading
    · obtain ⟨hzero, htrailing⟩ := (absorbed_iff bs leading).mp habs
      have hlead : ZerosLead (paddedStream leading bs) := by
        rw [← paddedStream_settle, paddedStream, hzero, List.replicate_zero, List.nil_append]
        exact zerosLead_byteStream htrailing
      obtain ⟨r', heq⟩ := funcTestEbsp_eq hname mem hunits (Or.inl hlead)
      rw [hsplit, if_pos hzero, ebsps_blocks] at heq
      refine ⟨r', heq.trans ?_⟩
      rw [hnals, List.map_congr_left fun b hb ↦ ?_]
      rw [htrailing b hb, List.replicate_zero, List.append_nil]

end FuncTestEbsp

theorem funcTestEbsp_padded_iff_two :
    (∀ mem, ∃ r', funcTestEbsp mem "a"
        (some (paddedStream 1 [{ sliceBlock 0 with trailing := 1 }, sliceBlock 0])) =
          some ([{ sliceBlock 0 with trailing := 1 }, sliceBlock 0].map fun b ↦ ⟨b.nal.bytes⟩,
            r')) ↔
      [{ sliceBlock 0 with trailing := 1 }, sliceBlock 0] = [] ∨
        Absorbed 1 [{ sliceBlock 0 with trailing := 1 }, sliceBlock 0] :=
  funcTestEbsp_padded_iff (by decide) 1 _ (by decide)

/-- A zero byte at the end of the file comes back as part of the EBSP. -/
theorem funcTestEbsp_padded_fails :
    ¬ ∀ (fileName : String) (mem : ℕ → ℕ → ℕ → UInt8) (leading : ℕ) (bs : List Block),
      fileName ≠ "" → ∃ r', funcTestEbsp mem fileName (some (paddedStream leading bs)) =
        some (bs.map fun b ↦ ⟨b.nal.bytes⟩, r') := by
  intro h
  obtain ⟨r', hread⟩ := h "a" (fun _ _ _ ↦ 0) 0 [{ sliceBlock 0 with trailing := 1 }] (by decide)
  have hcode := congrArg (Option.map Prod.fst) hread
  revert hcode
  exact (by decide +kernel : ¬ (funcTestEbsp (fun _ _ _ ↦ 0) "a"
    (some (paddedStream 0 [{ sliceBlock 0 with trailing := 1 }]))).map Prod.fst = some [⟨[0x41]⟩])

end FileReader

end H264SendReceiver
