import H264SendReceiver.AnnexB.Runs

/-!
# Byte streams

NAL units written one after the other, each behind a start code and with a
number of zero bytes behind it. A stream splits into its blocks unless a
start code takes over a zero byte in front of it.
-/

namespace H264SendReceiver

/-- A NAL unit may be followed by a start code: it has none inside, nor the
beginning of one at its end. -/
structure NalUnit where
  bytes : List UInt8
  ne_nil : bytes ≠ []
  no_zeros : ¬ [0, 0, 0] <:+: bytes
  no_code : ¬ [0, 0, 1] <:+: bytes
  last_ne : bytes.getLast? ≠ some 0

structure Block where
  codeLen : ℕ
  codeLen_eq : codeLen = 3 ∨ codeLen = 4
  nal : NalUnit
  trailing : ℕ := 0

def codeBytes (n : ℕ) : List UInt8 := List.replicate (n - 1) 0 ++ [1]

def Block.bytes (b : Block) : List UInt8 :=
  codeBytes b.codeLen ++ (b.nal.bytes ++ List.replicate b.trailing 0)

def byteStream (bs : List Block) : List UInt8 := bs.flatMap Block.bytes

theorem byteStream_cons (b : Block) (bs : List Block) :
    byteStream (b :: bs) = b.bytes ++ byteStream bs := List.flatMap_cons

theorem length_codeBytes {n : ℕ} (h : n = 3 ∨ n = 4) : (codeBytes n).length = n := by
  rcases h with rfl | rfl <;> rfl

theorem toNalu_codeBytes {n : ℕ} (h : n = 3 ∨ n = 4) (payload : List UInt8) :
    FileReader.toNalu (n, codeBytes n ++ payload) =
      ⟨(codeBytes n).length, codeBytes n ++ payload⟩ := by
  rw [length_codeBytes h]
  rfl

theorem codeBytes_ne_nil (n : ℕ) : codeBytes n ≠ [] := by simp [codeBytes]

theorem startCode_codeBytes {n : ℕ} (h : n = 3 ∨ n = 4) (rest : List UInt8) :
    startCode (codeBytes n ++ rest) = some n := by
  rcases h with rfl | rfl
  · exact startCode_eq_three_iff.mpr (List.prefix_append _ _)
  · exact startCode_eq_four_iff.mpr (List.prefix_append _ _)

theorem startCode_byteStream_cons (b : Block) (bs : List Block) :
    startCode (byteStream (b :: bs)) = some b.codeLen := by
  rw [byteStream_cons, Block.bytes, List.append_assoc]
  exact startCode_codeBytes b.codeLen_eq _

theorem startCode_eq_none_of {l : List UInt8} (hzeros : ¬ [0, 0, 0] <+: l)
    (hcode : ¬ [0, 0, 1] <+: l) : startCode l = none := by
  rw [startCode, if_neg hcode, if_neg]
  exact fun h ↦ hzeros ((List.prefix_append [0, 0, 0] [1]).trans h)

/-- No start code begins inside a NAL unit, whatever follows it. -/
theorem NalUnit.not_prefix_drop (nal : NalUnit) {i : ℕ} (hi : i < nal.bytes.length)
    (rest : List UInt8) :
    ¬ [0, 0, 0] <+: nal.bytes.drop i ++ rest ∧ ¬ [0, 0, 1] <+: nal.bytes.drop i ++ rest := by
  have hlast : (nal.bytes.drop i).getLast? ≠ some 0 := by
    rw [List.getLast?_drop, if_neg (by omega)]
    exact nal.last_ne
  have hin : ∀ p : List UInt8, ¬ p <:+: nal.bytes → ¬ p <+: nal.bytes.drop i :=
    fun p hp h ↦ hp (h.isInfix.trans (List.drop_suffix i _).isInfix)
  have hzeros := hin _ nal.no_zeros
  have hcode := hin _ nal.no_code
  rcases hv : nal.bytes.drop i with _ | ⟨a, _ | ⟨b, _ | ⟨c, t⟩⟩⟩
  · exact absurd hv (by simpa using hi)
  · have ha : a ≠ 0 := by simpa [hv] using hlast
    simp [Ne.symm ha]
  · have hb : b ≠ 0 := by simpa [hv] using hlast
    simp [Ne.symm hb]
  · rw [hv] at hzeros hcode
    simpa using And.intro hzeros hcode

theorem NalUnit.startCode_drop (nal : NalUnit) {i : ℕ} (hi : i < nal.bytes.length)
    (rest : List UInt8) : startCode (nal.bytes.drop i ++ rest) = none :=
  startCode_eq_none_of (nal.not_prefix_drop hi rest).1 (nal.not_prefix_drop hi rest).2

theorem startCode_replicate {k : ℕ} (hk : 0 < k) {rest : List UInt8}
    (hrest : rest = [] ∨ startCode rest = some 4) :
    startCode (List.replicate k 0 ++ rest) = none := by
  obtain ⟨k, rfl⟩ := Nat.exists_eq_add_of_lt hk
  rcases hrest with rfl | hfour
  · cases hs : startCode (List.replicate (0 + k + 1) 0 ++ []) with
    | none => rfl
    | some n =>
        have hone : (1 : UInt8) ∈ List.replicate (0 + k + 1) (0 : UInt8) ++ [] := by
          rcases startCode_eq_some hs with rfl | rfl
          · exact (startCode_eq_three_iff.mp hs).subset (by simp)
          · exact (startCode_eq_four_iff.mp hs).subset (by simp)
        simp at hone
  · obtain ⟨t, rfl⟩ := startCode_eq_four_iff.mp hfour
    rcases k with _ | _ | _ | k <;> simp [startCode, List.replicate_succ]

/-- No start code takes over a zero byte in front of it. -/
def Settled (bs : List Block) : Prop :=
  bs.IsChain fun b c ↦ 0 < b.trailing → c.codeLen = 4

theorem settled_of_trailing {bs : List Block} (h : ∀ b ∈ bs, b.trailing = 0) : Settled bs :=
  List.Pairwise.isChain <| List.pairwise_of_forall_mem_list fun b hb _ _ hpos ↦
    absurd (h b hb) hpos.ne'

theorem split_byteStream {bs : List Block} (h : Settled bs) :
    annexB.split (byteStream bs) = bs.map fun b ↦ (b.codeLen, b.bytes) := by
  induction bs with
  | nil => exact annexB.split_nil
  | cons b bs ih =>
      have hlen := length_codeBytes b.codeLen_eq
      have hrest : byteStream bs = [] ∨ (startCode (byteStream bs)).isSome := by
        cases bs with
        | nil => exact Or.inl rfl
        | cons c bs => exact Or.inr (by rw [startCode_byteStream_cons]; rfl)
      have hfour : 0 < b.trailing →
          byteStream bs = [] ∨ startCode (byteStream bs) = some 4 := by
        intro hpos
        cases bs with
        | nil => exact Or.inl rfl
        | cons c bs =>
            rw [startCode_byteStream_cons, (List.isChain_cons_cons.mp h).1 hpos]
            exact Or.inr rfl
      rw [byteStream_cons, List.map_cons, ← ih (List.isChain_of_isChain_cons h)]
      refine annexB.split_block (startCode_byteStream_cons b bs) ?_ hrest fun i hs hi ↦ ?_
      · rw [Block.bytes, List.length_append]
        omega
      · -- position `i` lies in the NAL unit or in the zero bytes behind it
        change startCode _ = none
        obtain ⟨k, rfl⟩ := Nat.exists_eq_add_of_le hs
        simp only [Block.bytes, List.length_append, List.length_replicate] at hi
        rw [Block.bytes, List.append_assoc, ← List.drop_drop, List.drop_left' hlen,
          List.append_assoc]
        by_cases hk : k < b.nal.bytes.length
        · rw [List.drop_append_of_le_length hk.le]
          exact b.nal.startCode_drop hk _
        · rw [List.drop_append, List.drop_eq_nil_of_le (by omega), List.nil_append,
            List.drop_append_of_le_length (by rw [List.length_replicate]; omega),
            List.drop_replicate]
          exact startCode_replicate (by omega) (hfour (by omega))

/-- Without trailing zeros every run of three zero bytes belongs to a start
code. -/
theorem zerosLead_byteStream {bs : List Block} (h : ∀ b ∈ bs, b.trailing = 0) :
    ZerosLead (byteStream bs) := by
  induction bs with
  | nil =>
      intro i hi
      simp [byteStream] at hi
  | cons b bs ih =>
      have hlen := length_codeBytes b.codeLen_eq
      have hrest := ih fun c hc ↦ h c (List.mem_cons_of_mem _ hc)
      rw [byteStream_cons, Block.bytes, h b (List.mem_cons_self ..), List.replicate_zero,
        List.append_nil, List.append_assoc]
      intro i hi
      by_cases hcode : i < b.codeLen
      · rcases b.codeLen_eq with hb | hb <;> rw [hb] at hcode hi ⊢
        · rcases i with _ | _ | _ | i <;> simp [codeBytes, List.replicate] at hi
          omega
        · rcases i with _ | _ | _ | _ | i <;> simp [codeBytes, List.replicate] at hi ⊢
          omega
      · obtain ⟨k, rfl⟩ := Nat.exists_eq_add_of_le (Nat.le_of_not_lt hcode)
        rw [← List.drop_drop, List.drop_left' hlen] at hi ⊢
        by_cases hk : k < b.nal.bytes.length
        · rw [List.drop_append_of_le_length hk.le] at hi
          exact absurd hi (b.nal.not_prefix_drop hk _).1
        · rw [List.drop_append, List.drop_eq_nil_of_le (by omega), List.nil_append] at hi ⊢
          exact hrest _ hi

theorem not_infix_slice {p : List UInt8} (h : 0x00 ∈ p) (n : ℕ) :
    ¬ p <:+: List.replicate n 0x41 := by
  intro hin
  have hzero := List.eq_of_mem_replicate (hin.subset h)
  exact absurd hzero (by decide)

theorem getLast?_slice (n : ℕ) : (List.replicate (n + 1) (0x41 : UInt8)).getLast? ≠ some 0x00 := by
  simp [List.getLast?_replicate]

def sliceBlock (n : ℕ) : Block where
  codeLen := 3
  codeLen_eq := Or.inl rfl
  nal := {
    bytes := List.replicate (n + 1) 0x41
    ne_nil := List.cons_ne_nil _ _
    no_zeros := not_infix_slice (List.mem_cons_self ..) _
    no_code := not_infix_slice (List.mem_cons_self ..) _
    last_ne := getLast?_slice n }

theorem length_bytes_sliceBlock (n : ℕ) : (sliceBlock n).bytes.length = n + 4 := by
  simp [Block.bytes, sliceBlock, codeBytes]

end H264SendReceiver
