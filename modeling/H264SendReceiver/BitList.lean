import H264SendReceiver.Cursor
import H264SendReceiver.Library.Simulation

/-!
# A stream is a list of bits

The bytes, the cursor and the alignment of a stream do not matter to its
callers: every call answers as it would on the list of the unread bits, of
which it drops those it has read.
-/

namespace H264SendReceiver

open Bits BitStream Simulation

namespace ReadCall

/-- A call with its result. -/
def answer (wide : CInt → ℕ → CInt) (s : NaluStream) : ReadCall → CInt × NaluStream
  | readOneBit => s.readOneBit.val
  | readNBits count => (s.readNBits wide count).val
  | readUev => (NaluStream.readUev wide s).val
  | readSev => (NaluStream.readSev wide s).val

/-- The `int` made of bits, the first one shifted furthest. -/
def assembleBits (wide : CInt → ℕ → CInt) : List Bool → CInt
  | [] => 0
  | b :: bs => CInt.shl wide (BitVec.ofNat 32 b.toNat) bs.length ||| assembleBits wide bs

/-- The number that an Exp-Golomb decoder makes of the bits in front of it. -/
def codeNumOf (wide : CInt → ℕ → CInt) (u : List Bool) : CInt :=
  BitVec.ofNat 32 (value (NaluStream.suffixBits u)) |||
    CInt.shl wide 1 (NaluStream.zeroCount 32 u)

/-- A call on the list of the unread bits. -/
def answerOnBits (wide : CInt → ℕ → CInt) (u : List Bool) : ReadCall → CInt × List Bool
  | readOneBit =>
      match u with
      | [] => (-1, [])
      | b :: u => (BitVec.ofNat 32 b.toNat, u)
  | readNBits count => (assembleBits wide (u.take count), u.drop count)
  | readUev => (codeNumOf wide u - 1, u.drop (2 * NaluStream.zeroCount 32 u + 1))
  | readSev =>
      (NaluStream.signedOf (codeNumOf wide u), u.drop (2 * NaluStream.zeroCount 32 u + 1))

/-- The stream stands in front of the given bits. -/
def StandsFor (s : NaluStream) (u : List Bool) : Prop :=
  ∃ t i, i ≤ 8 * t.buffer.length ∧ s = BitStream.seek t i ∧ t.bits.drop i = u

theorem readNBitsLoop_assembleBits (wide : CInt → ℕ → CInt) (s : BitStream) (left : ℕ) :
    ∀ (i : ℕ) (ret : CInt), i + left ≤ 8 * s.buffer.length →
      (readNBitsLoop wide left ret (s.seek i)).val.1 =
        ret ||| assembleBits wide ((s.bits.drop i).take left) := by
  induction left with
  | zero => intro i ret _; simp [readNBitsLoop, assembleBits]
  | succ left ih =>
      intro i ret hle
      obtain ⟨b, hb⟩ := exists_getElem?_bits (s := s) (i := i) (by omega)
      obtain ⟨hi, hget⟩ := List.getElem?_eq_some_iff.mp hb
      have hlen : ((s.bits.drop (i + 1)).take left).length = left := by
        rw [List.length_take, List.length_drop, length_bits]
        omega
      rw [readNBitsLoop_succ wide hb, ih (i + 1) _ (by omega), List.drop_eq_getElem_cons hi, hget,
        List.take_succ_cons, assembleBits, hlen, BitVec.or_assoc]

theorem readNBits_assembleBits (wide : CInt → ℕ → CInt) {s : BitStream} {i : ℕ} (count : ℕ)
    (hi : i ≤ 8 * s.buffer.length) :
    ((s.seek i).readNBits wide count).val.1 =
      assembleBits wide ((s.bits.drop i).take count) := by
  have htake : (s.bits.drop i).take (min count (8 * s.buffer.length - i)) =
      (s.bits.drop i).take count := by
    rw [← length_bits, ← List.length_drop, ← List.take_eq_take_min]
  rw [BitStream.readNBits]
  simp only [clamp_getRemainBitSize hi]
  rw [readNBitsLoop_assembleBits wide s _ i 0 (by omega), htake]
  exact BitVec.zero_or

theorem standsFor_seek {s : BitStream} {i : ℕ} {u : List Bool} (hi : i ≤ 8 * s.buffer.length)
    (hu : s.bits.drop i = u) (k : ℕ) :
    StandsFor (s.seek (i + min k (8 * s.buffer.length - i))) (u.drop k) := by
  refine ⟨s, _, by omega, rfl, ?_⟩
  rw [← hu, List.drop_drop, List.drop_eq_drop_iff, length_bits]
  omega

theorem simulates (wide : CInt → ℕ → CInt) :
    Simulates (answer wide) (answerOnBits wide) StandsFor := by
  rintro _ u c ⟨s, i, hi, rfl, hu⟩
  have hlen : s.bits.length = 8 * s.buffer.length := s.length_bits
  cases c with
  | readOneBit =>
      cases u with
      | nil =>
          have hend := List.drop_eq_nil_iff.mp hu
          rw [answer, answerOnBits, readOneBit_seek_end (by omega)]
          exact ⟨rfl, s, i, hi, rfl, hu⟩
      | cons b u =>
          have hb : s.bits[i]? = some b := by
            rw [← List.head?_drop, hu]
            rfl
          have hnext : s.bits.drop (i + 1) = u := by
            rw [← List.drop_drop, hu]
            rfl
          have hlt := (List.getElem?_eq_some_iff.mp hb).1
          rw [answer, answerOnBits, readOneBit_seek hb]
          exact ⟨rfl, s, i + 1, by omega, rfl, hnext⟩
  | readNBits count =>
      rw [answer, answerOnBits, readNBits_assembleBits wide count hi,
        (readNBits_cursor wide count hi).1, hu]
      exact ⟨rfl, standsFor_seek hi hu count⟩
  | readUev =>
      rw [answer, answerOnBits, NaluStream.readUev_eq]
      simp only [NaluStream.readCodeNum_value wide hi,
        (NaluStream.readCodeNum_cursor wide hi).1, hu]
      exact ⟨rfl, standsFor_seek hi hu _⟩
  | readSev =>
      rw [answer, answerOnBits, NaluStream.readSev_eq]
      simp only [NaluStream.readCodeNum_value wide hi,
        (NaluStream.readCodeNum_cursor wide hi).1, hu]
      exact ⟨rfl, standsFor_seek hi hu _⟩

theorem StandsFor.unread_eq {s : NaluStream} {u : List Bool} (h : StandsFor s u) :
    s.unread = u := by
  obtain ⟨t, i, -, rfl, hu⟩ := h
  rw [unread_seek, hu]

theorem StandsFor.getRemainBitSize_eq {s : NaluStream} {u : List Bool} (h : StandsFor s u) :
    s.getRemainBitSize = u.length := by
  obtain ⟨t, i, hi, rfl, rfl⟩ := h
  rw [getRemainBitSize_seek hi, List.length_drop, length_bits]

theorem StandsFor.isEnd_eq {s : NaluStream} {u : List Bool} (h : StandsFor s u) :
    s.isEnd = u.isEmpty := by
  obtain ⟨t, i, hi, rfl, rfl⟩ := h
  rw [isEnd_seek hi, Bool.eq_iff_iff, decide_eq_true_iff, List.isEmpty_iff, List.drop_eq_nil_iff,
    length_bits]
  omega

theorem standsFor_ofBuffer (buffer : List UInt8) (h : buffer.length < 2 ^ 61) :
    StandsFor (ofBuffer buffer h) (bitsOf buffer) :=
  ⟨ofBuffer buffer h, 0, Nat.zero_le _, rfl, rfl⟩

theorem standsFor_run (wide : CInt → ℕ → CInt) (buffer : List UInt8) (h : buffer.length < 2 ^ 61)
    (cs : List ReadCall) :
    StandsFor (run wide cs (ofBuffer buffer h)).val
      (run wide cs (ofBuffer buffer h)).val.unread := by
  obtain ⟨i, hi, hrun⟩ := run_ofBuffer wide h cs
  rw [hrun]
  exact ⟨ofBuffer buffer h, i, hi, rfl, (unread_seek _ _).symm⟩

/-- Every sequence of calls on a stream gets the answers that the list of the
buffer's bits gives, and leaves the stream in front of the bits left over. -/
theorem answers_ofBuffer (wide : CInt → ℕ → CInt) (buffer : List UInt8)
    (hsize : buffer.length < 2 ^ 28) (cs : List ReadCall) :
    let r := answers (answer wide) cs (ofBuffer buffer (fits_of_lt hsize))
    let a := answers (answerOnBits wide) cs (bitsOf buffer)
    r.1 = a.1 ∧ r.2.unread = a.2 ∧ r.2.getRemainBitSize = a.2.length ∧
      r.2.isEnd = a.2.isEmpty := by
  obtain ⟨hanswers, hlast⟩ :=
    (simulates wide).answers cs (standsFor_ofBuffer buffer (fits_of_lt hsize))
  exact ⟨hanswers, hlast.unread_eq, hlast.getRemainBitSize_eq, hlast.isEnd_eq⟩

theorem answers_ofBuffer_short :
    let r := answers (answer fun _ _ ↦ 0) [.readUev, .readNBits 40, .readOneBit]
      (ofBuffer [0x67, 0x01] (fits_of_lt (by decide)))
    let a := answers (answerOnBits fun _ _ ↦ 0) [.readUev, .readNBits 40, .readOneBit]
      (bitsOf [0x67, 0x01])
    r.1 = a.1 ∧ r.2.unread = a.2 ∧ r.2.getRemainBitSize = a.2.length ∧
      r.2.isEnd = a.2.isEmpty :=
  answers_ofBuffer (fun _ _ ↦ 0) [0x67, 0x01] (by decide) [.readUev, .readNBits 40, .readOneBit]

/-- Bit by bit a caller sees the whole list, and where it ends. -/
theorem eq_of_answers_readOneBit (wide : CInt → ℕ → CInt) {u v : List Bool}
    (h : ∀ n, (answers (answerOnBits wide) (List.replicate n readOneBit) u).1 =
      (answers (answerOnBits wide) (List.replicate n readOneBit) v).1) : u = v := by
  have hend (b : Bool) : BitVec.ofNat 32 b.toNat ≠ (-1 : CInt) := by cases b <;> decide
  have hbit {b c : Bool} (hbc : BitVec.ofNat 32 b.toNat = BitVec.ofNat 32 c.toNat) : b = c := by
    cases b <;> cases c <;> simp_all
  induction u generalizing v with
  | nil =>
      cases v with
      | nil => rfl
      | cons c v =>
          have hfirst := h 1
          exact absurd (List.cons.inj hfirst).1.symm (hend c)
  | cons b u ih =>
      cases v with
      | nil =>
          have hfirst := h 1
          exact absurd (List.cons.inj hfirst).1 (hend b)
      | cons c v =>
          have hfirst := h 1
          obtain rfl := hbit (List.cons.inj hfirst).1
          have hrest : u = v := ih fun n ↦ (List.cons.inj (h (n + 1))).2
          rw [hrest]

/-- Two streams, each reached by any calls over any buffer, answer all further
calls alike exactly when the same bits lie in front of their cursors. -/
theorem answers_eq_iff (wide : CInt → ℕ → CInt) (buffer buffer' : List UInt8)
    (hsize : buffer.length < 2 ^ 28) (hsize' : buffer'.length < 2 ^ 28)
    (cs cs' : List ReadCall) :
    let s := (run wide cs (ofBuffer buffer (fits_of_lt hsize))).val
    let s' := (run wide cs' (ofBuffer buffer' (fits_of_lt hsize'))).val
    (∀ ds, (answers (answer wide) ds s).1 = (answers (answer wide) ds s').1) ↔
      s.unread = s'.unread := by
  intro s s'
  have hs : StandsFor s s.unread := standsFor_run wide buffer (fits_of_lt hsize) cs
  have hs' : StandsFor s' s'.unread := standsFor_run wide buffer' (fits_of_lt hsize') cs'
  constructor
  · intro halike
    apply eq_of_answers_readOneBit wide
    intro n
    rw [← ((simulates wide).answers _ hs).1, ← ((simulates wide).answers _ hs').1]
    exact halike _
  · intro hunread ds
    rw [hunread] at hs
    exact (simulates wide).answers_eq (simulates wide) ds hs hs'

theorem answers_eq_iff_last_byte :
    let s := (run (fun _ _ ↦ 0) [.readNBits 8] (ofBuffer [0xFF, 0x67] (fits_of_lt (by decide)))).val
    let s' := (run (fun _ _ ↦ 0) [.readNBits 8, .readUev, .readNBits 3]
      (ofBuffer [0x05, 0x23, 0x67] (fits_of_lt (by decide)))).val
    (∀ ds, (answers (answer fun _ _ ↦ 0) ds s).1 = (answers (answer fun _ _ ↦ 0) ds s').1) ↔
      s.unread = s'.unread :=
  answers_eq_iff (fun _ _ ↦ 0) [0xFF, 0x67] [0x05, 0x23, 0x67] (by decide) (by decide)
    [.readNBits 8] [.readNBits 8, .readUev, .readNBits 3]

end ReadCall

end H264SendReceiver
