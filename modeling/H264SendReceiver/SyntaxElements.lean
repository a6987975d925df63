import H264SendReceiver.AnnexB.NaluStream

/-!
# Reading back what was written

Fixed-length and unsigned Exp-Golomb elements, written back to back from the
most significant bit on, are read back by the calls in the same order. The
bits behind the last element and the bytes behind its byte are arbitrary.
-/

namespace H264SendReceiver

open Bits BitStream ExpGolomb

inductive SyntaxElement where
  | u (n value : ℕ)
  | ue (value : ℕ)
  deriving DecidableEq, Repr

namespace SyntaxElement

def Valid : SyntaxElement → Prop
  | u n value => n ≤ 32 ∧ value < 2 ^ n
  | ue value => value ≤ 2 ^ 32 - 2

def value : SyntaxElement → ℕ
  | u _ value => value
  | ue value => value

def codeword : SyntaxElement → List Bool
  | u n value => digits n value
  | ue value => ueCode value

def read (wide : CInt → ℕ → CInt) (s : NaluStream) :
    SyntaxElement → Traced BitRead (CInt × NaluStream)
  | u n _ => s.readNBits wide n
  | ue _ => NaluStream.readUev wide s

def encode (es : List SyntaxElement) : List Bool := es.flatMap codeword

/-- The result of each call, with `getPos * 8 + 8 - getBitOffset` behind it. -/
def readAll (wide : CInt → ℕ → CInt) : List SyntaxElement → NaluStream → List (CInt × ℕ)
  | [], _ => []
  | e :: es, s =>
      let (ret, s) := (e.read wide s).val
      (ret, s.pos * 8 + 8 - s.bitOffset) :: readAll wide es s

theorem value_lt {e : SyntaxElement} (he : e.Valid) : e.value < 2 ^ 32 := by
  cases e with
  | u n value => exact he.2.trans_le (Nat.pow_le_pow_right (by omega) he.1)
  | ue value =>
      have hle : value ≤ 2 ^ 32 - 2 := he
      exact Nat.lt_of_le_of_lt hle (by omega)

theorem read_codeword (wide : CInt → ℕ → CInt) {e : SyntaxElement} (he : e.Valid)
    {s : NaluStream} {i : ℕ} (hi : i ≤ 8 * s.buffer.length) {rest : List Bool}
    (hbits : s.bits.drop i = e.codeword ++ rest) :
    (e.read wide (s.seek i)).val =
      (BitVec.ofNat 32 e.value, s.seek (i + e.codeword.length)) := by
  cases e with
  | u n v =>
      obtain ⟨hn, hv⟩ := he
      have hlen := congrArg List.length hbits
      simp only [codeword, List.length_drop, length_bits, List.length_append,
        length_digits] at hlen
      have hmin : min n (8 * s.buffer.length - i) = n := by omega
      have hvalue := readNBits_value wide hi (show min n (8 * s.buffer.length - i) ≤ 32 by omega)
      have hcursor := (readNBits_cursor wide n hi).1
      rw [hbits, codeword, List.take_left' (length_digits n v), value_digits_of_lt hv] at hvalue
      rw [hmin] at hcursor
      rw [codeword, length_digits]
      exact Prod.ext hvalue hcursor
  | ue v =>
      have hv : v ≤ 2 ^ 32 - 2 := he
      rw [read, NaluStream.readUev_eq,
        NaluStream.readCodeNum_codeword wide (v := v) (by omega) hbits]
      refine Prod.ext ?_ rfl
      have hone : (1 : CInt).toNat = 1 := rfl
      apply BitVec.eq_of_toNat_eq
      simp only [BitVec.toNat_sub, BitVec.toNat_ofNat, value, hone]
      omega

theorem readAll_seek (wide : CInt → ℕ → CInt) (es : List SyntaxElement)
    (hes : ∀ e ∈ es, e.Valid) {s : NaluStream} {rest : List Bool} :
    ∀ i, i ≤ 8 * s.buffer.length → s.bits.drop i = encode es ++ rest →
      (readAll wide es (s.seek i)).map (fun p ↦ p.1.toNat) = es.map value ∧
        (readAll wide es (s.seek i)).map Prod.snd =
          (List.range es.length).map fun k ↦ i + (encode (es.take (k + 1))).length := by
  induction es with
  | nil => intro i _ _; exact ⟨rfl, rfl⟩
  | cons e es ih =>
      intro i hi hbits
      have he : e.Valid := hes e (by simp)
      rw [encode, List.flatMap_cons, List.append_assoc] at hbits
      have hnext : s.bits.drop (i + e.codeword.length) = encode es ++ rest := by
        rw [← List.drop_drop, hbits, List.drop_left]
        rfl
      have hle : i + e.codeword.length ≤ 8 * s.buffer.length := by
        have hlen := congrArg List.length hbits
        rw [List.length_drop, length_bits, List.length_append] at hlen
        omega
      obtain ⟨hvalues, hpositions⟩ := ih (fun e he ↦ hes e (by simp [he])) _ hle hnext
      rw [readAll, read_codeword wide he hi hbits]
      refine ⟨?_, ?_⟩
      · rw [List.map_cons, hvalues, List.map_cons, BitVec.toNat_ofNat,
          Nat.mod_eq_of_lt (value_lt he)]
      · rw [List.map_cons, hpositions, List.length_cons, List.range_succ_eq_map, List.map_cons,
          List.map_map]
        congr 1
        · simp only [seek, encode, List.take_succ_cons, List.take_zero, List.flatMap_cons,
            List.flatMap_nil, List.append_nil]
          omega
        · refine List.map_congr_left fun k _ ↦ ?_
          simp only [Function.comp_apply, Nat.succ_eq_add_one, encode, List.take_succ_cons,
            List.flatMap_cons, List.length_append]
          omega

/-- A stream over the written elements yields each written value, and its
cursor stands behind the codewords read so far. -/
theorem readAll_written (wide : CInt → ℕ → CInt) (es : List SyntaxElement)
    (hes : ∀ e ∈ es, e.Valid) (fill : List Bool) (more : List UInt8)
    (hfill : 8 ∣ (encode es ++ fill).length)
    (hsize : (pack (encode es ++ fill) ++ more).length < 2 ^ 28) :
    let s := ofBuffer (pack (encode es ++ fill) ++ more) (hsize.trans (by omega))
    (readAll wide es s).map (fun p ↦ p.1.toNat) = es.map value ∧
      (readAll wide es s).map Prod.snd =
        (List.range es.length).map fun k ↦ (encode (es.take (k + 1))).length := by
  intro s
  have hbits : s.bits.drop 0 = encode es ++ (fill ++ bitsOf more) := by
    change bitsOf (pack (encode es ++ fill) ++ more) = _
    rw [bitsOf_append, bitsOf_pack hfill, List.append_assoc]
  have h := readAll_seek wide es hes 0 (Nat.zero_le _) hbits
  simp only [Nat.zero_add] at h
  exact h

theorem readAll_written_mixed :
    let es := [u 3 5, ue 4, ue (2 ^ 32 - 2), u 32 (2 ^ 32 - 1), u 0 0]
    let s := ofBuffer (pack (encode es ++ [true]) ++ [0]) (by decide +kernel)
    (readAll (fun _ _ ↦ 0) es s).map (fun p ↦ p.1.toNat) = es.map value ∧
      (readAll (fun _ _ ↦ 0) es s).map Prod.snd =
        (List.range es.length).map fun k ↦ (encode (es.take (k + 1))).length :=
  readAll_written (fun _ _ ↦ 0) _ (by simp [Valid]) [true] [0] (by decide +kernel)
    (by decide +kernel)

end SyntaxElement

end H264SendReceiver
