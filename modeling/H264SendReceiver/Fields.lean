import H264SendReceiver.AnnexB.Checked
import H264SendReceiver.Cursor
import H264SendReceiver.SignedGolomb
import H264SendReceiver.SyntaxElements

/-!
# Mixed fields, with checked arithmetic

A payload holds flags, numbers of fixed length and Exp-Golomb codes of both
kinds, each read by its own function. In the ranges that the format allows,
all values come back by defined operations only, but for the two kinds of
values that the decoders get wrong.
-/

namespace H264SendReceiver

open Bits BitStream ExpGolomb

inductive Field where
  | flag (b : Bool)
  | unsigned (e : SyntaxElement)
  | se (value : ℤ)
  deriving DecidableEq, Repr

namespace Field

/-- The ranges of the format. -/
def InRange : Field → Prop
  | flag _ => True
  | unsigned e => e.Valid
  | se value => -(2 ^ 31 - 1) ≤ value ∧ value ≤ 2 ^ 31 - 1

/-- The values that the decoders give back. -/
def Safe : Field → Prop
  | flag _ => True
  | unsigned e => e ≠ .ue (2 ^ 31 - 1)
  | se value => |value| < 2 ^ 30

def codeword : Field → List Bool
  | flag b => [b]
  | unsigned e => e.codeword
  | se value => seCode value

/-- The value as an `int`, or as the bits of one for the unsigned results. -/
def result : Field → CInt
  | flag b => BitVec.ofNat 32 b.toNat
  | unsigned e => BitVec.ofNat 32 e.value
  | se value => BitVec.ofInt 32 value

/-- The call that reads such a field. -/
def read? (s : NaluStream) : Field → Option (CInt × NaluStream)
  | flag _ => some s.readOneBit.val
  | unsigned (.u n _) => s.readNBits? n
  | unsigned (.ue _) => NaluStream.readUev? s
  | se _ => NaluStream.readSev? s

def encode (fs : List Field) : List Bool := fs.flatMap codeword

def readAll? : List Field → NaluStream → Option (List CInt × NaluStream)
  | [], s => some ([], s)
  | f :: fs, s => do
      let (ret, s) ← f.read? s
      let (rets, s) ← readAll? fs s
      return (ret :: rets, s)

theorem le_of_bits {s : NaluStream} {i : ℕ} {l rest : List Bool} (hi : i ≤ 8 * s.buffer.length)
    (hbits : s.bits.drop i = l ++ rest) : i + l.length ≤ 8 * s.buffer.length := by
  have hlen := congrArg List.length hbits
  rw [List.length_drop, length_bits, List.length_append] at hlen
  omega

theorem eq_ofInt_iff {x : CInt} {v : ℤ} (hlo : -(2 ^ 31 - 1) ≤ v) (hhi : v ≤ 2 ^ 31 - 1) :
    x = BitVec.ofInt 32 v ↔ x.toInt = v := by
  have hv : (BitVec.ofInt 32 v).toInt = v := by
    rw [BitVec.toInt_ofInt, Int.bmod_def]
    split <;> omega
  rw [← BitVec.toInt_inj, hv]

section One

variable {s : NaluStream} {i : ℕ} {rest : List Bool} (hi : i ≤ 8 * s.buffer.length)
include hi

/-- With `v + 1 = 2 ^ 31` the marker bit is the sign bit alone, and one less
than that is no `int`. -/
theorem readUev?_codeword {v : ℕ} (hv : v ≤ 2 ^ 32 - 2)
    (hbits : s.bits.drop i = ueCode v ++ rest) :
    NaluStream.readUev? (s.seek i) =
      if v = 2 ^ 31 - 1 then none
      else some (BitVec.ofNat 32 v, s.seek (i + (ueCode v).length)) := by
  have hzeros := NaluStream.zeroCount_ueCode (show v + 1 < 2 ^ 32 by omega) rest
  have hlog : (v + 1).log2 < 32 := (Nat.log2_lt (by omega)).mpr (by omega)
  have hnum := NaluStream.readCodeNum_codeword (fun _ _ ↦ 0) (show v + 1 < 2 ^ 32 by omega) hbits
  have hval := SyntaxElement.read_codeword (fun _ _ ↦ 0) (e := .ue v) hv hi hbits
  have hmin : BitVec.ofNat 32 (v + 1) = BitVec.intMin 32 ↔ v = 2 ^ 31 - 1 := by
    have htwo : (BitVec.intMin 32).toNat = 2 ^ 31 := rfl
    rw [← BitVec.toNat_inj, BitVec.toNat_ofNat, htwo]
    omega
  rw [SyntaxElement.read] at hval
  rw [NaluStream.readUev?_seek (fun _ _ ↦ 0) hi, hbits, hzeros, hnum, hval]
  by_cases h : v = 2 ^ 31 - 1
  · rw [if_pos h, if_neg fun hdef ↦ hdef.2 (hmin.mpr h)]
  · rw [if_neg h, if_pos ⟨hlog, fun heq ↦ h (hmin.mp heq)⟩]
    rfl

theorem readSev?_codeword {v : ℤ} (hlo : -(2 ^ 31 - 1) ≤ v) (hhi : v ≤ 2 ^ 31 - 1)
    (hbits : s.bits.drop i = seCode v ++ rest) :
    NaluStream.readSev? (s.seek i) =
      some (NaluStream.signedOf (BitVec.ofNat 32 (codeNum v + 1)),
        s.seek (i + (seCode v).length)) := by
  have hlt := NaluStream.codeNum_lt hlo hhi
  have hzeros := NaluStream.zeroCount_ueCode hlt rest
  have hlog : (codeNum v + 1).log2 < 32 := (Nat.log2_lt (by omega)).mpr hlt
  rw [NaluStream.readSev?_seek (fun _ _ ↦ 0) hi, hbits, seCode, hzeros, if_pos hlog,
    NaluStream.readSev_eq, NaluStream.readCodeNum_codeword _ hlt hbits]

theorem readNBits?_codeword {n v : ℕ} (hn : n ≤ 32) (hv : v < 2 ^ n)
    (hbits : s.bits.drop i = digits n v ++ rest) :
    (s.seek i).readNBits? n = some (BitVec.ofNat 32 v, s.seek (i + (digits n v).length)) := by
  have hval := SyntaxElement.read_codeword (fun _ _ ↦ 0) (e := .u n v) ⟨hn, hv⟩ hi hbits
  rw [SyntaxElement.read] at hval
  rw [readNBits?_eq (fun _ _ ↦ 0) hi hn, hval]
  rfl

/-- A field is read from in front of its codeword, and comes back if it is a
safe one. -/
theorem read?_codeword {f : Field} (hf : f.InRange) (hbits : s.bits.drop i = f.codeword ++ rest) :
    ((f.read? (s.seek i)).map Prod.fst = some f.result ↔ f.Safe) ∧
      ∀ x, f.read? (s.seek i) = some x → x.2 = s.seek (i + f.codeword.length) := by
  cases f with
  | flag b =>
      have hb : s.bits[i]? = some b := by
        rw [← List.head?_drop, hbits]
        rfl
      rw [read?, readOneBit_seek hb]
      exact ⟨iff_of_true rfl trivial, fun x hx ↦ by rw [← Option.some.inj hx]; rfl⟩
  | unsigned e =>
      cases e with
      | u n v =>
          rw [read?, readNBits?_codeword hi hf.1 hf.2 hbits]
          exact ⟨iff_of_true rfl SyntaxElement.noConfusion,
            fun x hx ↦ by rw [← Option.some.inj hx]; rfl⟩
      | ue v =>
          rw [read?, readUev?_codeword hi hf hbits, Safe, ne_eq, SyntaxElement.ue.injEq]
          by_cases h : v = 2 ^ 31 - 1
          · rw [if_pos h]
            exact ⟨iff_of_false (by simp) fun hsafe ↦ hsafe h, by simp⟩
          · rw [if_neg h]
            exact ⟨iff_of_true rfl h, fun x hx ↦ by rw [← Option.some.inj hx]; rfl⟩
  | se v =>
      rw [read?, readSev?_codeword hi hf.1 hf.2 hbits]
      refine ⟨?_, fun x hx ↦ by rw [← Option.some.inj hx]; rfl⟩
      rw [Option.map_some, Option.some.injEq, result, eq_ofInt_iff hf.1 hf.2,
        NaluStream.signedOf_codeNum_iff hf.1 hf.2]
      rfl

end One

theorem readAll?_cons {f : Field} {fs : List Field} {s : NaluStream}
    {x : List CInt × NaluStream} :
    readAll? (f :: fs) s = some x ↔
      ∃ ret t rets s', f.read? s = some (ret, t) ∧ readAll? fs t = some (rets, s') ∧
        (ret :: rets, s') = x := by
  simp only [readAll?, Option.bind_eq_bind, Option.bind_eq_some_iff, Option.pure_def,
    Option.some.injEq]
  constructor
  · rintro ⟨⟨ret, t⟩, hread, ⟨rets, s'⟩, hrest, heq⟩
    exact ⟨ret, t, rets, s', hread, hrest, heq⟩
  · rintro ⟨ret, t, rets, s', hread, hrest, heq⟩
    exact ⟨(ret, t), hread, (rets, s'), hrest, heq⟩

/-- In front of the codewords of any fields the calls leave the cursor behind
the last codeword, and give back all values exactly when every one is safe. -/
theorem readAll?_seek {s : NaluStream} {rest : List Bool} (fs : List Field)
    (hfs : ∀ f ∈ fs, f.InRange) :
    ∀ i, i ≤ 8 * s.buffer.length → s.bits.drop i = encode fs ++ rest →
      ((readAll? fs (s.seek i)).map Prod.fst = some (fs.map result) ↔ ∀ f ∈ fs, f.Safe) ∧
        ∀ x, readAll? fs (s.seek i) = some x → x.2 = s.seek (i + (encode fs).length) := by
  induction fs with
  | nil =>
      intro i _ _
      exact ⟨by simp [readAll?], fun x hx ↦ by rw [← Option.some.inj hx]; rfl⟩
  | cons f fs ih =>
      intro i hi hbits
      rw [List.forall_mem_cons] at hfs
      rw [encode, List.flatMap_cons, List.append_assoc] at hbits
      have hle := le_of_bits hi hbits
      have hnext : s.bits.drop (i + f.codeword.length) = encode fs ++ rest := by
        rw [← List.drop_drop, hbits, List.drop_left]
        rfl
      have hlen : i + (encode (f :: fs)).length =
          i + f.codeword.length + (encode fs).length := by
        rw [encode, List.flatMap_cons, List.length_append, ← encode, Nat.add_assoc]
      obtain ⟨hsafe, hcursor⟩ := read?_codeword hi hfs.1 hbits
      obtain ⟨hsafes, hcursors⟩ := ih hfs.2 _ hle hnext
      constructor
      · rw [List.forall_mem_cons, ← hsafe, ← hsafes]
        constructor
        · intro h
          obtain ⟨x, hread, hx⟩ := Option.map_eq_some_iff.mp h
          obtain ⟨ret, t, rets, s', hfirst, hrest, rfl⟩ := readAll?_cons.mp hread
          obtain rfl : t = _ := hcursor _ hfirst
          obtain ⟨rfl, rfl⟩ := List.cons.inj hx
          exact ⟨by rw [hfirst]; rfl, by rw [hrest]; rfl⟩
        · rintro ⟨hfirst, hrest⟩
          obtain ⟨⟨ret, t⟩, hread, rfl⟩ := Option.map_eq_some_iff.mp hfirst
          obtain ⟨⟨rets, s'⟩, hreads, hrets⟩ := Option.map_eq_some_iff.mp hrest
          obtain rfl : t = _ := hcursor _ hread
          obtain rfl : rets = _ := hrets
          exact Option.map_eq_some_iff.mpr
            ⟨_, readAll?_cons.mpr ⟨_, _, _, _, hread, hreads, rfl⟩, rfl⟩
      · intro x hx
        obtain ⟨ret, t, rets, s', hfirst, hrest, rfl⟩ := readAll?_cons.mp hx
        obtain rfl : t = _ := hcursor _ hfirst
        rw [hlen]
        exact hcursors (rets, s') hrest

/-- Wherever other calls have left the cursor: fields in their ranges are read
back by defined operations, up to the bits behind them, exactly when no `ue`
value is `2 ^ 31 - 1` and every `se` value lies strictly between `-2 ^ 30` and
`2 ^ 30`. -/
theorem readAll?_run_iff (wide : CInt → ℕ → CInt) (buffer : List UInt8)
    (h : buffer.length < 2 ^ 61) (cs : List ReadCall) (fs : List Field)
    (hfs : ∀ f ∈ fs, f.InRange) (rest : List Bool)
    (hunread : (ReadCall.run wide cs (ofBuffer buffer h)).val.unread = encode fs ++ rest) :
    (∃ s', readAll? fs (ReadCall.run wide cs (ofBuffer buffer h)).val =
        some (fs.map result, s') ∧ s'.unread = rest) ↔ ∀ f ∈ fs, f.Safe := by
  obtain ⟨i, hi, hrun⟩ := ReadCall.run_ofBuffer wide h cs
  rw [hrun] at hunread ⊢
  dsimp only at hunread ⊢
  rw [unread_seek] at hunread
  obtain ⟨hsafe, hcursor⟩ := readAll?_seek fs hfs i hi hunread
  rw [← hsafe, Option.map_eq_some_iff]
  constructor
  · rintro ⟨s', hread, -⟩
    exact ⟨_, hread, rfl⟩
  · rintro ⟨⟨rets, s'⟩, hread, rfl⟩
    refine ⟨s', hread, ?_⟩
    obtain rfl : s' = _ := hcursor _ hread
    rw [unread_seek, ← List.drop_drop, hunread, List.drop_left]

theorem readAll?_run_iff_mixed :
    (∃ s', readAll? [.unsigned (.ue 2), .flag false, .se (-1)]
        (ReadCall.run (fun _ _ ↦ 0) [.readNBits 1] (ofBuffer [0xB3, 0x40] (by decide))).val =
          some ([Field.unsigned (.ue 2), .flag false, .se (-1)].map result, s') ∧
        s'.unread = [false, true, false, false, false, false, false, false]) ↔
      ∀ f ∈ [Field.unsigned (.ue 2), .flag false, .se (-1)], f.Safe :=
  readAll?_run_iff (fun _ _ ↦ 0) [0xB3, 0x40] (by decide) [.readNBits 1] _
    (by simp [InRange, SyntaxElement.Valid]) _ (by decide +kernel)

end Field

end H264SendReceiver
