import H264SendReceiver.AnnexB.FileReader
import H264SendReceiver.Library.Text

/-!
# What the dumps print

The `dumpString` functions. `Nalu::dumpString` indexes its buffer and logs
these reads; its loop counts in an `int`, like the one of `getRbsp`. Below
them the lines that the dumps consist of.
-/

namespace H264SendReceiver

/-- `m_buffer` in hexadecimal, byte by byte. -/
def dumpBuffer (ss : OutStream) (buffer : List UInt8) : OutStream :=
  buffer.foldl (fun ss val ↦ ((((ss.setw 2).setfill '0').hex).num val.toNat).str " ") ss

/-- The dump of a whole buffer under the given two titles. -/
def dumpBody (head body : String) (buffer : List UInt8) : List Char :=
  let ss : OutStream := {}
  let ss := (ss.str head).endl
  let ss := ((ss.str "len: ").num buffer.length).endl
  let ss := (ss.str body).endl
  (dumpBuffer ss buffer).endl.text

def Ebsp.dumpString (e : Ebsp) : List Char :=
  if !e.isValid then []
  else dumpBody "EBSP ========================" "EBSP BODY: ------------------" e.buffer

def Rbsp.dumpString (r : Rbsp) : List Char :=
  if !r.isValid then []
  else dumpBody "RBSP ========================" "RBSP BODY: ------------------" r.buffer

def naluTypeMap : List (UInt8 × String) :=
  [(0x01, "Non-IDR slice"), (0x02, "Partition A"), (0x03, "Partition B"), (0x04, "Partition C"),
    (0x05, "IDR slice"), (0x06, "SEI"), (0x07, "SPS"), (0x08, "PPS"), (0x09, "AUD"),
    (0x0a, "End of sequence"), (0x0b, "End of stream"), (0x0c, "Filler data"), (0x0d, "SPSExt"),
    (0x0e, "Prefix NAL unit"), (0x0f, "Subset SPS")]

def getNaluTypeStr (naluType : UInt8) : List Char :=
  match naluTypeMap.lookup naluType with
  | none => Text.decimal naluType.toNat
  | some name => name.toList

namespace Nalu

/-- The loop over the start code from the index `idx` on, for `left` more
rounds. -/
def dumpStartCode (n : Nalu) : ℕ → ℕ → OutStream → Traced BufRead (Option OutStream)
  | 0, _, ss => pure (some ss)
  | left + 1, idx, ss => do
      let val ← Traced.access ⟨idx, n.buffer.length⟩ (n.buffer.getD idx 0)
      let ss := ((((ss.setw 2).setfill '0').hex).num val.toNat).str " "
      if idx + 1 < 2 ^ 31 then dumpStartCode n left (idx + 1) ss else pure none

/-- The text, or `none` where the index leaves the range of `int`. -/
def dumpString (n : Nalu) : Traced BufRead (Option (List Char)) :=
  if !n.isValid then pure (some [])
  else do
    let ss : OutStream := {}
    let ss := (ss.str "NALU ========================").endl
    let ss := ((ss.str "len: ").num n.buffer.length).endl
    let ss := (ss.str "START CODE: -----------------").endl
    match ← dumpStartCode n n.startCodeLen 0 ss with
    | none => pure none
    | some ss => do
        let ss := (ss.endl.str "NALU HEAD: ------------------").endl
        let naluHead ← Traced.access ⟨n.startCodeLen, n.buffer.length⟩ n.getHead
        let ss := ((ss.str "forbidden_bit: ").num ((naluHead >>> 7) &&& 1).toNat).endl
        let ss := ((ss.str "nal_ref_idc: ").num ((naluHead >>> 5) &&& 3).toNat).endl
        let ss := ((ss.str "nal_unit_type: ").insert
          (getNaluTypeStr ((naluHead >>> 0) &&& 0x1f))).endl
        pure (some ss.text)

end Nalu

/-! ## The lines of a dump -/

def bodyLines (head body : String) (buffer : List UInt8) : List (List Char) :=
  [head.toList, "len: ".toList ++ Text.decimal buffer.length, body.toList, Text.hexBytes buffer]

theorem dumpBuffer_eq (buffer : List UInt8) :
    ∀ ss : OutStream, (dumpBuffer ss buffer).text = ss.text ++ Text.hexBytes buffer := by
  induction buffer with
  | nil => intro ss; simp [dumpBuffer, Text.hexBytes]
  | cons b buffer ih =>
      intro ss
      have hrest := ih (((((ss.setw 2).setfill '0').hex).num b.toNat).str " ")
      rw [dumpBuffer, List.foldl_cons, ← dumpBuffer, hrest, OutStream.hexByte_eq]
      simp [Text.hexBytes]

theorem dumpBody_eq (head body : String) (buffer : List UInt8) :
    dumpBody head body buffer = Text.unlines (bodyLines head body buffer) := by
  simp [dumpBody, OutStream.endl, dumpBuffer_eq, OutStream.str, OutStream.num, OutStream.insert,
    bodyLines, Text.unlines, Text.decimal]

theorem newline_notMem_bodyLines {head body : String} (hhead : '\n' ∉ head.toList)
    (hbody : '\n' ∉ body.toList) (buffer : List UInt8) :
    ∀ l ∈ bodyLines head body buffer, '\n' ∉ l := by
  have hlen : '\n' ∉ "len: ".toList ++ Text.decimal buffer.length := by
    rw [List.mem_append, not_or]
    exact ⟨by decide, Text.newline_notMem_decimal _⟩
  simp only [bodyLines, List.forall_mem_cons]
  exact ⟨hhead, hlen, hbody, Text.newline_notMem_hexBytes _, by simp⟩

theorem bodyLines_inj {head body : String} {buffer buffer' : List UInt8}
    (h : bodyLines head body buffer = bodyLines head body buffer') : buffer = buffer' := by
  simp only [bodyLines, List.cons.injEq] at h
  exact Text.hexBytes_inj h.2.2.2.1

/-- The lines of the dump of a body under the name of its kind. -/
def Ebsp.lines (e : Ebsp) : List (List Char) :=
  bodyLines "EBSP ========================" "EBSP BODY: ------------------" e.buffer

def Rbsp.lines (r : Rbsp) : List (List Char) :=
  bodyLines "RBSP ========================" "RBSP BODY: ------------------" r.buffer

theorem Ebsp.dumpString_eq {e : Ebsp} (h : e.isValid = true) :
    e.dumpString = Text.unlines e.lines := by
  rw [Ebsp.dumpString, if_neg (by simp [h]), dumpBody_eq, Ebsp.lines]

theorem Rbsp.dumpString_eq {r : Rbsp} (h : r.isValid = true) :
    r.dumpString = Text.unlines r.lines := by
  rw [Rbsp.dumpString, if_neg (by simp [h]), dumpBody_eq, Rbsp.lines]

theorem Ebsp.newline_notMem_lines (e : Ebsp) : ∀ l ∈ e.lines, '\n' ∉ l :=
  newline_notMem_bodyLines (by decide) (by decide) e.buffer

theorem Rbsp.newline_notMem_lines (r : Rbsp) : ∀ l ∈ r.lines, '\n' ∉ l :=
  newline_notMem_bodyLines (by decide) (by decide) r.buffer

/-! ## The type names -/

theorem nodup_naluTypeStr :
    ((List.range 32).map fun t ↦ getNaluTypeStr (UInt8.ofNat t)).Nodup := by decide +kernel

/-- The text printed for a type tells the 32 types apart. -/
theorem getNaluTypeStr_inj {t u : UInt8} (ht : t < 32) (hu : u < 32)
    (h : getNaluTypeStr t = getNaluTypeStr u) : t = u := by
  have hmem {v : UInt8} (hv : v < 32) : v.toNat ∈ List.range 32 := List.mem_range.mpr hv
  have hinj := List.inj_on_of_nodup_map nodup_naluTypeStr (hmem ht) (hmem hu)
  simp only [UInt8.ofNat_toNat] at hinj
  exact UInt8.toNat_inj.mp (hinj h)

theorem newline_notMem_naluTypeStr {t : UInt8} (ht : t < 32) : '\n' ∉ getNaluTypeStr t := by
  have hall : ∀ i < 32, '\n' ∉ getNaluTypeStr (UInt8.ofNat i) := by decide +kernel
  have ht' := hall t.toNat ht
  rwa [UInt8.ofNat_toNat] at ht'

/-! ## NALU dumps -/

namespace Nalu

/-- The header fields of a byte, as the dump splits it. -/
def forbiddenBit (head : UInt8) : ℕ := ((head >>> 7) &&& 1).toNat

def nalRefIdc (head : UInt8) : ℕ := ((head >>> 5) &&& 3).toNat

def lines (n : Nalu) : List (List Char) :=
  ["NALU ========================".toList,
    "len: ".toList ++ Text.decimal n.buffer.length,
    "START CODE: -----------------".toList,
    Text.hexBytes (n.buffer.take n.startCodeLen),
    "NALU HEAD: ------------------".toList,
    "forbidden_bit: ".toList ++ Nat.toDigits 16 (forbiddenBit n.getHead),
    "nal_ref_idc: ".toList ++ Nat.toDigits 16 (nalRefIdc n.getHead),
    "nal_unit_type: ".toList ++ getNaluTypeStr (n.getHead &&& 0x1f)]

theorem val_dumpStartCode (n : Nalu) (left : ℕ) :
    ∀ (idx : ℕ) (text : List Char), idx + left ≤ n.buffer.length → idx < 2 ^ 31 →
      (dumpStartCode n left idx ⟨text, 16, '0', 0⟩).val =
        if idx + left < 2 ^ 31 then
          some ⟨text ++ Text.hexBytes ((n.buffer.drop idx).take left), 16, '0', 0⟩
        else none := by
  induction left with
  | zero =>
      intro idx text hle hidx
      rw [Nat.add_zero, if_pos hidx]
      simp [dumpStartCode, Text.hexBytes]
  | succ left ih =>
      intro idx text hle hidx
      have hlt : idx < n.buffer.length := by omega
      have hbyte : n.buffer.getD idx 0 = n.buffer[idx] := by simp [hlt]
      rw [dumpStartCode, Traced.val_bind, Traced.val_access, OutStream.hexByte_eq]
      by_cases hint : idx + 1 < 2 ^ 31
      · rw [if_pos hint, ih (idx + 1) _ (by omega) hint, Nat.add_right_comm, hbyte,
          List.drop_eq_getElem_cons hlt, List.take_succ_cons, Nat.add_assoc idx left 1]
        simp [Text.hexBytes]
      · rw [if_neg hint, if_neg (by omega)]
        rfl

theorem within_dumpStartCode (n : Nalu) (left : ℕ) :
    ∀ (idx : ℕ) (ss : OutStream), idx + left ≤ n.buffer.length →
      (dumpStartCode n left idx ss).Within fun e ↦ e.index < e.len := by
  induction left with
  | zero => intro idx ss _; exact .pure _
  | succ left ih =>
      intro idx ss hle
      refine (Traced.Within.access (P := fun e : BufRead ↦ e.index < e.len) ?_ _).bind
        (.ite (fun _ ↦ ih _ _ (by omega)) fun _ ↦ .pure _)
      exact (by omega : idx < n.buffer.length)

/-- The dump of a NALU reads inside its buffer. -/
theorem within_dumpString (n : Nalu) : n.dumpString.Within fun e ↦ e.index < e.len := by
  refine .ite (fun _ ↦ .pure _) fun hvalid ↦ ?_
  have hlen := (n.isValid_iff.mp (by simpa using hvalid)).2
  refine (within_dumpStartCode n _ 0 _ (by omega)).bind ?_
  split
  · exact .pure _
  · exact (Traced.Within.access (P := fun e : BufRead ↦ e.index < e.len) hlen _).bind (.pure _)

/-- The first byte sets the formatting state, whatever it was. -/
theorem dumpStartCode_succ (n : Nalu) (left idx : ℕ) (ss : OutStream) :
    dumpStartCode n (left + 1) idx ss = dumpStartCode n (left + 1) idx ⟨ss.text, 16, '0', 0⟩ := by
  rw [dumpStartCode, dumpStartCode]
  simp only [OutStream.hexByte_eq]

theorem val_dumpString {n : Nalu} (hvalid : n.isValid = true) :
    n.dumpString.val =
      if n.startCodeLen < 2 ^ 31 then some (Text.unlines n.lines) else none := by
  obtain ⟨hpos, hlen⟩ := n.isValid_iff.mp hvalid
  obtain ⟨k, hk⟩ := Nat.exists_eq_add_of_lt hpos
  have hloop (ss : OutStream) := val_dumpStartCode n n.startCodeLen 0 ss.text (by omega) (by omega)
  have hfirst (ss : OutStream) : dumpStartCode n n.startCodeLen 0 ss =
      dumpStartCode n n.startCodeLen 0 ⟨ss.text, 16, '0', 0⟩ := by
    rw [hk]
    exact dumpStartCode_succ n _ 0 ss
  rw [dumpString, if_neg (by simp [hvalid])]
  simp only [Traced.val_bind]
  rw [hfirst, hloop, Nat.zero_add]
  by_cases hint : n.startCodeLen < 2 ^ 31
  · rw [if_pos hint, if_pos hint]
    simp [OutStream.endl, OutStream.str, OutStream.num, OutStream.insert, lines, Text.unlines,
      Text.decimal, forbiddenBit, nalRefIdc]
  · rw [if_neg hint, if_neg hint]
    rfl

theorem val_dumpString_of_not_valid {n : Nalu} (hvalid : n.isValid = false) :
    n.dumpString.val = some [] := by
  rw [dumpString, if_pos (by simp [hvalid])]
  rfl

theorem forbiddenBit_eq (head : UInt8) : forbiddenBit head = head.toNat / 128 := by
  have hlt := head.toNat_lt
  rw [forbiddenBit, UInt8.toNat_and, UInt8.toNat_shiftRight, Nat.shiftRight_eq_div_pow]
  change head.toNat / 128 &&& 1 = _
  rw [Nat.and_one_is_mod]
  omega

theorem nalRefIdc_eq (head : UInt8) : nalRefIdc head = head.toNat / 32 % 4 := by
  rw [nalRefIdc, UInt8.toNat_and, UInt8.toNat_shiftRight, Nat.shiftRight_eq_div_pow]
  change head.toNat / 32 &&& 2 ^ 2 - 1 = _
  rw [Nat.and_two_pow_sub_one_eq_mod]

theorem toNat_type (head : UInt8) : (head &&& 0x1f).toNat = head.toNat % 32 := by
  rw [UInt8.toNat_and]
  change head.toNat &&& 2 ^ 5 - 1 = _
  rw [Nat.and_two_pow_sub_one_eq_mod]

theorem type_lt (head : UInt8) : head &&& 0x1f < 32 := by
  rw [UInt8.lt_iff_toNat_lt, toNat_type]
  exact Nat.mod_lt _ (by decide)

/-- The three fields make up the header byte. -/
theorem head_eq_of_fields {h h' : UInt8} (hbit : forbiddenBit h = forbiddenBit h')
    (hidc : nalRefIdc h = nalRefIdc h') (htype : h &&& 0x1f = h' &&& 0x1f) : h = h' := by
  have ht := congrArg UInt8.toNat htype
  rw [toNat_type, toNat_type] at ht
  rw [forbiddenBit_eq, forbiddenBit_eq] at hbit
  rw [nalRefIdc_eq, nalRefIdc_eq] at hidc
  exact UInt8.toNat_inj.mp (by omega)

theorem forbiddenBit_lt (head : UInt8) : forbiddenBit head < 16 := by
  have hlt := head.toNat_lt
  rw [forbiddenBit_eq]
  omega

theorem nalRefIdc_lt (head : UInt8) : nalRefIdc head < 16 := by
  rw [nalRefIdc_eq]
  omega

/-- The dump of a NALU tells its length, its start code and its header byte,
and nothing else. -/
theorem lines_eq_iff {n m : Nalu} :
    n.lines = m.lines ↔ n.buffer.length = m.buffer.length ∧
      n.buffer.take n.startCodeLen = m.buffer.take m.startCodeLen ∧ n.getHead = m.getHead := by
  constructor
  · intro h
    simp only [lines, List.cons.injEq, List.append_cancel_left_eq, true_and, and_true] at h
    obtain ⟨hlen, hcode, hbit, hidc, htype⟩ := h
    refine ⟨Text.decimal_inj hlen, Text.hexBytes_inj hcode, head_eq_of_fields ?_ ?_ ?_⟩
    · exact Text.hexDigits_inj (forbiddenBit_lt _) (forbiddenBit_lt _) hbit
    · exact Text.hexDigits_inj (nalRefIdc_lt _) (nalRefIdc_lt _) hidc
    · exact getNaluTypeStr_inj (type_lt _) (type_lt _) htype
  · rintro ⟨hlen, hcode, hhead⟩
    rw [lines, lines, hlen, hcode, hhead]

theorem newline_notMem_lines (n : Nalu) : ∀ l ∈ n.lines, '\n' ∉ l := by
  have happend {p l : List Char} (hp : '\n' ∉ p) (hl : '\n' ∉ l) : '\n' ∉ p ++ l := by
    rw [List.mem_append, not_or]
    exact ⟨hp, hl⟩
  simp only [lines, List.forall_mem_cons]
  exact ⟨by decide, happend (by decide) (Text.newline_notMem_decimal _), by decide,
    Text.newline_notMem_hexBytes _, by decide,
    happend (by decide) (Text.newline_notMem_hexDigits (forbiddenBit_lt _)),
    happend (by decide) (Text.newline_notMem_hexDigits (nalRefIdc_lt _)),
    happend (by decide) (newline_notMem_naluTypeStr (type_lt _)), by simp⟩

end Nalu

end H264SendReceiver
