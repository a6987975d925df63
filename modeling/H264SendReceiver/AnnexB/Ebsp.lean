import H264SendReceiver.Library.Emulation
import H264SendReceiver.Library.Machine
import H264SendReceiver.Library.Traced

/-!
# From EBSP to RBSP

`AnnexB::Ebsp` holds a NALU without its start code, `AnnexB::Rbsp` the NALU
body without emulation prevention. `getRbsp` copies the first two body bytes
and then walks an `int` index over the rest. It logs the index of every byte
it reads; `behind` is the memory behind the vector's last byte.
-/

namespace H264SendReceiver

open Memory Emulation

structure Rbsp where
  buffer : List UInt8 := []
  deriving DecidableEq, Repr

namespace Rbsp

def setBuffer (_ : Rbsp) (buffer : List UInt8) : Rbsp := ⟨buffer⟩

def clear (_ : Rbsp) : Rbsp := ⟨[]⟩

def isValid (r : Rbsp) : Bool := !r.buffer.isEmpty

end Rbsp

structure Ebsp where
  buffer : List UInt8 := []
  deriving DecidableEq, Repr

namespace Ebsp

def setBuffer (_ : Ebsp) (buffer : List UInt8) : Ebsp := ⟨buffer⟩

def clear (_ : Ebsp) : Ebsp := ⟨[]⟩

def isValid (e : Ebsp) : Bool := !e.buffer.isEmpty

section Loop

variable (m : ℕ → UInt8) (size : ℕ)

/-- `m_buffer[idx]`. -/
def byteAt (idx : ℕ) : Traced ℕ UInt8 := Traced.access idx (m idx)

/-- `v != m_buffer[idx]`. -/
def differs (v : UInt8) (idx : ℕ) : Traced ℕ Bool := do return v != (← byteAt m idx)

def pushBack (buffer : List UInt8) (idx : ℕ) : Traced ℕ (List UInt8) := do
  return buffer ++ [← byteAt m idx]

/-- The body of the loop: every branch but the last copies the byte. -/
def copyByte (idx : ℕ) (buffer : List UInt8) : Traced ℕ (List UInt8) := do
  if ← differs m 0x03 idx then pushBack m buffer idx
  else if ← (differs m 0x00 (idx - 2)).or (differs m 0x00 (idx - 1)) then pushBack m buffer idx
  else if size ≤ idx + 1 then pushBack m buffer idx
  else if ← (((differs m 0x00 (idx + 1)).and (differs m 0x01 (idx + 1))).and
      (differs m 0x02 (idx + 1))).and (differs m 0x03 (idx + 1)) then pushBack m buffer idx
  else pure buffer

/-- The loop. Its index is an `int`: incrementing it past `2 ^ 31 - 1` has no
defined result. -/
def getRbspLoop : ℕ → ℕ → List UInt8 → Traced ℕ (Option (List UInt8))
  | 0, _, _ => pure none
  | rounds + 1, idx, buffer =>
      if idx < size then do
        let buffer ← copyByte m size idx buffer
        if idx + 1 < 2 ^ 31 then getRbspLoop rounds (idx + 1) buffer else pure none
      else pure (some buffer)

end Loop

/-- The result and the changed argument, or `none` where the code has no
defined result. -/
def getRbsp (behind : ℕ → UInt8) (e : Ebsp) (rbsp : Rbsp) :
    Traced ℕ (Option (Bool × Rbsp)) :=
  if !e.isValid then pure (some (false, rbsp))
  else do
    let m := peek e.buffer behind
    let buffer := [← byteAt m 1, ← byteAt m 2]
    match ← getRbspLoop m e.buffer.length e.buffer.length 3 buffer with
    | none => pure none
    | some buffer => pure (some (true, rbsp.setBuffer buffer))

/-! ## The loop strips what the escaper inserted -/

@[simp] theorem val_byteAt (m : ℕ → UInt8) (idx : ℕ) : (byteAt m idx).val = m idx := rfl

@[simp] theorem val_differs (m : ℕ → UInt8) (v : UInt8) (idx : ℕ) :
    (differs m v idx).val = (v != m idx) := rfl

@[simp] theorem val_pushBack (m : ℕ → UInt8) (buffer : List UInt8) (idx : ℕ) :
    (pushBack m buffer idx).val = buffer ++ [m idx] := rfl

theorem three_lt_iff (b : UInt8) :
    ¬ b ≤ 0x03 ↔ ((0x00 ≠ b ∧ 0x01 ≠ b) ∧ 0x02 ≠ b) ∧ 0x03 ≠ b := by
  simp only [UInt8.le_iff_toNat_le, ne_eq, ← UInt8.toNat_inj, UInt8.reduceToNat]
  omega

theorem val_copyByte (m : ℕ → UInt8) (size idx : ℕ) (buffer : List UInt8) :
    (copyByte m size idx buffer).val =
      if m idx = 0x03 ∧ m (idx - 2) = 0 ∧ m (idx - 1) = 0 ∧ idx + 1 < size ∧ m (idx + 1) ≤ 0x03
      then buffer else buffer ++ [m idx] := by
  simp only [copyByte, Traced.val_bind, Traced.val_ite, Traced.val_and, Traced.val_or,
    Traced.val_pure, val_differs, val_pushBack, Bool.and_eq_true, Bool.or_eq_true, bne_iff_ne,
    ← three_lt_iff]
  by_cases h₃ : m idx = 0x03
  · by_cases h₀ : m (idx - 2) = 0 ∧ m (idx - 1) = 0
    · by_cases hend : size ≤ idx + 1
      · simp [h₃, h₀, hend]
      · by_cases hnext : m (idx + 1) ≤ 0x03
        · simp [h₃, h₀, hend, hnext, Nat.lt_of_not_le hend]
        · simp [h₃, h₀, hend, hnext]
    · have hne : 0x00 ≠ m (idx - 2) ∨ 0x00 ≠ m (idx - 1) := by
        rw [ne_comm, ne_comm (a := (0x00 : UInt8)), ← not_and_or]
        exact h₀
      rw [if_neg (by simp [h₃]), if_pos hne, if_neg (fun h ↦ h₀ ⟨h.2.1, h.2.2.1⟩)]
  · rw [if_pos (Ne.symm h₃), if_neg (fun h ↦ h₃ h.1)]

theorem peek_append_right (l r : List UInt8) (behind : ℕ → UInt8) {i : ℕ} {b : UInt8}
    (h : r[i]? = some b) : peek (l ++ r) behind (l.length + i) = b := by
  apply peek_eq
  rw [List.getElem?_append_right (Nat.le_add_right _ _), Nat.add_sub_cancel_left, h]

theorem val_copyByte_peek (behind : ℕ → UInt8) (pre : List UInt8) (p q b : UInt8)
    (rest buffer : List UInt8) :
    (copyByte (peek (pre ++ p :: q :: b :: rest) behind) (pre ++ p :: q :: b :: rest).length
        (pre.length + 2) buffer).val =
      if b = 0x03 ∧ p = 0 ∧ q = 0 ∧ rest.head?.any (· ≤ 0x03) then buffer
      else buffer ++ [b] := by
  rw [val_copyByte]
  generalize hm : peek (pre ++ p :: q :: b :: rest) behind = m
  have hread (i : ℕ) (c : UInt8) (hc : (p :: q :: b :: rest)[i]? = some c) :
      m (pre.length + i) = c := by
    rw [← hm]
    exact peek_append_right pre _ behind hc
  have hp : m (pre.length + 2 - 2) = p := hread 0 p rfl
  have hq : m (pre.length + 2 - 1) = q := hread 1 q rfl
  have hb : m (pre.length + 2) = b := hread 2 b rfl
  have hnext : (pre.length + 2 + 1 < (pre ++ p :: q :: b :: rest).length ∧
      m (pre.length + 2 + 1) ≤ 0x03) ↔ rest.head?.any (· ≤ 0x03) = true := by
    cases rest with
    | nil => simp
    | cons c rest =>
        have hc : m (pre.length + 2 + 1) = c := hread 3 c rfl
        have hmore : pre.length + 2 + 1 < (pre ++ p :: q :: b :: c :: rest).length := by
          simp only [List.length_append, List.length_cons]
          omega
        rw [hc, and_iff_right hmore, List.head?_cons, Option.any_some, decide_eq_true_eq]
  simp only [hp, hq, hb, hnext]

/-- From the position behind the bytes `p` and `q` on the loop appends the
stripped rest, unless its index has to pass the range of `int`. -/
theorem val_getRbspLoop (behind : ℕ → UInt8) (rest : List UInt8) :
    ∀ (pre : List UInt8) (p q : UInt8) (rounds : ℕ) (buffer : List UInt8),
      rest.length < rounds → pre.length + 2 < 2 ^ 31 →
      (getRbspLoop (peek (pre ++ p :: q :: rest) behind) (pre ++ p :: q :: rest).length rounds
          (pre.length + 2) buffer).val =
        if (pre ++ p :: q :: rest).length < 2 ^ 31 then some (buffer ++ stripFrom p q rest)
        else none := by
  induction rest with
  | nil =>
      intro pre p q rounds buffer hrounds hidx
      obtain ⟨rounds, rfl⟩ : ∃ r, rounds = r + 1 := ⟨rounds - 1, by omega⟩
      have hlen : (pre ++ [p, q]).length = pre.length + 2 := by simp
      rw [getRbspLoop, hlen, if_neg (by omega), if_pos hidx, stripFrom, List.append_nil]
      rfl
  | cons b rest ih =>
      intro pre p q rounds buffer hrounds hidx
      obtain ⟨rounds, rfl⟩ : ∃ r, rounds = r + 1 := ⟨rounds - 1, by omega⟩
      rw [List.length_cons] at hrounds
      have hlen : (pre ++ p :: q :: b :: rest).length = pre.length + 3 + rest.length := by
        simp only [List.length_append, List.length_cons]
        omega
      have hmove : (pre ++ [p]) ++ q :: b :: rest = pre ++ p :: q :: b :: rest := by simp
      have hidx' : (pre ++ [p]).length + 2 = pre.length + 2 + 1 := by simp
      rw [getRbspLoop, if_pos (by omega), Traced.val_bind, Traced.val_ite, val_copyByte_peek]
      by_cases hint : pre.length + 2 + 1 < 2 ^ 31
      · have hstep := ih (pre ++ [p]) q b rounds
          (if b = 0x03 ∧ p = 0 ∧ q = 0 ∧ rest.head?.any (· ≤ 0x03) then buffer
            else buffer ++ [b]) (by omega) (by omega)
        rw [hmove, hidx'] at hstep
        rw [if_pos hint, hstep, stripFrom]
        split
        · split <;> simp
        · rfl
      · rw [if_neg hint, if_neg (by omega)]
        rfl

/-- What `getRbsp` makes of an EBSP with a header and two body bytes at least;
the header and the memory behind the buffer do not matter. -/
theorem val_getRbsp (behind : ℕ → UInt8) (h p q : UInt8) (rest : List UInt8) (rbsp : Rbsp) :
    (getRbsp behind ⟨h :: p :: q :: rest⟩ rbsp).val =
      if rest.length + 3 < 2 ^ 31 then some (true, ⟨p :: q :: stripFrom p q rest⟩)
      else none := by
  have hloop := val_getRbspLoop behind rest [h] p q (rest.length + 3) [p, q]
    (by omega) (by simp)
  have hlen : ([h] ++ p :: q :: rest).length = rest.length + 3 := by simp
  rw [hlen] at hloop
  have hread (i : ℕ) (c : UInt8) (hc : (h :: p :: q :: rest)[i]? = some c) :
      peek (h :: p :: q :: rest) behind i = c := peek_eq hc behind
  rw [getRbsp, if_neg (by simp [isValid])]
  simp only [Traced.val_bind, val_byteAt, hread 1 p rfl, hread 2 q rfl, List.length_cons]
  change (match (getRbspLoop (peek ([h] ++ p :: q :: rest) behind) (rest.length + 3)
    (rest.length + 3) ([h].length + 2) [p, q]).val with
    | none => pure none
    | some buffer => pure (some (true, rbsp.setBuffer buffer)) : Traced ℕ _).val = _
  rw [hloop]
  by_cases hfits : rest.length + 3 < 2 ^ 31
  · rw [if_pos hfits, if_pos hfits]
    rfl
  · rw [if_neg hfits, if_neg hfits]
    rfl

/-- The RBSP of an EBSP of any length: without two body bytes the memory behind
the buffer takes their place. -/
def rbspBytes (behind : ℕ → UInt8) (e : Ebsp) : List UInt8 :=
  match e.buffer with
  | [] => []
  | [_] => [behind 0, behind 1]
  | [_, p] => [p, behind 0]
  | _ :: p :: q :: rest => p :: q :: stripFrom p q rest

theorem rbspBytes_congr (behind behind' : ℕ → UInt8) {e : Ebsp} (hlen : 3 ≤ e.buffer.length) :
    rbspBytes behind e = rbspBytes behind' e := by
  rcases e with ⟨_ | ⟨h, _ | ⟨p, _ | ⟨q, rest⟩⟩⟩⟩
  · simp at hlen
  · simp at hlen
  · simp at hlen
  · rfl

theorem isValid_rbspBytes (behind : ℕ → UInt8) {e : Ebsp} (hvalid : e.isValid = true) :
    Rbsp.isValid ⟨rbspBytes behind e⟩ = true := by
  rcases e with ⟨_ | ⟨h, _ | ⟨p, _ | ⟨q, rest⟩⟩⟩⟩
  · simp [isValid] at hvalid
  all_goals rfl

theorem val_getRbsp_of_valid (behind : ℕ → UInt8) {e : Ebsp} (hvalid : e.isValid = true)
    (hfits : e.buffer.length < 2 ^ 31) (rbsp : Rbsp) :
    (getRbsp behind e rbsp).val = some (true, ⟨rbspBytes behind e⟩) := by
  rcases e with ⟨_ | ⟨h, _ | ⟨p, _ | ⟨q, rest⟩⟩⟩⟩
  · simp [isValid] at hvalid
  · simp [getRbsp, isValid, getRbspLoop, peek, rbspBytes, Rbsp.setBuffer]
  · simp [getRbsp, isValid, getRbspLoop, peek, rbspBytes, Rbsp.setBuffer]
  · have hlen : rest.length + 3 < 2 ^ 31 := hfits
    rw [val_getRbsp, if_pos hlen]
    rfl

/-! ## What the loop reads -/

theorem within_byteAt (m : ℕ → UInt8) {size i : ℕ} (hi : i < size) :
    (byteAt m i).Within (· < size) :=
  Traced.Within.access (P := (· < size)) hi _

theorem within_copyByte (m : ℕ → UInt8) {size idx : ℕ} (hidx : idx < size)
    (buffer : List UInt8) : (copyByte m size idx buffer).Within (· < size) := by
  have hdiffers (v : UInt8) {i : ℕ} (hi : i < size) : (differs m v i).Within (· < size) :=
    (within_byteAt m hi).bind (.pure _)
  have hpush : (pushBack m buffer idx).Within (· < size) :=
    (within_byteAt m hidx).bind (.pure _)
  have hback := (hdiffers 0x00 (i := idx - 2) (by omega)).or
    (hdiffers 0x00 (i := idx - 1) (by omega))
  refine (hdiffers 0x03 hidx).bind (.ite (fun _ ↦ hpush) fun _ ↦ ?_)
  refine hback.bind (.ite (fun _ ↦ hpush) fun _ ↦ .ite (fun _ ↦ hpush) fun hmore ↦ ?_)
  -- the byte ahead is only looked at when there is one
  have hahead (v : UInt8) := hdiffers v (i := idx + 1) (by omega)
  exact ((((hahead 0x00).and (hahead 0x01)).and (hahead 0x02)).and (hahead 0x03)).bind
    (.ite (fun _ ↦ hpush) fun _ ↦ .pure _)

theorem within_getRbspLoop (m : ℕ → UInt8) (size rounds : ℕ) :
    ∀ (idx : ℕ) (buffer : List UInt8),
      (getRbspLoop m size rounds idx buffer).Within (· < size) := by
  induction rounds with
  | zero => intro idx buffer; exact .pure none
  | succ rounds ih =>
      intro idx buffer
      refine .ite (fun hidx ↦ ?_) fun _ ↦ .pure _
      exact (within_copyByte m hidx buffer).bind (.ite (fun _ ↦ ih _ _) fun _ ↦ .pure _)

/-- The first two body bytes are read whether they are there or not; nothing
else is read outside the buffer. -/
theorem within_getRbsp_iff (behind : ℕ → UInt8) {e : Ebsp} (hvalid : e.isValid = true)
    (rbsp : Rbsp) :
    (getRbsp behind e rbsp).Within (· < e.buffer.length) ↔ 3 ≤ e.buffer.length := by
  rw [getRbsp, if_neg (by simp [hvalid])]
  constructor
  · intro h
    have htwo : 2 < e.buffer.length := h 2 (by simp [byteAt])
    exact htwo
  · intro hlen
    have hone := within_byteAt (peek e.buffer behind) (i := 1) (Nat.lt_of_succ_lt hlen)
    have htwo := within_byteAt (peek e.buffer behind) (i := 2) hlen
    refine hone.bind (htwo.bind ((within_getRbspLoop _ _ _ 3 _).bind ?_))
    split <;> exact .pure _

end Ebsp

end H264SendReceiver
