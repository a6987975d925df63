import H264SendReceiver.AnnexB.NaluStream

/-!
# The cursor over whole runs

A run is any finite sequence of the four read calls on one stream. One call
moves the cursor forward over the bits it reads; a run therefore reads the
buffer from its first bit on, each bit once, and the cursor laws follow from
the position reached.
-/

namespace H264SendReceiver

open BitStream

inductive ReadCall where
  | readOneBit
  | readNBits (count : ℕ)
  | readUev
  | readSev
  deriving DecidableEq, Repr

namespace ReadCall

def exec (wide : CInt → ℕ → CInt) (s : NaluStream) : ReadCall → Traced BitRead NaluStream
  | readOneBit => do return (← s.readOneBit).2
  | readNBits count => do return (← s.readNBits wide count).2
  | readUev => do return (← NaluStream.readUev wide s).2
  | readSev => do return (← NaluStream.readSev wide s).2

def run (wide : CInt → ℕ → CInt) : List ReadCall → NaluStream → Traced BitRead NaluStream
  | [], s => pure s
  | c :: cs, s => do run wide cs (← c.exec wide s)

/-- The calls that ask for a bit at least. -/
def Asks : ReadCall → Prop
  | readNBits count => 1 ≤ count
  | _ => True

theorem exec_seek (wide : CInt → ℕ → CInt) {s : NaluStream} {i : ℕ}
    (hi : i ≤ 8 * s.buffer.length) (c : ReadCall) :
    ∃ k, i + k ≤ 8 * s.buffer.length ∧ (c.Asks → i < 8 * s.buffer.length → 0 < k) ∧
      c.exec wide (s.seek i) = ⟨s.seek (i + k), readsFrom i k⟩ := by
  cases c with
  | readOneBit =>
      by_cases hlt : i < 8 * s.buffer.length
      · obtain ⟨b, hb⟩ := exists_getElem?_bits hlt
        refine ⟨1, hlt, fun _ _ ↦ Nat.one_pos, ?_⟩
        rw [exec, readOneBit_seek hb]
        rfl
      · refine ⟨0, hi, fun _ h ↦ absurd h hlt, ?_⟩
        rw [exec, readOneBit_seek_end (by omega)]
        rfl
  | readNBits count =>
      obtain ⟨hcursor, hlog⟩ := readNBits_cursor wide count hi
      refine ⟨min count (8 * s.buffer.length - i), by omega, fun hcount hlt ↦ ?_, ?_⟩
      · have hone : 1 ≤ count := hcount
        omega
      · rw [← hcursor, ← hlog, exec, Traced.bind_pure_eq]
  | readUev =>
      obtain ⟨hcursor, hlog⟩ := NaluStream.readCodeNum_cursor wide hi
      refine ⟨min (2 * NaluStream.zeroCount 32 (s.bits.drop i) + 1) (8 * s.buffer.length - i),
        by omega, fun _ hlt ↦ by omega, ?_⟩
      rw [← hcursor, ← hlog, exec, Traced.bind_pure_eq, NaluStream.readUev_eq]
  | readSev =>
      obtain ⟨hcursor, hlog⟩ := NaluStream.readCodeNum_cursor wide hi
      refine ⟨min (2 * NaluStream.zeroCount 32 (s.bits.drop i) + 1) (8 * s.buffer.length - i),
        by omega, fun _ hlt ↦ by omega, ?_⟩
      rw [← hcursor, ← hlog, exec, Traced.bind_pure_eq, NaluStream.readSev_eq]

theorem run_seek (wide : CInt → ℕ → CInt) {s : NaluStream} (cs : List ReadCall) :
    ∀ i, i ≤ 8 * s.buffer.length →
      ∃ k, i + k ≤ 8 * s.buffer.length ∧
        run wide cs (s.seek i) = ⟨s.seek (i + k), readsFrom i k⟩ := by
  induction cs with
  | nil => intro i hi; exact ⟨0, hi, rfl⟩
  | cons c cs ih =>
      intro i hi
      obtain ⟨k, hk, -, hexec⟩ := exec_seek wide hi c
      obtain ⟨m, hm, hrun⟩ := ih (i + k) hk
      refine ⟨k + m, by omega, ?_⟩
      rw [run, hexec, Traced.mk_bind, hrun, readsFrom_append, Nat.add_assoc]

/-- The cursor positions a run can reach are the bit positions of the buffer. -/
theorem run_ofBuffer (wide : CInt → ℕ → CInt) {buffer : List UInt8}
    (h : buffer.length < 2 ^ 61) (cs : List ReadCall) :
    ∃ i, i ≤ 8 * buffer.length ∧
      run wide cs (ofBuffer buffer h) = ⟨(ofBuffer buffer h).seek i, readsFrom 0 i⟩ := by
  obtain ⟨i, hi, hrun⟩ := run_seek wide cs (s := ofBuffer buffer h) 0 (Nat.zero_le _)
  rw [Nat.zero_add] at hi hrun
  exact ⟨i, hi, hrun⟩

theorem exists_isEnd (wide : CInt → ℕ → CInt) {s : NaluStream} (next : ℕ → ReadCall)
    (hnext : ∀ j, (next j).Asks) (i n : ℕ) (hi : i ≤ 8 * s.buffer.length)
    (hn : 8 * s.buffer.length - i ≤ n) :
    ∃ m ≤ n, (run wide ((List.range m).map next) (s.seek i)).val.isEnd = true := by
  induction n generalizing i next with
  | zero => exact ⟨0, le_rfl, by rw [List.range_zero, List.map_nil, run, Traced.val_pure,
      isEnd_seek hi, decide_eq_true]; omega⟩
  | succ n ih =>
      by_cases hlt : i < 8 * s.buffer.length
      · obtain ⟨k, hk, hpos, hexec⟩ := exec_seek wide hi (next 0)
        have hk0 := hpos (hnext 0) hlt
        obtain ⟨m, hm, hend⟩ := ih (fun j ↦ next (j + 1)) (fun j ↦ hnext (j + 1)) (i + k) hk
          (by omega)
        refine ⟨m + 1, by omega, ?_⟩
        rw [List.range_succ_eq_map, List.map_cons, List.map_map, run, Traced.val_bind, hexec]
        exact hend
      · refine ⟨0, by omega, ?_⟩
        rw [List.range_zero, List.map_nil, run, Traced.val_pure, isEnd_seek hi, decide_eq_true]
        omega

/-- What holds of the stream `r.val` and of the accesses `r.log` after any run
over a buffer of `size` bytes. -/
structure CursorLaws (wide : CInt → ℕ → CInt) (size : ℕ) (r : Traced BitRead NaluStream) :
    Prop where
  bitOffset_range : 1 ≤ r.val.bitOffset ∧ r.val.bitOffset ≤ 8
  pos_le : r.val.pos ≤ size
  bitOffset_at_end : r.val.pos = size → r.val.bitOffset = 8
  /-- No operation of `getRemainBitSize` leaves the range of `size_t`. -/
  no_wrap : size * 8 < 2 ^ 64 ∧ r.val.pos * 8 ≤ size * 8 ∧
    8 - r.val.bitOffset ≤ size * 8 - r.val.pos * 8
  remain_eq : r.val.getRemainBitSize = 8 * size - r.log.length ∧ r.log.length ≤ 8 * size
  /-- The `int` index of `readNBits` runs to one past the remaining size. -/
  index_fits : r.val.getRemainBitSize + 1 < 2 ^ 31
  in_range : ∀ a ∈ r.log, a.pos < size ∧ a.shift < 8
  /-- The bits are read in order, the bit at distance 7 of byte 0 first. -/
  in_order : r.log = (List.range r.log.length).map fun j ↦ ⟨j / 8, 7 - j % 8⟩
  once : r.log.Nodup
  at_end : r.val.isEnd = true → ∀ c : ReadCall, c.exec wide r.val = pure r.val
  decreases : r.val.isEnd = false → ∀ c : ReadCall, c.Asks →
    (c.exec wide r.val).val.getRemainBitSize < r.val.getRemainBitSize
  loops_end : ∀ next : ℕ → ReadCall, (∀ j, (next j).Asks) →
    ∃ n ≤ 8 * size, (run wide ((List.range n).map next) r.val).val.isEnd = true

theorem nodup_readsFrom (n : ℕ) : (readsFrom 0 n).Nodup := by
  refine List.Nodup.map (fun i j hij ↦ ?_) (List.nodup_range')
  simp only [BitRead.mk.injEq] at hij
  omega

theorem cursorLaws_seek (wide : CInt → ℕ → CInt) (s : NaluStream) (i : ℕ)
    (hi : i ≤ 8 * s.buffer.length) (hsize : s.buffer.length < 2 ^ 28) :
    CursorLaws wide s.buffer.length ⟨s.seek i, readsFrom 0 i⟩ := by
  have hlen : (readsFrom 0 i).length = i := by simp [readsFrom]
  have hremain := getRemainBitSize_seek hi
  have hend := isEnd_seek hi
  refine
    { bitOffset_range := ?_, pos_le := ?_, bitOffset_at_end := ?_, no_wrap := ?_,
      remain_eq := ?_, index_fits := ?_, in_range := ?_, in_order := ?_, once := ?_,
      at_end := ?_, decreases := ?_, loops_end := ?_ }
  · simp only [seek]
    omega
  · simp only [seek]
    omega
  · simp only [seek]
    omega
  · simp only [seek]
    omega
  · rw [hremain, hlen]
    exact ⟨rfl, hi⟩
  · rw [hremain]
    omega
  · intro a ha
    obtain ⟨j, hj, rfl⟩ := List.mem_map.mp ha
    have hrange := List.mem_range'_1.mp hj
    constructor
    · change j / 8 < _
      omega
    · change 7 - j % 8 < 8
      omega
  · rw [hlen, readsFrom, List.range_eq_range']
  · exact nodup_readsFrom i
  · intro h c
    have hfinal : i = 8 * s.buffer.length := by simpa [hend] using h
    obtain ⟨k, hk, -, hexec⟩ := exec_seek wide hi c
    obtain rfl : k = 0 := by omega
    exact hexec
  · intro h c hc
    have hlt : i ≠ 8 * s.buffer.length := by simpa [hend] using h
    obtain ⟨k, hk, hpos, hexec⟩ := exec_seek wide hi c
    have hk0 := hpos hc (by omega)
    rw [hexec, hremain, getRemainBitSize_seek hk]
    omega
  · intro next hnext
    exact exists_isEnd wide next hnext i _ hi (by omega)

/-- The laws hold after every sequence of calls on a stream over a buffer of
fewer than `2 ^ 28` bytes, whatever the over-wide shifts yield. -/
theorem cursorLaws_run (wide : CInt → ℕ → CInt) (buffer : List UInt8)
    (hsize : buffer.length < 2 ^ 28) (cs : List ReadCall) :
    CursorLaws wide buffer.length (run wide cs (ofBuffer buffer (hsize.trans (by omega)))) := by
  obtain ⟨i, hi, hrun⟩ := run_ofBuffer wide (hsize.trans (by omega)) cs
  rw [hrun]
  exact cursorLaws_seek wide (ofBuffer buffer (hsize.trans (by omega))) i hi hsize

theorem cursorLaws_run_short :
    CursorLaws (fun _ _ ↦ 0) 2
      (run (fun _ _ ↦ 0) [.readUev, .readNBits 40, .readSev] (ofBuffer [0x67, 0x01] (by decide))) :=
  cursorLaws_run (fun _ _ ↦ 0) [0x67, 0x01] (by decide) [.readUev, .readNBits 40, .readSev]

end ReadCall

end H264SendReceiver
