import H264SendReceiver.AnnexB.Scan

/-!
# One call of `readNalu`

What a reader still has to deliver is its buffer followed by what later reads
will append to it. A call returns the first unit of these bytes, although it
decides on a prefix of them in every pass: a start code found in a prefix is
the first one of the whole, and three zero bytes at the end of a prefix are
only taken for a start code when the next byte makes them one.
-/

namespace H264SendReceiver

namespace Ifstream

/-- What reads of 1024 bytes will deliver from now on. -/
def avail (f : Ifstream) : List UInt8 :=
  if !f.isOpen || f.eof || f.fail then []
  else match f.readsLeft with
    | none => f.unread
    | some k => f.unread.take (1024 * k)

/-- The reads of 1024 bytes that still deliver something. -/
def chunks (f : Ifstream) : ℕ := (f.avail.length + 1023) / 1024

def afterRead (f : Ifstream) : Ifstream := if f.isOpen then (f.read 1024).2 else f

theorem avail_of_not_isOpen {f : Ifstream} (h : f.isOpen = false) : f.avail = [] := by
  simp [avail, h]

theorem avail_prefix_unread (f : Ifstream) : f.avail <+: f.unread := by
  unfold avail
  split
  · exact List.nil_prefix
  · split
    · exact List.prefix_rfl
    · exact List.take_prefix _ _

theorem take_take_reads (l : List UInt8) (k : ℕ) :
    (l.take (1024 * (k + 1))).take 1024 = l.take 1024 := by
  rw [List.take_take, Nat.min_eq_left (by omega)]

theorem read_fst {f : Ifstream} (h : f.isOpen = true) : (f.read 1024).1 = f.avail.take 1024 := by
  rcases f with ⟨isOpen, unread, eof, fail, _ | _ | k⟩ <;> cases eof <;> cases fail <;>
    simp_all [read, avail, take_take_reads]

@[simp] theorem isOpen_afterRead (f : Ifstream) : f.afterRead.isOpen = f.isOpen := by
  unfold afterRead read
  split_ifs <;> rfl

@[simp] theorem avail_afterRead (f : Ifstream) : f.afterRead.avail = f.avail.drop 1024 := by
  rcases f with ⟨_ | _, unread, eof, fail, _ | _ | k⟩ <;> cases eof <;> cases fail <;>
    simp [afterRead, read, avail, List.drop_take, Nat.mul_succ] <;> omega

theorem unread_afterRead (f : Ifstream) :
    f.avail.take 1024 ++ f.afterRead.unread = f.unread := by
  rcases f with ⟨_ | _, unread, eof, fail, _ | _ | k⟩ <;> cases eof <;> cases fail <;>
    simp [afterRead, read, avail, take_take_reads]

end Ifstream

namespace FileReader

/-- What the reader can still deliver. -/
def available (r : FileReader) : List UInt8 := r.buffer ++ r.file.avail

/-- What it has not delivered yet, a failed device or not. -/
def remaining (r : FileReader) : List UInt8 := r.buffer ++ r.file.unread

/-- The buffer that the pass `k` of a call works on, counted from 1. -/
def data (r : FileReader) (k : ℕ) : List UInt8 := r.buffer ++ r.file.avail.take (1024 * k)

theorem data_append (r : FileReader) (k : ℕ) :
    r.data k ++ r.file.avail.drop (1024 * k) = r.available := by
  rw [data, available, List.append_assoc, List.take_append_drop]

theorem available_prefix_remaining (r : FileReader) : r.available <+: r.remaining :=
  (List.prefix_append_right_inj _).mpr r.file.avail_prefix_unread

def refilled (r : FileReader) : FileReader :=
  { r with file := r.file.afterRead, buffer := r.data 1 }

theorem readFromFile_eq (r : FileReader) :
    r.readFromFile = (decide (r.file.avail ≠ []), r.refilled) := by
  cases hopen : r.file.isOpen with
  | false =>
      simp [readFromFile, refilled, data, hopen, Ifstream.afterRead,
        Ifstream.avail_of_not_isOpen hopen]
  | true =>
      have hread := Ifstream.read_fst hopen
      rw [readFromFile, if_neg (by simp [hopen])]
      simp only [refilled, data, Ifstream.afterRead, hopen, if_true, hread]
      cases havail : r.file.avail <;> simp

theorem data_refilled (r : FileReader) (k : ℕ) : r.refilled.data k = r.data (k + 1) := by
  simp only [refilled, data, Ifstream.avail_afterRead, Nat.mul_one, List.append_assoc]
  rw [show 1024 * (k + 1) = 1024 + 1024 * k by omega, List.take_add]

theorem available_refilled (r : FileReader) : r.refilled.available = r.available := by
  rw [← r.data_append 1, available, refilled, Ifstream.avail_afterRead]

/-- `r'` is `r` after `p` passes, with the first `n` buffered bytes cut off. -/
structure Advances (r : FileReader) (p n : ℕ) (r' : FileReader) : Prop where
  isOpen : r'.file.isOpen = r.file.isOpen
  fileName : r'.fileName = r.fileName
  buffer : r'.buffer = (r.data p).drop n
  avail : r'.file.avail = r.file.avail.drop (1024 * p)
  unread : r.file.avail.take (1024 * p) ++ r'.file.unread = r.file.unread
  le_length : n ≤ (r.data p).length
  passes_le : p ≤ r.file.chunks + 1

namespace Advances

variable {r r' : FileReader} {p n : ℕ}

theorem one (r : FileReader) {n : ℕ} (h : n ≤ (r.data 1).length) :
    r.Advances 1 n { r.refilled with buffer := (r.data 1).drop n } where
  isOpen := r.file.isOpen_afterRead
  fileName := rfl
  buffer := rfl
  avail := r.file.avail_afterRead
  unread := r.file.unread_afterRead
  le_length := h
  passes_le := Nat.le_add_left 1 _

theorem refilled (h : r.refilled.Advances p n r') (hne : r.file.avail ≠ []) :
    r.Advances (p + 1) n r' where
  isOpen := h.isOpen.trans r.file.isOpen_afterRead
  fileName := h.fileName
  buffer := by rw [h.buffer, data_refilled]
  avail := by
    rw [h.avail, FileReader.refilled, Ifstream.avail_afterRead, List.drop_drop, Nat.mul_succ,
      Nat.add_comm]
  unread := by
    have hunread := h.unread
    rw [FileReader.refilled, Ifstream.avail_afterRead] at hunread
    rw [Nat.mul_succ, Nat.add_comm (1024 * p), List.take_add, List.append_assoc, hunread]
    exact r.file.unread_afterRead
  le_length := by
    have hle := h.le_length
    rwa [data_refilled] at hle
  passes_le := by
    have hpasses := h.passes_le
    have hpos := List.length_pos_iff.mpr hne
    simp only [Ifstream.chunks, FileReader.refilled, Ifstream.avail_afterRead,
      List.length_drop] at hpasses ⊢
    omega

/-- The bytes cut off and the bytes kept are the buffered ones and those read
since. -/
theorem take_append_buffer (h : r.Advances p n r') :
    (r.data p).take n ++ r'.buffer = r.buffer ++ r.file.avail.take (1024 * p) := by
  rw [h.buffer, List.take_append_drop, data]

theorem available_eq (h : r.Advances p n r') : r'.available = r.available.drop n := by
  rw [available, h.buffer, h.avail, ← r.data_append p, List.drop_append_of_le_length h.le_length]

theorem remaining_eq (h : r.Advances p n r') :
    (r.data p).take n ++ r'.remaining = r.remaining := by
  rw [remaining, remaining, ← List.append_assoc, h.take_append_buffer, List.append_assoc, h.unread]

theorem remaining_drop (h : r.Advances p n r') : r'.remaining = r.remaining.drop n := by
  rw [← h.remaining_eq, List.drop_left' (List.length_take_of_le h.le_length)]

theorem data_eq (h : r.Advances p n r') (k : ℕ) : r'.data k = (r.data (p + k)).drop n := by
  have hsplit : r.data (p + k) =
      r.data p ++ (r.file.avail.drop (1024 * p)).take (1024 * k) := by
    rw [data, data, Nat.mul_add, List.take_add, List.append_assoc]
  rw [hsplit, List.drop_append_of_le_length h.le_length, data, h.buffer, h.avail]

theorem chunks_add_le (h : r.Advances p n r') :
    p + r'.file.chunks ≤ r.file.chunks + 1 := by
  have hpasses := h.passes_le
  simp only [Ifstream.chunks, h.avail, List.length_drop] at hpasses ⊢
  omega

end Advances

/-- The search of a pass with the data `l` reads the byte behind them. -/
def Overreads (l : List UInt8) : Prop :=
  l = [0, 0, 0] ∨ ∃ s, startCode l = some s ∧ annexB.next l s = none ∧ ZeroTail l s

/-- Where a pass takes the byte behind its data for the last byte of a start
code, the file has that byte there. -/
def Truthful (mem : ℕ → ℕ → UInt8) (r : FileReader) : Prop :=
  ∀ k, mem k 0 = 0x01 → Overreads (r.data (k + 1)) →
    (r.file.avail.drop (1024 * (k + 1))).head? = some 0x01

theorem Truthful.refilled {mem : ℕ → ℕ → UInt8} {r : FileReader} (h : Truthful mem r) :
    Truthful (fun i ↦ mem (i + 1)) r.refilled := by
  intro k hbyte hover
  rw [data_refilled] at hover
  have hnext := h (k + 1) hbyte hover
  rw [FileReader.refilled, Ifstream.avail_afterRead, List.drop_drop,
    show 1024 + 1024 * (k + 1) = 1024 * (k + 1 + 1) by omega]
  exact hnext

/-- `static_cast<int>` keeps the position at which the first unit is cut. -/
def CutFits (l : List UInt8) : Prop :=
  ∀ s j, startCode l = some s → annexB.next l s = some j → j < 2 ^ 31

theorem cutFits_of_length {l : List UInt8} (h : l.length < 2 ^ 31) : CutFits l :=
  fun _ _ _ hj ↦ (annexB.lt_length_of_next hj).trans h

end FileReader

end H264SendReceiver
