import H264SendReceiver.AnnexB.Nalu
import H264SendReceiver.AnnexB.StartCode

/-!
# The file reader

`AnnexB::FileReader` reads a file in chunks of 1024 bytes into `m_buffer` and
cuts NALUs off its front. Every pass of the loop in `readNalu` reads a chunk
and searches the whole buffer again.

`findStartCode` gets a pointer and a length. It is modelled on the memory
that the pointer reaches, past the end of the buffer too, and logs each index
it reads together with the length it was given.
-/

namespace H264SendReceiver

open Memory

/-- The file stream: the bytes behind the read position and the state bits.
`readsLeft` is the environment's choice: `some n` for a device that fails
after `n` more reads, `none` for one that does not. -/
structure Ifstream where
  isOpen : Bool := false
  unread : List UInt8 := []
  eof : Bool := false
  fail : Bool := false
  readsLeft : Option ℕ := none
  deriving DecidableEq, Repr

namespace Ifstream

def openFile (f : Ifstream) (content : Option (List UInt8)) (readsLeft : Option ℕ) : Ifstream :=
  match content with
  | none => { f with fail := true }
  | some unread => { isOpen := true, unread, eof := false, fail := false, readsLeft }

def close (f : Ifstream) : Ifstream := { f with isOpen := false }

/-- `read(n)` and `gcount`: nothing in a failed state or from a failed device,
else the next `min n unread` bytes; a short read sets both state bits. -/
def read (f : Ifstream) (n : ℕ) : List UInt8 × Ifstream :=
  if f.eof || f.fail || f.readsLeft == some 0 then ([], { f with fail := true })
  else
    let short := decide (f.unread.length < n)
    (f.unread.take n,
      { f with unread := f.unread.drop n, eof := short, fail := short,
               readsLeft := f.readsLeft.map (· - 1) })

end Ifstream

/-- One evaluation of `buf[index]` by `findStartCode(buf, len, …)`. -/
structure BufRead where
  index : ℕ
  len : ℕ
  deriving DecidableEq, Repr

structure FileReader where
  file : Ifstream := {}
  fileName : String
  buffer : List UInt8 := []
  deriving DecidableEq, Repr

namespace FileReader

section FindStartCode

variable (buf : ℕ → UInt8) (len : ℕ)

/-- `v == buf[index]`. -/
def equals (v : UInt8) (index : ℕ) : Traced BufRead Bool :=
  Traced.access ⟨index, len⟩ (v == buf index)

def findStartCode : Traced BufRead (Option ℕ) :=
  if len < 3 then pure none
  else do
    if ← ((equals buf len 0x00 0).and (equals buf len 0x00 1)).and (equals buf len 0x01 2) then
      pure (some 3)
    else if ← (((equals buf len 0x00 0).and (equals buf len 0x00 1)).and
        (equals buf len 0x00 2)).and (equals buf len 0x01 3) then
      pure (some 4)
    else pure none

/-- The inner loop of `readNalu` over the `left` positions from `idx` on. -/
def findNext : ℕ → ℕ → Traced BufRead (Option ℕ)
  | 0, _ => pure none
  | left + 1, idx => do
      match ← findStartCode (fun i ↦ buf (idx + i)) (len - idx) with
      | some _ => pure (some idx)
      | none => findNext left (idx + 1)

end FindStartCode

def openReader (r : FileReader) (content : Option (List UInt8)) (readsLeft : Option ℕ) :
    Bool × FileReader :=
  if r.file.isOpen then (true, r)
  else if r.fileName.isEmpty then (false, r)
  else
    let file := r.file.openFile content readsLeft
    if !file.isOpen then (false, { r with file }) else (true, { r with file })

def close (r : FileReader) : FileReader :=
  if !r.file.isOpen then r else { r with file := r.file.close }

def readFromFile (r : FileReader) : Bool × FileReader :=
  if !r.file.isOpen then (false, r)
  else
    let (bytes, file) := r.file.read 1024
    if 0 < bytes.length then (true, { r with file, buffer := r.buffer ++ bytes })
    else (false, { r with file })

/-- `m_buffer.erase(begin, begin + n)`; a range outside the vector has no
defined result. -/
def eraseFront (buffer : List UInt8) (n : ℤ) : Option (List UInt8) :=
  if 0 ≤ n ∧ n ≤ buffer.length then some (buffer.drop n.toNat) else none

/-- The loop of `readNalu`, for at most `passes` passes: the returned flag,
the reader and the changed argument. `mem` gives, for each pass, the memory
behind the last byte of `m_buffer`. -/
def readNaluLoop : (ℕ → ℕ → UInt8) → ℕ → FileReader → Nalu →
    Traced BufRead (Option (Bool × FileReader × Nalu))
  | _, 0, _, _ => pure none
  | mem, passes + 1, r, nalu => do
      let (ok, r) := r.readFromFile
      let isReachEnd := !ok
      let data := peek r.buffer (mem 0)
      let size := r.buffer.length
      match ← findStartCode data size with
      | none => pure (some (false, r, nalu))
      | some startCodeLen =>
          let nalu := nalu.setStartCodeLen startCodeLen
          match ← findNext data size (size - startCodeLen) startCodeLen with
          | some idx =>
              let nalu := nalu.setBuffer (r.buffer.take idx)
              -- `static_cast<int>(idx)`
              match eraseFront r.buffer (CInt.ofSizeT idx).toInt with
              | none => pure none
              | some buffer => pure (some (true, { r with buffer }, nalu))
          | none =>
              if isReachEnd then
                pure (some (true, { r with buffer := [] }, nalu.setBuffer r.buffer))
              else readNaluLoop (fun i ↦ mem (i + 1)) passes r nalu

/-- Every pass but the last one takes a byte at least from the file, so that
the passes granted here are never used up. -/
def readNalu (mem : ℕ → ℕ → UInt8) (r : FileReader) (nalu : Nalu) :
    Traced BufRead (Option (Bool × FileReader × Nalu)) :=
  readNaluLoop mem (r.file.unread.length + 1) r nalu

end FileReader

end H264SendReceiver
