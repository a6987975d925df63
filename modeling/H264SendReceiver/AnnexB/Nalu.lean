import H264SendReceiver.AnnexB.Ebsp

/-!
# NALUs

`AnnexB::Nalu`: a start code length and a buffer that begins with the start
code. Its EBSP is the buffer behind the start code.
-/

namespace H264SendReceiver

structure Nalu where
  startCodeLen : ℕ := 0
  buffer : List UInt8 := []
  deriving DecidableEq, Repr

namespace Nalu

def setStartCodeLen (n : Nalu) (startCodeLen : ℕ) : Nalu := { n with startCodeLen }

def setBuffer (n : Nalu) (buffer : List UInt8) : Nalu := { n with buffer }

def clear (_ : Nalu) : Nalu := { startCodeLen := 0, buffer := [] }

def isValid (n : Nalu) : Bool :=
  if n.buffer.isEmpty || n.startCodeLen == 0 then false
  else if n.buffer.length ≤ n.startCodeLen then false
  else true

def getHead (n : Nalu) : UInt8 := if !n.isValid then 0 else n.buffer.getD n.startCodeLen 0

/-- Whether there is an EBSP, and the argument after the call. -/
def getEbsp (n : Nalu) (ebsp : Ebsp) : Bool × Ebsp :=
  if !n.isValid then (false, ebsp)
  else (true, ebsp.setBuffer (n.buffer.drop n.startCodeLen))

def getStartCodeLen (n : Nalu) : ℕ := n.startCodeLen

theorem isValid_iff (n : Nalu) :
    n.isValid = true ↔ 0 < n.startCodeLen ∧ n.startCodeLen < n.buffer.length := by
  rcases n with ⟨s, _ | ⟨b, bs⟩⟩
  · simp [isValid]
  · by_cases hs : s = 0
    · simp [isValid, hs]
    · simp [isValid, hs, Nat.pos_of_ne_zero hs]

theorem getEbsp_append {code payload : List UInt8} (hcode : code ≠ []) (hpayload : payload ≠ [])
    (ebsp : Ebsp) :
    getEbsp ⟨code.length, code ++ payload⟩ ebsp = (true, ⟨payload⟩) := by
  have hvalid : isValid ⟨code.length, code ++ payload⟩ = true := by
    rw [isValid_iff]
    have h₁ := List.length_pos_iff.mpr hcode
    have h₂ := List.length_pos_iff.mpr hpayload
    simp only [List.length_append]
    omega
  rw [getEbsp, hvalid, if_neg (by simp), List.drop_left]
  rfl

theorem getHead_append {code payload : List UInt8} (hcode : code ≠ []) (h : UInt8) :
    getHead ⟨code.length, code ++ h :: payload⟩ = h := by
  have hvalid : isValid ⟨code.length, code ++ h :: payload⟩ = true := by
    rw [isValid_iff]
    have h₁ := List.length_pos_iff.mpr hcode
    simp only [List.length_append, List.length_cons]
    omega
  rw [getHead, hvalid, if_neg (by simp)]
  simp [List.getD_eq_getElem?_getD]

/-- The EBSP of a valid NALU. -/
def ebsp (n : Nalu) : Ebsp := ⟨n.buffer.drop n.startCodeLen⟩

section Ebsp

variable {n : Nalu}

theorem getEbsp_of_valid (hvalid : n.isValid = true) (ebsp : Ebsp) :
    n.getEbsp ebsp = (true, n.ebsp) := by
  rw [getEbsp, if_neg (by simp [hvalid])]
  rfl

theorem getEbsp_of_not_valid (hvalid : n.isValid = false) (ebsp : Ebsp) :
    n.getEbsp ebsp = (false, ebsp) := by
  rw [getEbsp, if_pos (by simp [hvalid])]

theorem isValid_ebsp (hvalid : n.isValid = true) : n.ebsp.isValid = true := by
  have hlen := (n.isValid_iff.mp hvalid).2
  simpa [Ebsp.isValid, ebsp] using hlen

theorem length_ebsp (n : Nalu) : n.ebsp.buffer.length = n.buffer.length - n.startCodeLen := by
  rw [ebsp, List.length_drop]

end Ebsp

end Nalu

end H264SendReceiver
