import H264SendReceiver.AnnexB.AnyMemory
import H264SendReceiver.AnnexB.Sessions

/-!
# No byte is lost or invented

Over a run of opening, reading and closing in any order, and whatever the
memory behind the buffer holds, what was handed out and what is still
buffered are the bytes read in the sessions, one session after the other.
-/

namespace H264SendReceiver.FileReader

/-- What a run has handed out, read from the rest of the file that was open at
its beginning and from the file of each later session. -/
structure Conserves (content : List UInt8) (sessions : ℕ) (r : FileReader) (nalus : List Nalu)
    (r' : FileReader) : Prop where
  bytes : ∃ (first : List UInt8) (later : List (List UInt8)),
    first <+: r.file.unread ∧ later.length ≤ sessions ∧
    (∀ p ∈ later, p <+: content) ∧
    (nalus.map Nalu.buffer).flatten ++ r'.buffer = r.buffer ++ (first ++ later.flatten)
  codes : ∀ nalu ∈ nalus, CodeAtFront nalu

namespace Conserves

variable {content : List UInt8} {sessions : ℕ} {r r₁ r' : FileReader} {nalus : List Nalu}

theorem refl (r : FileReader) : Conserves content 0 r [] r where
  bytes := ⟨[], [], List.nil_prefix, le_rfl, by simp, by simp⟩
  codes := by simp

end Conserves

end H264SendReceiver.FileReader
