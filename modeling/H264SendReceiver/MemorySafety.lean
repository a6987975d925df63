import H264SendReceiver.OverRead
import H264SendReceiver.Transcript

/-!
# What a whole run reads

Three functions of a run index their memory: the search for start codes, the
dump of a NALU and the removal of emulation prevention. A file whose chunks do
not end in three zero bytes is searched inside its buffer, whatever was cut
off before.
-/

namespace H264SendReceiver.FileReader

/-- No buffer that a pass fills ends in three zero bytes. -/
def Clean (r : FileReader) : Prop := ∀ k, ¬ [0, 0, 0] <:+ r.data (k + 1)

theorem Clean.inRange {r : FileReader} (h : r.Clean) : r.InRange := by
  intro k hover
  obtain ⟨-, hzeros⟩ := drop_zeros_of_overreads hover
  exact h k (hzeros ▸ List.drop_suffix _ _)

theorem Clean.truthful {r : FileReader} (h : r.Clean) (mem : ℕ → ℕ → UInt8) : Truthful mem r :=
  fun k _ hover ↦ absurd hover (h.inRange k)

theorem Clean.later {r r' : FileReader} {p n : ℕ} (h : r.Clean) (hadv : r.Advances p n r') :
    r'.Clean := by
  intro k hzeros
  rw [hadv.data_eq] at hzeros
  exact h (p + k) (hzeros.trans (List.drop_suffix _ _))

theorem clean_opened (fileName : String) {D : List UInt8}
    (h : ∀ k, ¬ [0, 0, 0] <:+ D.take (1024 * (k + 1))) : (opened fileName D none).Clean := by
  intro k
  have hdata : (opened fileName D none).data (k + 1) = D.take (1024 * (k + 1)) := by
    simp [data, opened, Ifstream.avail]
  rw [hdata]
  exact h k

/-- Of what `FuncTestRbsp` does with a NALU, only the removal of emulation
prevention can leave the buffer, and does so on an EBSP without two body
bytes. -/
theorem within_rbspBody_iff (behind : ℕ → UInt8) {n : Nalu}
    (hcode : n.startCodeLen = 3 ∨ n.startCodeLen = 4) :
    (rbspBody behind n).Within (fun e ↦ e.index < e.len) ↔
      ¬ (n.startCodeLen < n.buffer.length ∧ n.buffer.length < n.startCodeLen + 3) := by
  rw [rbspBody, Traced.Within.bind_iff, and_iff_right n.within_dumpString]
  cases hvalid : n.isValid with
  | false =>
      have hshort : ¬ n.startCodeLen < n.buffer.length := fun hlen ↦ by
        simpa [hvalid] using n.isValid_iff.mpr ⟨by omega, hlen⟩
      rw [Nalu.val_dumpString_of_not_valid hvalid]
      simp only [Nalu.getEbsp_of_not_valid hvalid, Bool.not_false, if_true]
      exact iff_of_true (.pure _) fun h ↦ hshort h.1
  | true =>
      have hlen := (n.isValid_iff.mp hvalid).2
      rw [Nalu.val_dumpString hvalid, if_pos (by omega)]
      simp only [Nalu.getEbsp_of_valid hvalid, Bool.not_true, Bool.false_eq_true, if_false]
      rw [Traced.Within.bind_iff, Traced.Within.relabel_iff,
        Ebsp.within_getRbsp_iff behind (Nalu.isValid_ebsp hvalid), Nalu.length_ebsp]
      constructor
      · rintro ⟨hthree, -⟩ ⟨-, hshort⟩
        omega
      · intro hlong
        refine ⟨by omega, ?_⟩
        split <;> exact .pure _

theorem within_funcTest_iff {body : (ℕ → UInt8) → Nalu → Traced BufRead (Option (List Char))}
    {P : BufRead → Prop} {fileName : String} (hname : fileName ≠ "") (D : List UInt8)
    (mem : ℕ → ℕ → ℕ → UInt8) (behind : ℕ → ℕ → UInt8) :
    (funcTest body mem behind fileName (some D)).Within P ↔
      (naluLoop body mem behind (D.length + 1) (opened fileName D none) {}).Within P := by
  have hremaining : (opened fileName D none).remaining = D := rfl
  rw [funcTest, openReader_new hname]
  simp only [Bool.not_true, Bool.false_eq_true, if_false, hremaining]
  rw [Traced.Within.bind_iff]
  apply and_iff_left
  split <;> exact .pure _

/-- On a file none of whose chunks ends the data in three zero bytes the whole
run stays in its buffers exactly when no NALU has an EBSP of one or two
bytes. -/
theorem within_funcTestRbsp_iff {fileName : String} (hname : fileName ≠ "") {D : List UInt8}
    (hsize : D.length < 2 ^ 31) (hclean : ∀ k, ¬ [0, 0, 0] <:+ D.take (1024 * (k + 1)))
    (mem : ℕ → ℕ → ℕ → UInt8) (behind : ℕ → ℕ → UInt8) :
    (funcTestRbsp mem behind fileName (some D)).Within (fun e ↦ e.index < e.len) ↔
      ∀ u ∈ annexB.split D, ¬ (u.1 < u.2.length ∧ u.2.length < u.1 + 3) := by
  have hopened := clean_opened fileName hclean
  have havail := available_opened fileName D
  have hlater (_ : ℕ → ℕ → ℕ → UInt8) (r : FileReader) (p n : ℕ) (r' : FileReader)
      (h : r.Clean) (hadv : r.Advances p n r') : r'.Clean := h.later hadv
  -- the calls of `readNalu` give the units and stay in range
  have hcalls := annexB.length_split_le D
  obtain ⟨r', hread⟩ := readLoop_split hlater (fun mem _ h ↦ h.truthful (mem 0)) (D.length + 1) mem
    (opened fileName D none) {} (by rw [havail]; omega)
    (unitsFit_of_length (by rwa [havail])) hopened
  have hreads : (readLoop mem (D.length + 1) (opened fileName D none) {}).Within
      fun e ↦ e.index < e.len :=
    within_readLoop hlater (fun mem r nalu h ↦ (log_readNalu (mem 0) r nalu).mpr h.inRange)
      (D.length + 1) mem (opened fileName D none) {} (by rwa [havail]) hopened
  rw [havail] at hread
  have hhanded : ∀ n ∈ (annexB.split D).map toNalu, Handed n := by
    intro n hn
    obtain ⟨u, hu, rfl⟩ := List.mem_map.mp hn
    exact ⟨startCode_eq_some (annexB.mark_of_mem_split hu),
      (annexB.length_le_of_mem_split hu).trans_lt hsize⟩
  have hsome : ∀ (i : ℕ) (n : Nalu), ((annexB.split D).map toNalu)[i]? = some n →
      (rbspBody (behind i) n).val.isSome := by
    intro i n hn
    rw [val_rbspBody (hhanded n (List.mem_of_getElem? hn))]
    rfl
  have hbody (i : ℕ) {n : Nalu} (hn : n ∈ (annexB.split D).map toNalu) :=
    within_rbspBody_iff (behind i) (hhanded n hn).startCodeLen
  rw [funcTestRbsp, within_funcTest_iff hname,
    within_naluLoop_iff _ mem behind _ _ hread hsome, and_iff_right hreads]
  constructor
  · intro h u hu
    have hmem := List.mem_map_of_mem (f := toNalu) hu
    obtain ⟨i, hi⟩ := List.mem_iff_getElem?.mp hmem
    exact (hbody i hmem).mp (h i _ hi)
  · intro h i n hn
    have hmem := List.mem_of_getElem? hn
    obtain ⟨u, hu, rfl⟩ := List.mem_map.mp hmem
    exact (hbody i hmem).mpr (h u hu)

/-- An EBSP of one byte: the run copies two bytes from behind it. -/
theorem within_funcTestRbsp_iff_short :
    (funcTestRbsp (fun _ _ _ ↦ 0x01) (fun _ _ ↦ 0xff) "a" (some [0, 0, 1, 0x65])).Within
        (fun e ↦ e.index < e.len) ↔
      ∀ u ∈ annexB.split [0, 0, 1, 0x65], ¬ (u.1 < u.2.length ∧ u.2.length < u.1 + 3) :=
  within_funcTestRbsp_iff (by decide) (by decide)
    (fun k ↦ by
      rw [List.take_of_length_le (by simp only [List.length_cons, List.length_nil]; omega)]
      decide) _ _

end H264SendReceiver.FileReader
