import H264SendReceiver.AnnexB.OneCall

/-!
# Calls over any memory

What lies behind the buffer may mislead a call of `readNalu` about where a
unit ends. It cannot make the call lose, repeat or invent a byte, nor keep it
from ending: whatever was found, a prefix of the buffered bytes goes out and
the rest stays, and every pass but the last one took a chunk from the file.
-/

namespace H264SendReceiver

open Memory

namespace FileReader

theorem length_data_le (r : FileReader) (p : ℕ) : (r.data p).length ≤ r.available.length := by
  rw [← r.data_append p, List.length_append]
  exact Nat.le_add_right _ _

/-! ## The comparisons of one pass -/

theorem length_log_equals (buf : ℕ → UInt8) (len : ℕ) (v : UInt8) (index : ℕ) :
    (equals buf len v index).log.length = 1 := rfl

theorem length_log_findStartCode_le (buf : ℕ → UInt8) (len : ℕ) :
    (findStartCode buf len).log.length ≤ if len < 3 then 0 else 7 := by
  unfold findStartCode
  split
  · exact le_rfl
  · have hthree := Traced.length_log_and_le
      ((equals buf len 0x00 0).and (equals buf len 0x00 1)) (equals buf len 0x01 2)
    have htwo := Traced.length_log_and_le (equals buf len 0x00 0) (equals buf len 0x00 1)
    have hfour := Traced.length_log_and_le
      (((equals buf len 0x00 0).and (equals buf len 0x00 1)).and (equals buf len 0x00 2))
      (equals buf len 0x01 3)
    have hzeros := Traced.length_log_and_le
      ((equals buf len 0x00 0).and (equals buf len 0x00 1)) (equals buf len 0x00 2)
    simp only [length_log_equals] at hthree htwo hfour hzeros
    rw [Traced.log_bind, List.length_append, Traced.log_ite]
    split
    · simp only [Traced.log_pure, List.length_nil]
      omega
    · rw [Traced.log_bind, List.length_append, Traced.log_ite]
      simp only [Traced.log_pure, ite_self, List.length_nil]
      omega

theorem length_log_findNext_le (buf : ℕ → UInt8) (len left : ℕ) :
    ∀ idx, (findNext buf len left idx).log.length ≤ 7 * left := by
  induction left with
  | zero => intro idx; exact le_rfl
  | succ left ih =>
      intro idx
      have hcode := length_log_findStartCode_le (fun i ↦ buf (idx + i)) (len - idx)
      have hseven : (if len - idx < 3 then 0 else 7) ≤ 7 := by split <;> omega
      have hrest := ih (idx + 1)
      rw [findNext, Traced.log_bind, List.length_append]
      split
      · simp only [Traced.log_pure, List.length_nil]
        omega
      · omega

theorem findNext_eq_some {buf : ℕ → UInt8} {len left j : ℕ} :
    ∀ {idx}, (findNext buf len left idx).val = some j → idx ≤ j ∧ j < idx + left := by
  induction left with
  | zero => intro idx h; simp [findNext] at h
  | succ left ih =>
      intro idx h
      rw [findNext, Traced.val_bind] at h
      split at h
      · obtain rfl : idx = j := by simpa using h
        omega
      · have hrest := ih h
        omega

/-! ## What a call takes -/

/-- What a call does with the available bytes `l`, of which it takes `n`. `b`
is the buffer that its argument had before. -/
inductive Reads (l b : List UInt8) : Bool → Nalu → ℕ → Prop where
  | refused {nalu : Nalu} (hbuffer : nalu.buffer = b) (h : startCode l = none) :
      Reads l b false nalu 0
  /-- The three bytes of a start code whose last one is a foreign byte. -/
  | zeros (h : l = [0, 0, 0]) : Reads l b true ⟨4, [0, 0, 0]⟩ 3
  | unit {s : ℕ} (hs : startCode l = some s) :
      Reads l b true ⟨s, l.take (annexB.cut l s)⟩ (annexB.cut l s)
  /-- A unit that ends too early. -/
  | short {s n : ℕ} (hs : startCode l = some s) (hn : s ≤ n) (hlt : n < annexB.cut l s)
      (hzeros : [0, 0, 0] <+: l.drop n) : Reads l b true ⟨s, l.take n⟩ n

/-- A code found at the front is one of the available bytes, or their three
zero bytes are all of them. -/
theorem front_eq_some {mem : ℕ → ℕ → UInt8} {r : FileReader} {s : ℕ}
    (hs : (front mem r).val = some s) :
    (r.available = [0, 0, 0] ∧ r.data 1 = [0, 0, 0] ∧ s = 4) ∨ startCode (r.data 1) = some s := by
  rw [front, val_findStartCode] at hs
  split at hs
  · rename_i hover
    refine Or.inl ⟨?_, hover.1, (Option.some.inj hs).symm⟩
    rw [← hover.1]
    apply (data_eq_available _).symm
    by_contra hmore
    have hlen := four_le_length_data (k := 0) hmore
    simp [hover.1] at hlen
  · exact Or.inr hs

theorem startCode_drop_data (r : FileReader) {k i : ℕ} (hi : i + 4 ≤ (r.data k).length) :
    startCode (r.available.drop i) = startCode ((r.data k).drop i) := by
  rw [← r.data_append k, List.drop_append_of_le_length (by omega)]
  apply startCode_of_four_le
  rw [List.length_drop]
  omega

/-- A cut on the data is the cut of the available bytes or lies in front of
it, at three zero bytes. -/
theorem reads_of_search {mem : ℕ → ℕ → UInt8} {r : FileReader} {s j : ℕ} (b : List UInt8)
    (hs : startCode (r.data 1) = some s) (hj : (search mem r s).val = some j) :
    Reads r.available b true ⟨s, r.available.take j⟩ j ∧ j ≤ (r.data 1).length := by
  have hfront : startCode r.available = some s := (startCode_data r 0).symm.trans hs
  have hle : s ≤ (r.data 1).length := annexB.le_length hs
  rw [search, val_findNext _ _ _ _ (by omega)] at hj
  cases hnext : annexB.next (r.data 1) s with
  | some i =>
      rw [hnext, Option.some_or] at hj
      obtain rfl := Option.some.inj hj
      have hcut := annexB.cut_of_next (next_available_of_data hnext)
      refine ⟨?_, (annexB.lt_length_of_next hnext).le⟩
      rw [← hcut]
      exact .unit hfront
  | none =>
      rw [hnext, Option.none_or] at hj
      split at hj
      · rename_i hz
        obtain ⟨hlen, hzeros⟩ := hz.1
        obtain rfl := Option.some.inj hj
        refine ⟨?_, by omega⟩
        have hlater : (r.data 1).length ≤ r.available.length := r.length_data_le 1
        -- in front of the zero bytes the data are all there is to look at
        have hcut : (r.data 1).length - 3 ≤ annexB.cut r.available s := by
          cases hA : annexB.next r.available s with
          | none =>
              rw [annexB.cut_of_next_none hA]
              omega
          | some i =>
              rw [annexB.cut_of_next hA]
              obtain ⟨hi, hcode, -⟩ := annexB.next_eq_some_iff.mp hA
              by_contra hlt
              have hnone : startCode ((r.data 1).drop i) = none :=
                annexB.next_eq_none_iff.mp hnext i hi
              rw [← startCode_drop_data r (by omega)] at hnone
              change (startCode (r.available.drop i)).isSome = true at hcode
              simp [hnone] at hcode
        rcases hcut.eq_or_lt with heq | hlt
        · rw [heq]
          exact .unit hfront
        · refine .short hfront (by omega) hlt ?_
          rw [← r.data_append 1, List.drop_append_of_le_length (by omega), hzeros]
          exact List.prefix_append _ _
      · simp at hj

theorem length_log_pass_le {mem : ℕ → ℕ → UInt8} {r : FileReader} {s : ℕ}
    (hs : (front mem r).val = some s) :
    ((front mem r).log ++ (search mem r s).log).length ≤ 7 * r.available.length := by
  have hsize := r.length_data_le 1
  have hfront : (front mem r).log.length ≤ _ :=
    length_log_findStartCode_le (peek (r.data 1) (mem 0)) (r.data 1).length
  have hsearch : (search mem r s).log.length ≤ _ :=
    length_log_findNext_le (peek (r.data 1) (mem 0)) (r.data 1).length ((r.data 1).length - s) s
  rw [List.length_append]
  rcases front_eq_some hs with ⟨-, hzeros, rfl⟩ | hcode
  · rw [hzeros] at hsize hfront hsearch
    simp only [List.length_cons, List.length_nil] at hsize hfront hsearch
    split at hfront <;> omega
  · have hle : s ≤ (r.data 1).length := annexB.le_length hcode
    rcases startCode_eq_some hcode with rfl | rfl <;> split at hfront <;> omega

theorem readNaluLoop_reads (passes : ℕ) :
    ∀ (mem : ℕ → ℕ → UInt8) (r : FileReader) (nalu : Nalu),
      r.file.avail.length < passes → r.available.length < 2 ^ 31 →
      ∃ found r' nalu' p n,
        (readNaluLoop mem passes r nalu).val = some (found, r', nalu') ∧
        r.Advances p n r' ∧ Reads r.available nalu.buffer found nalu' n ∧
        (readNaluLoop mem passes r nalu).log.length ≤ 7 * (p * r.available.length) := by
  induction passes with
  | zero =>
      intro mem r nalu hpasses
      omega
  | succ passes ih =>
      intro mem r nalu hpasses hfits
      have hsize := r.length_data_le 1
      cases readNaluLoop_pass mem passes r nalu with
      | refused hs h =>
          have hfront : (front mem r).log.length ≤ _ :=
            length_log_findStartCode_le (peek (r.data 1) (mem 0)) (r.data 1).length
          have hnone : startCode r.available = none := by
            rw [front, val_findStartCode] at hs
            split at hs
            · simp at hs
            · rwa [← startCode_data r 0]
          rw [h]
          refine ⟨false, r.refilled, nalu, 1, 0, rfl, .one r (Nat.zero_le _),
            .refused rfl hnone, ?_⟩
          dsimp only
          split at hfront <;> omega
      | cut hs hj h =>
          have hlog := length_log_pass_le hs
          rcases front_eq_some hs with ⟨-, hzeros, rfl⟩ | hcode
          · simp [search, hzeros, findNext] at hj
          · obtain ⟨hreads, hin⟩ := reads_of_search nalu.buffer hcode hj
            rw [← r.data_append 1, List.take_append_of_le_length hin, r.data_append 1] at hreads
            rw [h, eraseFront_of_fits hin (by omega)]
            refine ⟨true, _, _, 1, _, rfl, .one r hin, hreads, ?_⟩
            rwa [Nat.one_mul]
      | last hs hj havail h =>
          have hlog := length_log_pass_le hs
          have hall : r.data 1 = r.available := data_eq_available (by simp [havail])
          have hdrop := Advances.one r le_rfl
          rw [List.drop_length] at hdrop
          rw [h]
          refine ⟨true, _, _, 1, _, rfl, hdrop, ?_, by rwa [Nat.one_mul]⟩
          rcases front_eq_some hs with ⟨havailable, hzeros, rfl⟩ | hcode
          · rw [hzeros]
            exact .zeros havailable
          · have hnone := search_none (annexB.le_length hcode) hj
            rw [hall] at hcode hnone ⊢
            have hunit := Reads.unit (b := nalu.buffer) hcode
            rw [annexB.cut_of_next_none hnone, List.take_length] at hunit
            exact hunit
      | @again s hs hj havail h =>
          have hlog := length_log_pass_le hs
          have hstep := ih (fun i ↦ mem (i + 1)) r.refilled (nalu.setStartCodeLen s)
            (length_avail_refilled_lt havail hpasses)
          rw [available_refilled] at hstep
          obtain ⟨found, r', nalu', p, n, hval, hadv, hreads, hrest⟩ := hstep hfits
          rw [h]
          refine ⟨found, r', nalu', p + 1, n, hval, hadv.refilled havail, hreads, ?_⟩
          rw [List.length_append, Nat.add_mul, Nat.one_mul]
          omega

/-- A call ends, whatever lies behind the buffer, and makes at most seven
comparisons for each byte buffered in a pass. -/
theorem readNalu_reads (mem : ℕ → ℕ → UInt8) {r : FileReader} (nalu : Nalu)
    (hfits : r.available.length < 2 ^ 31) :
    ∃ found r' nalu' p n, (readNalu mem r nalu).val = some (found, r', nalu') ∧
      r.Advances p n r' ∧ Reads r.available nalu.buffer found nalu' n ∧
      (readNalu mem r nalu).log.length ≤ 7 * (p * r.available.length) := by
  have hle := r.file.avail_prefix_unread.length_le
  exact readNaluLoop_reads _ mem r nalu (by omega) hfits

/-! ## What a call leaves behind -/

/-- A NALU begins with the start code whose length it records, or is the three
zero bytes of one whose last byte lies behind the buffer. -/
def CodeAtFront (n : Nalu) : Prop :=
  startCode n.buffer = some n.startCodeLen ∨ n.startCodeLen = 4 ∧ n.buffer = [0, 0, 0]

theorem CodeAtFront.startCodeLen {n : Nalu} (h : CodeAtFront n) :
    n.startCodeLen = 3 ∨ n.startCodeLen = 4 :=
  h.elim startCode_eq_some fun hzeros ↦ Or.inr hzeros.1

/-- A call after `p` passes: with `found` it has handed out the first `n`
buffered bytes, else it has handed out and cut off nothing. -/
structure Outcome (r : FileReader) (nalu : Nalu) (p n : ℕ) (found : Bool) (r' : FileReader)
    (nalu' : Nalu) : Prop where
  advances : r.Advances p n r'
  of_found : found = true → 3 ≤ n ∧ nalu'.buffer = (r.data p).take n ∧ CodeAtFront nalu'
  of_refused : found = false → n = 0 ∧ nalu'.buffer = nalu.buffer

theorem codeAtFront_take {l : List UInt8} {s n : ℕ} (hs : startCode l = some s) (hn : s ≤ n) :
    CodeAtFront ⟨s, l.take n⟩ := by
  have hle : s ≤ (l.take n).length := by
    have hlen : s ≤ l.length := annexB.le_length hs
    rw [List.length_take]
    omega
  rw [← List.take_append_drop n l] at hs
  exact Or.inl (annexB.mark_of_append hs hle)

theorem Reads.of_found {l b : List UInt8} {nalu : Nalu} {n : ℕ} (h : Reads l b true nalu n) :
    3 ≤ n ∧ nalu.buffer = l.take n ∧ CodeAtFront nalu := by
  have hthree {s : ℕ} (hs : startCode l = some s) : 3 ≤ s := by
    rcases startCode_eq_some hs with rfl | rfl <;> omega
  cases h with
  | zeros h =>
      rw [h]
      exact ⟨le_rfl, rfl, Or.inr ⟨rfl, rfl⟩⟩
  | unit hs =>
      have hle := annexB.le_cut hs
      exact ⟨(hthree hs).trans hle, rfl, codeAtFront_take hs hle⟩
  | short hs hn _ _ => exact ⟨(hthree hs).trans hn, rfl, codeAtFront_take hs hn⟩

theorem Reads.outcome {r r' : FileReader} {nalu nalu' : Nalu} {found : Bool} {p n : ℕ}
    (h : Reads r.available nalu.buffer found nalu' n) (hadv : r.Advances p n r') :
    r.Outcome nalu p n found r' nalu' where
  advances := hadv
  of_found hfound := by
    subst hfound
    have htake : (r.data p).take n = r.available.take n := by
      rw [← r.data_append p, List.take_append_of_le_length hadv.le_length]
    rw [htake]
    exact h.of_found
  of_refused hfound := by
    subst hfound
    cases h with
    | refused hbuffer _ => exact ⟨rfl, hbuffer⟩

theorem readNalu_outcome (mem : ℕ → ℕ → UInt8) {r : FileReader} (nalu : Nalu)
    (hfits : r.available.length < 2 ^ 31) :
    ∃ found r' nalu' p n, (readNalu mem r nalu).val = some (found, r', nalu') ∧
      r.Outcome nalu p n found r' nalu' ∧
      (readNalu mem r nalu).log.length ≤ 7 * (p * r.available.length) := by
  obtain ⟨found, r', nalu', p, n, hval, hadv, hreads, hlog⟩ := readNalu_reads mem nalu hfits
  exact ⟨found, r', nalu', p, n, hval, hreads.outcome hadv, hlog⟩

end FileReader

end H264SendReceiver
