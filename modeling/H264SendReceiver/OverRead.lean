import H264SendReceiver.AnnexB.Runs

/-!
# Reads behind the buffered data

`findStartCode` compares a fourth byte although it was only promised three.
A call stays inside its data exactly when no pass of it meets `00 00 00` at
the end of what is buffered without having found a start code; only then is
its result independent of the memory behind the buffer.
-/

namespace H264SendReceiver.FileReader

/-- No pass of a call on this reader looks behind its data. -/
def InRange (r : FileReader) : Prop := ∀ k, ¬ Overreads (r.data (k + 1))

theorem data_succ (r : FileReader) (k : ℕ) :
    r.data (k + 1) = r.data 1 ++ (r.file.avail.drop 1024).take (1024 * k) := by
  rw [← data_refilled, data, refilled, Ifstream.avail_afterRead]

theorem inRange_iff (r : FileReader) :
    r.InRange ↔ ¬ Overreads (r.data 1) ∧ r.refilled.InRange := by
  constructor
  · exact fun h ↦ ⟨h 0, fun k ↦ by rw [data_refilled]; exact h (k + 1)⟩
  · rintro ⟨hfirst, hrest⟩ (_ | k)
    · exact hfirst
    · have hk := hrest k
      rwa [data_refilled] at hk

theorem inRange_of_startCode_none {r : FileReader} (h : startCode (r.data 1) = none)
    (hzeros : r.data 1 ≠ [0, 0, 0]) : r.InRange := by
  rintro k (heq | ⟨s, hs, -⟩)
  · by_cases hend : r.file.avail.length ≤ 1024 * (0 + 1)
    · apply hzeros
      rw [← heq, data_eq_available hend, data_eq_available (hend.trans (by omega))]
    · have hlen : 4 ≤ (r.data 1).length := four_le_length_data hend
      rw [data_succ] at heq
      have hthree := congrArg List.length heq
      simp only [List.length_append, List.length_cons, List.length_nil] at hthree
      omega
  · rw [startCode_data, ← startCode_data r 0, h] at hs
    simp at hs

theorem inRange_of_next_some {r : FileReader} {s j : ℕ} (hs : startCode (r.data 1) = some s)
    (hj : annexB.next (r.data 1) s = some j) : r.InRange := by
  intro k hover
  have hcode : startCode (r.data (k + 1)) = some s := by
    rw [startCode_data, ← startCode_data r 0, hs]
  rcases hover with heq | ⟨s', hs', hnone, -⟩
  · rw [heq, startCode_zeros] at hcode
    simp at hcode
  · obtain rfl := Option.some.inj (hcode.symm.trans hs')
    rw [data_succ, annexB.next_append hj] at hnone
    simp at hnone

theorem inRange_of_avail_nil {r : FileReader} (h : r.file.avail = [])
    (hover : ¬ Overreads (r.data 1)) : r.InRange := by
  intro k
  rw [data_eq_available (by simp [h])] at hover ⊢
  exact hover

section Pass

variable (mem : ℕ → ℕ → UInt8) {r : FileReader} {s : ℕ}

theorem log_front : (∀ e ∈ (front mem r).log, e.index < e.len) ↔ r.data 1 ≠ [0, 0, 0] :=
  log_findStartCode (r.data 1) (mem 0)

theorem log_search (hs : s ≤ (r.data 1).length) :
    (∀ e ∈ (search mem r s).log, e.index < e.len) ↔
      ¬ (annexB.next (r.data 1) s = none ∧ ZeroTail (r.data 1) s) :=
  log_findNext (r.data 1) (mem 0) _ s (by omega)

/-- A pass that looks behind its data does so at the front or in the search
behind the start code found there. -/
theorem exists_log_of_overreads (hover : Overreads (r.data 1)) (passes : ℕ) (nalu : Nalu) :
    ∃ e ∈ (readNaluLoop mem (passes + 1) r nalu).log, ¬ e.index < e.len := by
  by_cases hzeros : r.data 1 = [0, 0, 0]
  · have hfront : ¬ ∀ e ∈ (front mem r).log, e.index < e.len :=
      fun hlog ↦ (log_front mem).mp hlog hzeros
    push Not at hfront
    obtain ⟨e, he, hbehind⟩ := hfront
    refine ⟨e, ?_, by omega⟩
    rw [readNaluLoop_succ, Traced.log_bind]
    exact List.mem_append_left _ he
  · obtain ⟨s, hs, hnone, htail⟩ := hover.resolve_left hzeros
    have hle : s ≤ (r.data 1).length := annexB.le_length hs
    have hfound : (front mem r).val = some s := by
      rw [front, val_findStartCode, if_neg fun h ↦ hzeros h.1, hs]
    have hsearch : ¬ ∀ e ∈ (search mem r s).log, e.index < e.len :=
      fun hlog ↦ (log_search mem hle).mp hlog ⟨hnone, htail⟩
    push Not at hsearch
    obtain ⟨e, he, hbehind⟩ := hsearch
    refine ⟨e, ?_, by omega⟩
    rw [readNaluLoop_succ, Traced.log_bind, hfound, Traced.log_bind]
    exact List.mem_append_right _ (List.mem_append_left _ he)

section InRange

variable (h : ¬ Overreads (r.data 1))
include h

theorem val_front_of_inRange : (front mem r).val = startCode (r.data 1) := by
  rw [front, val_findStartCode, if_neg fun hz ↦ h (Or.inl hz.1)]

theorem val_search_of_inRange (hs : startCode (r.data 1) = some s) :
    (search mem r s).val = annexB.next (r.data 1) s := by
  have hle : s ≤ (r.data 1).length := annexB.le_length hs
  rw [search, val_findNext _ _ _ _ (by omega)]
  cases hnext : annexB.next (r.data 1) s with
  | some j => rw [Option.some_or]
  | none =>
      rw [Option.none_or, if_neg fun hz ↦ h (Or.inr ⟨s, hs, hnext, hz.1⟩)]

end InRange

end Pass

theorem log_readNaluLoop (passes : ℕ) :
    ∀ (mem : ℕ → ℕ → UInt8) (r : FileReader) (nalu : Nalu), r.file.avail.length < passes →
      ((∀ e ∈ (readNaluLoop mem passes r nalu).log, e.index < e.len) ↔ r.InRange) := by
  induction passes with
  | zero =>
      intro mem r nalu hpasses
      omega
  | succ passes ih =>
      intro mem r nalu hpasses
      by_cases hover : Overreads (r.data 1)
      · obtain ⟨e, he, hbehind⟩ := exists_log_of_overreads mem hover passes nalu
        exact iff_of_false (fun h ↦ hbehind (h e he)) fun hin ↦ hin 0 hover
      have hzeros : r.data 1 ≠ [0, 0, 0] := fun h ↦ hover (Or.inl h)
      have hfront := val_front_of_inRange mem hover
      -- the searches of this pass stay inside
      have hpass {s : ℕ} (hfound : (front mem r).val = some s) :
          startCode (r.data 1) = some s ∧
            ∀ e ∈ (front mem r).log ++ (search mem r s).log, e.index < e.len := by
        have hs := hfront.symm.trans hfound
        refine ⟨hs, List.forall_mem_append.mpr ⟨(log_front mem).mpr hzeros, ?_⟩⟩
        exact (log_search mem (annexB.le_length hs)).mpr fun h ↦ hover (Or.inr ⟨s, hs, h.1, h.2⟩)
      cases readNaluLoop_pass mem passes r nalu with
      | refused hnone h =>
          rw [h]
          exact iff_of_true ((log_front mem).mpr hzeros)
            (inRange_of_startCode_none (hfront.symm.trans hnone) hzeros)
      | cut hfound hj h =>
          obtain ⟨hs, hlog⟩ := hpass hfound
          rw [val_search_of_inRange mem hover hs] at hj
          rw [h]
          exact iff_of_true hlog (inRange_of_next_some hs hj)
      | last hfound _ havail h =>
          rw [h]
          exact iff_of_true (hpass hfound).2 (inRange_of_avail_nil havail hover)
      | @again s hfound _ havail h =>
          have hrest := ih (fun i ↦ mem (i + 1)) r.refilled (nalu.setStartCodeLen s)
            (length_avail_refilled_lt havail hpasses)
          rw [h, List.forall_mem_append, and_iff_right (hpass hfound).2, hrest, inRange_iff r,
            and_iff_right hover]

theorem log_readNalu (mem : ℕ → ℕ → UInt8) (r : FileReader) (nalu : Nalu) :
    (∀ e ∈ (readNalu mem r nalu).log, e.index < e.len) ↔ r.InRange := by
  have hle := r.file.avail_prefix_unread.length_le
  exact log_readNaluLoop _ mem r nalu (by omega)

theorem val_readNaluLoop_congr (passes : ℕ) :
    ∀ (mem mem' : ℕ → ℕ → UInt8) (r : FileReader) (nalu : Nalu), r.InRange →
      (readNaluLoop mem passes r nalu).val = (readNaluLoop mem' passes r nalu).val := by
  induction passes with
  | zero =>
      intro mem mem' r nalu _
      rfl
  | succ passes ih =>
      intro mem mem' r nalu hin
      have hover : ¬ Overreads (r.data 1) := hin 0
      have hrest := ((inRange_iff r).mp hin).2
      rw [readNaluLoop_succ, readNaluLoop_succ, Traced.val_bind, Traced.val_bind,
        val_front_of_inRange mem hover, val_front_of_inRange mem' hover]
      cases hs : startCode (r.data 1) with
      | none => rfl
      | some s =>
          simp only [Traced.val_bind, val_search_of_inRange _ hover hs]
          cases hj : annexB.next (r.data 1) s with
          | some j => rfl
          | none =>
              simp only
              split
              · rfl
              · exact ih _ _ r.refilled (nalu.setStartCodeLen s) hrest

theorem val_readNalu_congr {r : FileReader} (h : r.InRange) (mem mem' : ℕ → ℕ → UInt8)
    (nalu : Nalu) : (readNalu mem r nalu).val = (readNalu mem' r nalu).val :=
  val_readNaluLoop_congr _ mem mem' r nalu h

def InRangeRun : List NaluCall → FileReader → Prop
  | [], _ => True
  | call :: calls, r => r.InRange ∧
      match (readNalu call.mem r call.nalu).val with
      | none => True
      | some (_, r, _) => InRangeRun calls r

theorem log_readNalus (calls : List NaluCall) :
    ∀ r, (∀ e ∈ (readNalus calls r).log, e.index < e.len) ↔ InRangeRun calls r := by
  induction calls with
  | nil =>
      intro r
      simp [readNalus, InRangeRun]
  | cons call calls ih =>
      intro r
      rw [readNalus, InRangeRun, Traced.log_bind, List.forall_mem_append, log_readNalu]
      refine and_congr_right fun _ ↦ ?_
      cases hval : (readNalu call.mem r call.nalu).val with
      | none => simp
      | some x => simpa using ih x.2.1

theorem val_readNalus_congr (calls : List NaluCall) :
    ∀ (calls' : List NaluCall) (r : FileReader),
      calls'.map NaluCall.nalu = calls.map NaluCall.nalu → InRangeRun calls r →
      (readNalus calls' r).val = (readNalus calls r).val := by
  induction calls with
  | nil =>
      intro calls' r hargs _
      rw [List.map_eq_nil_iff.mp hargs]
  | cons call calls ih =>
      intro calls' r hargs hrun
      cases calls' with
      | nil => simp at hargs
      | cons call' calls' =>
          rw [List.map_cons, List.map_cons, List.cons.injEq] at hargs
          rw [InRangeRun] at hrun
          have hcall := val_readNalu_congr hrun.1 call'.mem call.mem call.nalu
          rw [readNalus, readNalus, Traced.val_bind, Traced.val_bind, hargs.1, hcall]
          cases hval : (readNalu call.mem r call.nalu).val with
          | none => rfl
          | some x =>
              have hrest := hrun.2
              rw [hval] at hrest
              simp only [Traced.val_bind, Traced.val_pure, ih calls' x.2.1 hargs.2 hrest]

/-- A run on a file stays inside the buffered data exactly when every call of
it is made on a reader in range, and then its results are the same for all
contents of the memory. -/
theorem readNalus_inRange_iff (fileName : String) (D : List UInt8) (calls : List NaluCall) :
    ((∀ e ∈ (readNalus calls (openReader { fileName } (some D) none).2).log, e.index < e.len) ↔
      InRangeRun calls (openReader { fileName } (some D) none).2) ∧
    (InRangeRun calls (openReader { fileName } (some D) none).2 →
      ∀ calls' : List NaluCall, calls'.map NaluCall.nalu = calls.map NaluCall.nalu →
        (readNalus calls' (openReader { fileName } (some D) none).2).val =
          (readNalus calls (openReader { fileName } (some D) none).2).val) :=
  ⟨log_readNalus calls _, fun h calls' hargs ↦ val_readNalus_congr calls calls' _ hargs h⟩

/-- Two slices and three zero bytes. When the first one is cut off, the `01`
at its end comes to lie behind the buffer. -/
def staleFile : List UInt8 :=
  [0x00, 0x00, 0x01, 0x41, 0x9A, 0x02, 0x03, 0x01, 0x00, 0x00, 0x01, 0x42, 0x00, 0x00, 0x00]

/-- The second call with the bytes that the erase of the first one leaves. -/
def staleCalls : List NaluCall :=
  [⟨fun _ _ ↦ 0x00, {}⟩, ⟨fun _ i ↦ (staleFile.drop 7).getD i 0x00, {}⟩]

theorem readNalus_overreads :
    (¬ ∀ (fileName : String) (D : List UInt8) (calls : List NaluCall),
      ∀ e ∈ (readNalus calls (openReader { fileName } (some D) none).2).log, e.index < e.len) ∧
    ¬ ∀ (fileName : String) (D : List UInt8) (calls calls' : List NaluCall),
      calls'.map NaluCall.nalu = calls.map NaluCall.nalu →
      (readNalus calls' (openReader { fileName } (some D) none).2).val.1 =
        (readNalus calls (openReader { fileName } (some D) none).2).val.1 := by
  refine ⟨fun h ↦ ?_, fun h ↦ ?_⟩
  · have hlog := h "a" staleFile staleCalls
    revert hlog
    decide +kernel
  · have hval := h "a" staleFile staleCalls (List.replicate 2 ⟨fun _ _ ↦ 0x00, {}⟩) rfl
    revert hval
    decide +kernel

end H264SendReceiver.FileReader
