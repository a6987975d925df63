import H264SendReceiver.AnnexB.Runs

/-!
# Runs of operations on a file reader

Runs in which the file is opened and closed as well.
-/

namespace H264SendReceiver.FileReader

inductive Op where
  | openReader (found : Bool)
  | readNalu (call : NaluCall)
  | close

/-- One operation on a reader of a file of the given content: the NALU it
returns with `true`, if any, and the reader it leaves. -/
def Op.exec (content : List UInt8) : Op → FileReader → Option (Option Nalu × FileReader)
  | openReader found, r =>
      some (none, (r.openReader (if found then some content else none) none).2)
  | readNalu call, r =>
      match (r.readNalu call.mem call.nalu).val with
      | none => none
      | some (found, r, nalu) => some (if found then some nalu else none, r)
  | close, r => some (none, r.close)

/-- The NALUs returned with `true`, up to a call that has no defined result,
and the reader behind the last operation. -/
def run (content : List UInt8) : List Op → FileReader → List Nalu × Option FileReader
  | [], r => ([], some r)
  | op :: ops, r =>
      match op.exec content r with
      | none => ([], none)
      | some (nalu, r) => (nalu.toList ++ (run content ops r).1, (run content ops r).2)

def Op.call? : Op → Option NaluCall
  | readNalu call => some call
  | _ => none

def naluCalls (ops : List Op) : List NaluCall := ops.filterMap Op.call?

theorem readNaluLoop_keeps (passes : ℕ) :
    ∀ (mem : ℕ → ℕ → UInt8) (r : FileReader) (nalu : Nalu) {found : Bool} {r' : FileReader}
      {nalu' : Nalu}, (readNaluLoop mem passes r nalu).val = some (found, r', nalu') →
      r'.file.isOpen = r.file.isOpen ∧ r'.fileName = r.fileName := by
  induction passes with
  | zero =>
      intro mem r nalu found r' nalu' hval
      simp [readNaluLoop] at hval
  | succ passes ih =>
      intro mem r nalu found r' nalu' hval
      have hopen := r.file.isOpen_afterRead
      cases readNaluLoop_pass mem passes r nalu with
      | refused _ h | last _ _ _ h =>
          simp only [h, Option.some.injEq, Prod.mk.injEq] at hval
          obtain ⟨-, rfl, -⟩ := hval
          exact ⟨hopen, rfl⟩
      | cut _ _ h =>
          rw [h, Option.map_eq_some_iff] at hval
          obtain ⟨buffer, -, heq⟩ := hval
          obtain ⟨-, rfl, -⟩ := by simpa only [Prod.mk.injEq] using heq
          exact ⟨hopen, rfl⟩
      | again _ _ _ h =>
          rw [h] at hval
          obtain ⟨hkeep, hname⟩ := ih _ r.refilled _ hval
          exact ⟨hkeep.trans hopen, hname⟩

theorem readNalu_keeps {mem : ℕ → ℕ → UInt8} {r r' : FileReader} {nalu nalu' : Nalu}
    {found : Bool} (h : (readNalu mem r nalu).val = some (found, r', nalu')) :
    r'.file.isOpen = r.file.isOpen ∧ r'.fileName = r.fileName :=
  readNaluLoop_keeps _ mem r nalu h

theorem fileName_openReader (r : FileReader) (content : Option (List UInt8))
    (readsLeft : Option ℕ) : (r.openReader content readsLeft).2.fileName = r.fileName := by
  simp only [openReader]
  split_ifs <;> rfl

@[simp] theorem fileName_close (r : FileReader) : r.close.fileName = r.fileName := by
  unfold close
  split_ifs <;> rfl

theorem fileName_exec {content : List UInt8} {op : Op} {r r' : FileReader} {nalu : Option Nalu}
    (h : op.exec content r = some (nalu, r')) : r'.fileName = r.fileName := by
  cases op with
  | openReader found =>
      simp only [Op.exec, Option.some.injEq, Prod.mk.injEq] at h
      rw [← h.2]
      exact r.fileName_openReader _ _
  | readNalu call =>
      simp only [Op.exec] at h
      split at h
      · simp at h
      · rename_i found r'' nalu' hval
        simp only [Option.some.injEq, Prod.mk.injEq] at h
        rw [← h.2]
        exact (readNalu_keeps hval).2
  | close =>
      simp only [Op.exec, Option.some.injEq, Prod.mk.injEq] at h
      rw [← h.2, fileName_close]

theorem fileName_run {content : List UInt8} (ops : List Op) :
    ∀ {r r' : FileReader}, (run content ops r).2 = some r' → r'.fileName = r.fileName := by
  induction ops with
  | nil =>
      intro r r' h
      rw [← Option.some.inj h]
  | cons op ops ih =>
      intro r r' h
      rw [run] at h
      split at h
      · simp at h
      · rename_i nalu r'' hexec
        exact (ih h).trans (fileName_exec hexec)

/-! ## Runs that are not misled -/

/-- Every call of `readNalu` in the run is made under `P`. -/
def Along (P : NaluCall → FileReader → Prop) (content : List UInt8) :
    List Op → FileReader → Prop
  | [], _ => True
  | op :: ops, r => (∀ call, op = Op.readNalu call → P call r) ∧
      match op.exec content r with
      | none => True
      | some (_, r) => Along P content ops r

/-- The byte behind the buffer does not mislead the call, and the position at
which it cuts is an `int`. -/
def Regular (call : NaluCall) (r : FileReader) : Prop :=
  Truthful call.mem r ∧ CutFits r.available

theorem remaining_close (r : FileReader) : r.close.remaining = r.remaining := by
  simp only [close]
  split_ifs <;> rfl

theorem along_regular {content : List UInt8} (ops : List Op)
    (hops : ∀ found, Op.openReader found ∉ ops)
    (hmem : ∀ call, Op.readNalu call ∈ ops → ∀ i, call.mem i 0 ≠ 0x01) :
    ∀ r : FileReader, r.remaining.length < 2 ^ 31 → Along Regular content ops r := by
  induction ops with
  | nil =>
      intro r _
      trivial
  | cons op ops ih =>
      intro r hlen
      have hrest := ih (fun found h ↦ hops found (List.mem_cons_of_mem _ h))
        (fun call h ↦ hmem call (List.mem_cons_of_mem _ h))
      cases op with
      | openReader found => exact absurd (List.mem_cons_self ..) (hops found)
      | close =>
          refine ⟨fun call h ↦ by simp at h, ?_⟩
          exact hrest r.close (by rwa [remaining_close])
      | readNalu call =>
          have htrue := truthful_of_mismatch (hmem call (List.mem_cons_self ..)) r
          have hfits : CutFits r.available :=
            cutFits_of_length (r.available_prefix_remaining.length_le.trans_lt hlen)
          have hlater {r' : FileReader} {p n : ℕ} (hadv : r.Advances p n r') :
              Along Regular content ops r' := by
            apply hrest r'
            rw [hadv.remaining_drop, List.length_drop]
            omega
          refine ⟨fun call' h ↦ ?_, ?_⟩
          · obtain rfl := Op.readNalu.inj h
            exact ⟨htrue, hfits⟩
          · cases hs : startCode r.available with
            | none =>
                obtain ⟨r', hval, hadv⟩ := readNalu_of_none htrue hs call.nalu
                simpa [Op.exec, hval] using hlater hadv
            | some s =>
                obtain ⟨r', p, hval, hadv⟩ := readNalu_of_some htrue hfits hs call.nalu
                simpa [Op.exec, hval] using hlater hadv

/-- While the file is open, the calls of a regular run hand out the first units
of the available bytes, and opening it again changes nothing. -/
theorem run_eq_split {content : List UInt8} (ops : List Op) (hclose : Op.close ∉ ops) :
    ∀ r : FileReader, r.file.isOpen = true → Along Regular content ops r →
      (run content ops r).1 =
        ((annexB.split r.available).take (naluCalls ops).length).map toNalu := by
  induction ops with
  | nil =>
      intro r _ _
      rfl
  | cons op ops ih =>
      intro r hopen hregular
      rw [List.mem_cons, not_or] at hclose
      cases op with
      | openReader found =>
          have hkeep : r.openReader (if found then some content else none) none = (true, r) :=
            if_pos hopen
          have hlater := hregular.2
          rw [Op.exec, hkeep] at hlater
          rw [run, Op.exec, hkeep]
          exact ih hclose.2 r hopen hlater
      | readNalu call =>
          obtain ⟨hcall, hlater⟩ := hregular
          obtain ⟨htrue, hfits⟩ := hcall call rfl
          have hlen : (naluCalls (Op.readNalu call :: ops)).length =
              (naluCalls ops).length + 1 := rfl
          cases hs : startCode r.available with
          | none =>
              obtain ⟨r', hval, hadv⟩ := readNalu_of_none htrue hs call.nalu
              have havail := hadv.available_eq
              rw [List.drop_zero] at havail
              simp only [Op.exec, hval] at hlater
              have hrest := ih hclose.2 r' (hadv.isOpen.trans hopen) hlater
              rw [havail, annexB.split_of_mark_none hs] at hrest
              rw [annexB.split_of_mark_none hs]
              simpa [run, Op.exec, hval] using hrest
          | some s =>
              obtain ⟨r', p, hval, hadv⟩ := readNalu_of_some htrue hfits hs call.nalu
              simp only [Op.exec, hval] at hlater
              have hrest := ih hclose.2 r' (hadv.isOpen.trans hopen) hlater
              rw [hadv.available_eq] at hrest
              rw [annexB.split_of_mark hs, hlen, List.take_succ_cons, List.map_cons, ← hrest]
              simp [run, Op.exec, hval, toNalu]
      | close => exact absurd rfl hclose.1

end H264SendReceiver.FileReader
