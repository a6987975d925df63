import H264SendReceiver.AnnexB.AnyMemory
import H264SendReceiver.AnnexB.Dump
import H264SendReceiver.AnnexB.Runs

/-!
# The program

`main.cpp` reads a file NALU by NALU and prints what it finds. The three test
functions that do so share their loop and differ in what they print for one
NALU. Modelled is the text on standard output; the lines on the error stream
are not.
-/

namespace H264SendReceiver

namespace FileReader

/-! ## Standard output of a reader -/

def logLine (message : String) (r : FileReader) : List Char :=
  message.toList ++ r.fileName.toList ++ ['\n']

def constructText (r : FileReader) : List Char := r.logLine "File reader construct. file: "

def openText (r : FileReader) (content : Option (List UInt8)) : List Char :=
  if r.file.isOpen then r.logLine "Open file warning. open already. file: "
  else if r.fileName.isEmpty then []
  else if !(r.file.openFile content none).isOpen then []
  else r.logLine "Open file success. file: "

def closeText (r : FileReader) : List Char :=
  if !r.file.isOpen then r.logLine "Close file warning. close already. file: "
  else r.logLine "Close file success. file: "

def destructText (r : FileReader) : List Char :=
  (if r.file.isOpen then r.closeText else []) ++ r.logLine "File reader destruct. file: "

/-! ## The test functions -/

section NaluLoop

variable {α : Type}

/-- The loop of the test functions, for at most `calls` calls of `readNalu`.
`body` is what they do with a NALU; it gets the memory behind the EBSP. -/
def naluLoop (body : (ℕ → UInt8) → Nalu → Traced BufRead (Option α)) :
    (ℕ → ℕ → ℕ → UInt8) → (ℕ → ℕ → UInt8) → ℕ → FileReader → Nalu →
      Traced BufRead (Option (List α × FileReader))
  | _, _, 0, _, _ => pure none
  | mem, behind, calls + 1, r, nalu => do
      match ← readNalu (mem 0) r nalu with
      | none => pure none
      | some (false, r, _) => pure (some ([], r))
      | some (true, r, nalu) => do
          match ← body (behind 0) nalu with
          | none => pure none
          | some a => do
              match ← naluLoop body (fun i ↦ mem (i + 1)) (fun i ↦ behind (i + 1)) calls r
                  nalu.clear with
              | none => pure none
              | some (rest, r) => pure (some (a :: rest, r))

end NaluLoop

/-- Standard output of a test function that prints `body` for a NALU. Every
call that finds one takes three bytes at least, so that the calls granted here
are never used up. -/
def funcTest (body : (ℕ → UInt8) → Nalu → Traced BufRead (Option (List Char)))
    (mem : ℕ → ℕ → ℕ → UInt8) (behind : ℕ → ℕ → UInt8) (fileName : String)
    (content : Option (List UInt8)) : Traced BufRead (Option (List Char)) :=
  let reader : FileReader := { fileName }
  let text := reader.constructText ++ reader.openText content
  let (ok, reader) := reader.openReader content none
  if !ok then pure (some (text ++ reader.destructText))
  else do
    match ← naluLoop body mem behind (reader.remaining.length + 1) reader {} with
    | none => pure none
    | some (texts, reader) =>
        pure (some (text ++ texts.flatten ++ reader.closeText ++ reader.close.destructText))

/-- What `FuncTestFileReader` prints for a NALU. -/
def fileReaderBody (_ : ℕ → UInt8) (nalu : Nalu) : Traced BufRead (Option (List Char)) := do
  match ← nalu.dumpString with
  | none => pure none
  | some text => pure (some (text ++ ['\n']))

/-- What `FuncTestEbsp` prints for a NALU. -/
def ebspBody (_ : ℕ → UInt8) (nalu : Nalu) : Traced BufRead (Option (List Char)) := do
  match ← nalu.dumpString with
  | none => pure none
  | some text =>
      let (ok, ebsp) := nalu.getEbsp {}
      pure (some (if ok then text ++ ebsp.dumpString ++ ['\n'] else text))

/-- What `FuncTestRbsp` prints for a NALU. -/
def rbspBody (behind : ℕ → UInt8) (nalu : Nalu) : Traced BufRead (Option (List Char)) := do
  match ← nalu.dumpString with
  | none => pure none
  | some text =>
      let (ok, ebsp) := nalu.getEbsp {}
      if !ok then pure (some text)
      else do
        let text := text ++ ebsp.dumpString
        match ← (ebsp.getRbsp behind {}).relabel fun idx ↦ ⟨idx, ebsp.buffer.length⟩ with
        | none => pure none
        | some (false, _) => pure (some text)
        | some (true, rbsp) => pure (some (text ++ rbsp.dumpString ++ ['\n']))

/-- The EBSP that `FuncTestEbsp` gets out of a NALU, if any. -/
def ebsp? (nalu : Nalu) : Option Ebsp :=
  let (ok, ebsp) := nalu.getEbsp {}
  if ok then some ebsp else none

/-- The EBSPs that the loop of `FuncTestEbsp` gets, and the reader it leaves. -/
def funcTestEbsp (mem : ℕ → ℕ → ℕ → UInt8) (fileName : String)
    (content : Option (List UInt8)) : Option (List Ebsp × FileReader) :=
  let (ok, reader) := openReader { fileName } content none
  if !ok then some ([], reader)
  else
    (naluLoop (fun _ nalu ↦ pure (some (ebsp? nalu))) mem (fun _ _ ↦ 0)
      (reader.remaining.length + 1) reader {}).val.map fun (ebsps, reader) ↦
        (ebsps.filterMap id, reader.close)

def funcTestFileReader := funcTest fileReaderBody

def funcTestEbspText := funcTest ebspBody

def funcTestRbsp := funcTest rbspBody

/-! ## What the loop does -/

section Body

variable {α : Type} {body : (ℕ → UInt8) → Nalu → Traced BufRead (Option α)}
  {mem : ℕ → ℕ → ℕ → UInt8} {behind : ℕ → ℕ → UInt8} {calls : ℕ} {r r' : FileReader}
  {nalu n : Nalu}

theorem naluLoop_refused (h : (readNalu (mem 0) r nalu).val = some (false, r', n)) :
    naluLoop body mem behind (calls + 1) r nalu =
      ⟨some ([], r'), (readNalu (mem 0) r nalu).log⟩ := by
  rw [naluLoop]
  change Traced.mk _ _ = _
  rw [h]
  exact congrArg (Traced.mk _) (List.append_nil _)

theorem naluLoop_found (h : (readNalu (mem 0) r nalu).val = some (true, r', n)) {a : α}
    (ha : (body (behind 0) n).val = some a) :
    naluLoop body mem behind (calls + 1) r nalu =
      let rest := naluLoop body (fun i ↦ mem (i + 1)) (fun i ↦ behind (i + 1)) calls r' n.clear
      ⟨rest.val.map fun x ↦ (a :: x.1, x.2),
        (readNalu (mem 0) r nalu).log ++ ((body (behind 0) n).log ++ rest.log)⟩ := by
  rw [naluLoop]
  change Traced.mk _ _ = _
  rw [h]
  simp only [Traced.val_bind, Traced.log_bind, ha]
  cases (naluLoop body (fun i ↦ mem (i + 1)) (fun i ↦ behind (i + 1)) calls r' n.clear).val with
  | none => simp
  | some x => simp

end Body

/-- The loop that only collects the NALUs. -/
def readLoop (mem : ℕ → ℕ → ℕ → UInt8) (calls : ℕ) (r : FileReader) (nalu : Nalu) :
    Traced BufRead (Option (List Nalu × FileReader)) :=
  naluLoop (fun _ nalu ↦ pure (some nalu)) mem (fun _ _ ↦ 0) calls r nalu

section ReadLoop

variable {mem : ℕ → ℕ → ℕ → UInt8} {calls : ℕ} {r r' : FileReader} {nalu n : Nalu}

theorem readLoop_refused (h : (readNalu (mem 0) r nalu).val = some (false, r', n)) :
    readLoop mem (calls + 1) r nalu = ⟨some ([], r'), (readNalu (mem 0) r nalu).log⟩ :=
  naluLoop_refused h

theorem readLoop_found (h : (readNalu (mem 0) r nalu).val = some (true, r', n)) :
    readLoop mem (calls + 1) r nalu =
      let rest := readLoop (fun i ↦ mem (i + 1)) calls r' n.clear
      ⟨rest.val.map fun x ↦ (n :: x.1, x.2), (readNalu (mem 0) r nalu).log ++ rest.log⟩ :=
  naluLoop_found h rfl

end ReadLoop

section Body

variable {α : Type} {body : (ℕ → UInt8) → Nalu → Traced BufRead (Option α)}

/-- What the loop returns is computed from the NALUs one by one. -/
theorem val_naluLoop (calls : ℕ) :
    ∀ (mem : ℕ → ℕ → ℕ → UInt8) (behind : ℕ → ℕ → UInt8) (r : FileReader) (nalu : Nalu)
      {nalus : List Nalu} {r' : FileReader} {as : List α},
      (readLoop mem calls r nalu).val = some (nalus, r') →
      (nalus.mapIdx fun i n ↦ (body (behind i) n).val) = as.map some →
      (naluLoop body mem behind calls r nalu).val = some (as, r') := by
  induction calls with
  | zero =>
      intro mem behind r nalu nalus r' as h _
      simp [readLoop, naluLoop] at h
  | succ calls ih =>
      intro mem behind r nalu nalus r' as h hbody
      rcases hval : (readNalu (mem 0) r nalu).val with _ | ⟨_ | _, r₁, n⟩
      · simp [readLoop, naluLoop, hval] at h
      · rw [readLoop_refused hval, Option.some.injEq, Prod.mk.injEq] at h
        obtain ⟨rfl, rfl⟩ := h
        obtain rfl : as = [] := by simpa using hbody
        rw [naluLoop_refused hval]
      · rw [readLoop_found hval, Option.map_eq_some_iff] at h
        obtain ⟨⟨rest, r₂⟩, hrest, heq⟩ := h
        obtain ⟨rfl, rfl⟩ := Prod.mk.inj heq
        cases as with
        | nil => simp at hbody
        | cons a as =>
            simp only [List.mapIdx_cons, List.map_cons, List.cons.injEq] at hbody
            have hstep := ih _ (fun i ↦ behind (i + 1)) _ _ hrest hbody.2
            rw [naluLoop_found hval hbody.1]
            simp only [hstep, Option.map_some]

/-- The accesses of the loop are those of the calls and those of the body. -/
theorem within_naluLoop_iff {P : BufRead → Prop} (calls : ℕ) :
    ∀ (mem : ℕ → ℕ → ℕ → UInt8) (behind : ℕ → ℕ → UInt8) (r : FileReader) (nalu : Nalu)
      {nalus : List Nalu} {r' : FileReader},
      (readLoop mem calls r nalu).val = some (nalus, r') →
      (∀ (i : ℕ) (n : Nalu), nalus[i]? = some n → (body (behind i) n).val.isSome) →
      ((naluLoop body mem behind calls r nalu).Within P ↔
        (readLoop mem calls r nalu).Within P ∧
          ∀ (i : ℕ) (n : Nalu), nalus[i]? = some n → (body (behind i) n).Within P) := by
  induction calls with
  | zero =>
      intro mem behind r nalu nalus r' h _
      simp [readLoop, naluLoop] at h
  | succ calls ih =>
      intro mem behind r nalu nalus r' h hsome
      rcases hval : (readNalu (mem 0) r nalu).val with _ | ⟨_ | _, r₁, n⟩
      · simp [readLoop, naluLoop, hval] at h
      · rw [readLoop_refused hval, Option.some.injEq, Prod.mk.injEq] at h
        obtain ⟨rfl, rfl⟩ := h
        rw [naluLoop_refused hval, readLoop_refused hval]
        simp [Traced.Within]
      · rw [readLoop_found hval, Option.map_eq_some_iff] at h
        obtain ⟨⟨rest, r₂⟩, hrest, heq⟩ := h
        obtain ⟨rfl, rfl⟩ := Prod.mk.inj heq
        obtain ⟨a, ha⟩ := Option.isSome_iff_exists.mp (hsome 0 n rfl)
        have hstep := ih (fun i ↦ mem (i + 1)) (fun i ↦ behind (i + 1)) r₁ n.clear hrest
          fun i m hm ↦ hsome (i + 1) m hm
        have hbodies : (∀ (i : ℕ) (m : Nalu), (n :: rest)[i]? = some m →
            (body (behind i) m).Within P) ↔ (body (behind 0) n).Within P ∧
            ∀ (i : ℕ) (m : Nalu), rest[i]? = some m → (body (behind (i + 1)) m).Within P := by
          constructor
          · exact fun h ↦ ⟨h 0 n rfl, fun i m hm ↦ h (i + 1) m hm⟩
          · rintro ⟨hn, hlater⟩ (_ | i) m hm
            · obtain rfl : n = m := Option.some.inj hm
              exact hn
            · exact hlater i m hm
        rw [naluLoop_found hval ha, readLoop_found hval, hbodies]
        simp only [Traced.Within, List.forall_mem_append] at hstep ⊢
        rw [hstep]
        tauto

end Body

/-- Reading to the end: the NALUs collected, the reader left behind, and what
the calls did together. `passes` counts the passes of all calls. -/
structure ReadsOut (r : FileReader) (nalus : List Nalu) (r' : FileReader) (passes : ℕ) : Prop where
  bytes : (nalus.map Nalu.buffer).flatten ++ r'.remaining = r.remaining
  codes : ∀ nalu ∈ nalus, CodeAtFront nalu
  isOpen : r'.file.isOpen = r.file.isOpen
  fileName : r'.fileName = r.fileName
  passes_le : passes + r'.file.chunks ≤ r.file.chunks + (nalus.length + 1)

theorem Outcome.readsOut_refused {r r' : FileReader} {nalu nalu' : Nalu} {p n : ℕ}
    (h : r.Outcome nalu p n false r' nalu') : ReadsOut r [] r' p where
  bytes := by
    have hremaining := h.advances.remaining_eq
    rwa [(h.of_refused rfl).1, List.take_zero] at hremaining
  codes := by simp
  isOpen := h.advances.isOpen
  fileName := h.advances.fileName
  passes_le := h.advances.chunks_add_le

theorem Outcome.readsOut_found {r r₁ r' : FileReader} {nalu nalu' : Nalu} {p n q : ℕ}
    {nalus : List Nalu} (h : r.Outcome nalu p n true r₁ nalu') (hrest : ReadsOut r₁ nalus r' q) :
    ReadsOut r (nalu' :: nalus) r' (p + q) where
  bytes := by
    rw [List.map_cons, List.flatten_cons, List.append_assoc, hrest.bytes, (h.of_found rfl).2.1,
      h.advances.remaining_eq]
  codes := List.forall_mem_cons.mpr ⟨(h.of_found rfl).2.2, hrest.codes⟩
  isOpen := hrest.isOpen.trans h.advances.isOpen
  fileName := hrest.fileName.trans h.advances.fileName
  passes_le := by
    have hfirst := h.advances.chunks_add_le
    have hlater := hrest.passes_le
    rw [List.length_cons]
    omega

/-- The loop ends, whatever lies behind the buffer: every call that finds a
NALU takes three bytes at least. -/
theorem readLoop_total (calls : ℕ) :
    ∀ (mem : ℕ → ℕ → ℕ → UInt8) (r : FileReader) (nalu : Nalu),
      r.available.length < 2 ^ 31 → r.remaining.length < 3 * calls →
      ∃ nalus r' passes, (readLoop mem calls r nalu).val = some (nalus, r') ∧
        ReadsOut r nalus r' passes ∧
        (readLoop mem calls r nalu).log.length ≤ 7 * (passes * r.available.length) := by
  induction calls with
  | zero =>
      intro mem r nalu _ hcalls
      omega
  | succ calls ih =>
      intro mem r nalu hfits hcalls
      obtain ⟨found, r₁, nalu₁, p, n, hval, hout, hlog⟩ := readNalu_outcome (mem 0) nalu hfits
      cases found with
      | false =>
          rw [readLoop_refused hval]
          exact ⟨[], r₁, p, rfl, hout.readsOut_refused, hlog⟩
      | true =>
          have hthree := (hout.of_found rfl).1
          have havail := congrArg List.length hout.advances.available_eq
          have hremaining := congrArg List.length hout.advances.remaining_eq
          rw [List.length_drop] at havail
          rw [List.length_append, List.length_take_of_le hout.advances.le_length] at hremaining
          obtain ⟨nalus, r', q, hrest, hreads, hlater⟩ :=
            ih (fun i ↦ mem (i + 1)) r₁ nalu₁.clear (by omega) (by omega)
          rw [readLoop_found hval]
          refine ⟨nalu₁ :: nalus, r', p + q, by simp only [hrest, Option.map_some],
            hout.readsOut_found hreads, ?_⟩
          have hless : q * r₁.available.length ≤ q * r.available.length :=
            Nat.mul_le_mul_left q (by omega)
          simp only [List.length_append]
          rw [Nat.add_mul]
          omega

/-- On a freshly opened file of `n` bytes the loop ends within `n / 3 + 1`
calls. They hand out the file from its front, and make at most seven
comparisons for each byte of the file and each pass: one pass for each chunk
and one for each call. -/
theorem readLoop_terminates (fileName : String) {D : List UInt8} (hsize : D.length < 2 ^ 31)
    (mem : ℕ → ℕ → ℕ → UInt8) (nalu : Nalu) :
    ∃ nalus r',
      (readLoop mem (D.length / 3 + 1) (opened fileName D none) nalu).val = some (nalus, r') ∧
      (nalus.map Nalu.buffer).flatten <+: D ∧ (∀ n ∈ nalus, CodeAtFront n) ∧
      (readLoop mem (D.length / 3 + 1) (opened fileName D none) nalu).log.length ≤
        7 * (((D.length + 1023) / 1024 + (nalus.length + 1)) * D.length) := by
  have hremaining : (opened fileName D none).remaining = D := rfl
  have havail := available_opened fileName D
  obtain ⟨nalus, r', passes, hval, hout, hlog⟩ :=
    readLoop_total (D.length / 3 + 1) mem (opened fileName D none) nalu (by rwa [havail])
      (by rw [hremaining]; omega)
  have hchunks : (opened fileName D none).file.chunks = (D.length + 1023) / 1024 := by
    rw [Ifstream.chunks]
    rfl
  have hpasses := hout.passes_le
  rw [hchunks] at hpasses
  rw [havail] at hlog
  refine ⟨nalus, r', hval, ⟨r'.remaining, hout.bytes⟩, hout.codes, hlog.trans ?_⟩
  exact Nat.mul_le_mul_left 7 (Nat.mul_le_mul_right _ (by omega))

theorem readLoop_terminates_misled :
    ∃ D : List UInt8, D = [0, 0, 1, 0x65, 0, 0, 0, 1, 0x41, 0, 0, 0] ∧ ∃ nalus r',
      (readLoop (fun _ _ _ ↦ 0x01) (D.length / 3 + 1) (opened "a" D none) {}).val =
        some (nalus, r') ∧
      (nalus.map Nalu.buffer).flatten <+: D ∧ (∀ n ∈ nalus, CodeAtFront n) ∧
      (readLoop (fun _ _ _ ↦ 0x01) (D.length / 3 + 1) (opened "a" D none) {}).log.length ≤
        7 * (((D.length + 1023) / 1024 + (nalus.length + 1)) * D.length) :=
  ⟨_, rfl, readLoop_terminates "a" (by decide) _ _⟩

/-! ## Where the memory does not mislead

`I` holds of the memory and of every reader met between two calls. -/

section Undisturbed

variable {I : (ℕ → ℕ → ℕ → UInt8) → FileReader → Prop}
  (hlater : ∀ mem r p n r', I mem r → r.Advances p n r' → I (fun i ↦ mem (i + 1)) r')
include hlater

/-- With no misleading byte behind the buffer the loop collects the units of
the file. -/
theorem readLoop_split (htrue : ∀ mem r, I mem r → Truthful (mem 0) r) (calls : ℕ) :
    ∀ (mem : ℕ → ℕ → ℕ → UInt8) (r : FileReader) (nalu : Nalu),
      (annexB.split r.available).length < calls → UnitsFit r.available → I mem r →
      ∃ r', (readLoop mem calls r nalu).val =
        some ((annexB.split r.available).map toNalu, r') := by
  induction calls with
  | zero =>
      intro mem r nalu hcalls
      omega
  | succ calls ih =>
      intro mem r nalu hcalls hfit hI
      cases hsplit : annexB.split r.available with
      | nil =>
          obtain ⟨r', hval, -⟩ := readNalu_split_nil (htrue mem r hI) hsplit nalu
          exact ⟨r', by rw [readLoop_refused hval]; rfl⟩
      | cons u us =>
          obtain ⟨r', p, n, hval, hadv, hus, hfit'⟩ :=
            readNalu_split_cons (htrue mem r hI) hfit hsplit nalu
          rw [hsplit, List.length_cons] at hcalls
          obtain ⟨r'', hrest⟩ := ih (fun i ↦ mem (i + 1)) r' (toNalu u).clear
            (by rw [hus]; omega) hfit' (hlater mem r _ _ _ hI hadv)
          exact ⟨r'', by rw [readLoop_found hval]; simp [hrest, hus]⟩

theorem within_readLoop {P : BufRead → Prop}
    (hcall : ∀ mem r nalu, I mem r → (readNalu (mem 0) r nalu).Within P) (calls : ℕ) :
    ∀ (mem : ℕ → ℕ → ℕ → UInt8) (r : FileReader) (nalu : Nalu),
      r.available.length < 2 ^ 31 → I mem r → (readLoop mem calls r nalu).Within P := by
  induction calls with
  | zero =>
      intro mem r nalu _ _
      exact .pure _
  | succ calls ih =>
      intro mem r nalu hfits hI
      have hfirst := hcall mem r nalu hI
      obtain ⟨found, r', nalu', p, n, hval, hout, -⟩ := readNalu_outcome (mem 0) nalu hfits
      cases found with
      | false =>
          rw [readLoop_refused hval]
          exact hfirst
      | true =>
          have hless := congrArg List.length hout.advances.available_eq
          rw [List.length_drop] at hless
          rw [readLoop_found hval]
          exact List.forall_mem_append.mpr ⟨hfirst,
            ih _ r' _ (by omega) (hlater mem r _ _ _ hI hout.advances)⟩

end Undisturbed

/-- Every `00 00 00` of the file is followed by `01`, or no byte behind a
buffer is `01`. -/
def NeverMisled (mem : ℕ → ℕ → ℕ → UInt8) (r : FileReader) : Prop :=
  ZerosLead r.available ∨ ∀ c i, mem c i 0 ≠ 0x01

theorem NeverMisled.later {mem : ℕ → ℕ → ℕ → UInt8} {r r' : FileReader} {p n : ℕ}
    (h : NeverMisled mem r) (hadv : r.Advances p n r') :
    NeverMisled (fun i ↦ mem (i + 1)) r' := by
  rw [NeverMisled, hadv.available_eq]
  exact h.imp (fun h ↦ h.drop n) fun h c ↦ h (c + 1)

theorem NeverMisled.truthful {mem : ℕ → ℕ → ℕ → UInt8} {r : FileReader}
    (h : NeverMisled mem r) : Truthful (mem 0) r :=
  h.elim (fun h ↦ truthful_of_zerosLead h (mem 0)) fun h ↦ truthful_of_mismatch (h 0) r

theorem readLoop_opened (fileName : String) {D : List UInt8} (hfit : UnitsFit D)
    {mem : ℕ → ℕ → ℕ → UInt8} (hmem : ZerosLead D ∨ ∀ c i, mem c i 0 ≠ 0x01) :
    ∃ r', (readLoop mem (D.length + 1) (opened fileName D none) {}).val =
      some ((annexB.split D).map toNalu, r') := by
  have hloop := readLoop_split (fun _ _ _ _ _ h hadv ↦ NeverMisled.later h hadv)
    (fun _ _ ↦ NeverMisled.truthful) (D.length + 1) mem (opened fileName D none) {}
  rw [NeverMisled, available_opened] at hloop
  have hcalls := annexB.length_split_le D
  exact hloop (by omega) hfit hmem

end FileReader

end H264SendReceiver
