import H264SendReceiver.AnnexB.OneCall

/-!
# Runs of calls on a file reader
-/

namespace H264SendReceiver.FileReader

/-- A call of `readNalu`: what lies behind the buffer in each pass, and what
the argument holds. -/
structure NaluCall where
  mem : ℕ → ℕ → UInt8
  nalu : Nalu

/-- Successive calls: the answers, up to a call that has no defined result,
and the reader behind the last call. -/
def readNalus :
    List NaluCall → FileReader → Traced BufRead (List (Bool × Nalu) × Option FileReader)
  | [], r => pure ([], some r)
  | call :: calls, r => do
      match ← readNalu call.mem r call.nalu with
      | none => pure ([], none)
      | some (found, r, nalu) => do
          let (rest, r) ← readNalus calls r
          pure ((found, nalu) :: rest, r)

def toNalu (u : ℕ × List UInt8) : Nalu := ⟨u.1, u.2⟩

/-- The answers that hand out the given units one by one and then refuse. -/
def answers : List (ℕ × List UInt8) → List NaluCall → List (Bool × Nalu)
  | _, [] => []
  | [], call :: calls => (false, call.nalu) :: answers [] calls
  | u :: units, _ :: calls => (true, toNalu u) :: answers units calls

def delivered (as : List (Bool × Nalu)) : List Nalu := (as.filter Prod.fst).map Prod.snd

theorem delivered_answers (units : List (ℕ × List UInt8)) (calls : List NaluCall) :
    delivered (answers units calls) = (units.take calls.length).map toNalu := by
  induction calls generalizing units with
  | nil => simp [answers, delivered]
  | cons call calls ih =>
      cases units with
      | nil =>
          have hrest := ih []
          simp only [delivered, List.take_nil, List.map_nil] at hrest ⊢
          simpa [answers] using hrest
      | cons u units =>
          have hrest := ih units
          simp only [delivered] at hrest ⊢
          simp [answers, toNalu, hrest]

theorem answers_of_length {units : List (ℕ × List UInt8)} {calls : List NaluCall}
    (h : calls.length = units.length + 1) :
    ∃ nalu, answers units calls = units.map (fun u ↦ (true, toNalu u)) ++ [(false, nalu)] := by
  induction units generalizing calls with
  | nil =>
      obtain ⟨call, rfl⟩ := List.length_eq_one_iff.mp h
      exact ⟨call.nalu, rfl⟩
  | cons u units ih =>
      cases calls with
      | nil => simp at h
      | cons call calls =>
          obtain ⟨nalu, hrest⟩ := ih (Nat.succ.inj h)
          exact ⟨nalu, by rw [answers, hrest, List.map_cons, List.cons_append]⟩

theorem mismatch_of_mem_replicate {n : ℕ} {call : NaluCall}
    (h : call ∈ List.replicate n ⟨fun _ _ ↦ 0x00, {}⟩) (i : ℕ) : call.mem i 0 ≠ 0x01 := by
  rw [List.eq_of_mem_replicate h]
  exact (by decide : (0x00 : UInt8) ≠ 0x01)

theorem truthful_of_mismatch {mem : ℕ → ℕ → UInt8} (h : ∀ i, mem i 0 ≠ 0x01)
    (r : FileReader) : Truthful mem r :=
  fun k hbyte ↦ absurd hbyte (h k)

theorem drop_zeros_of_overreads {l : List UInt8} (h : Overreads l) :
    3 ≤ l.length ∧ l.drop (l.length - 3) = [0, 0, 0] := by
  rcases h with rfl | ⟨s, -, -, hs, hzeros⟩
  · exact ⟨le_rfl, rfl⟩
  · exact ⟨by omega, hzeros⟩

theorem truthful_of_zerosLead {r : FileReader} (h : ZerosLead r.available)
    (mem : ℕ → ℕ → UInt8) : Truthful mem r := by
  intro k _ hover
  obtain ⟨hlen, hzeros⟩ := drop_zeros_of_overreads hover
  have hlead := h ((r.data (k + 1)).length - 3)
  rw [← r.data_append (k + 1), List.drop_append_of_le_length (by omega), hzeros] at hlead
  obtain ⟨rest, hrest⟩ := hlead (List.prefix_append _ _)
  have htail : r.file.avail.drop (1024 * (k + 1)) = 0x01 :: rest := by simpa using hrest.symm
  rw [htail]
  rfl

/-- `static_cast<int>` keeps every position at which a unit is cut. -/
def UnitsFit (l : List UInt8) : Prop := ∀ u ∈ (annexB.split l).dropLast, u.2.length < 2 ^ 31

theorem unitsFit_of_length {l : List UInt8} (h : l.length < 2 ^ 31) : UnitsFit l :=
  fun _ hu ↦ (annexB.length_le_of_mem_split (List.mem_of_mem_dropLast hu)).trans_lt h

theorem UnitsFit.cutFits {l : List UInt8} (h : UnitsFit l) : CutFits l := by
  intro s j hs hj
  have hlt := annexB.lt_length_of_next hj
  have hne : annexB.split (l.drop j) ≠ [] := by
    rw [ne_eq, annexB.split_eq_nil_iff]
    exact Option.isSome_iff_ne_none.mp (annexB.mark_drop_of_next hj)
  have hfit := h (s, l.take j)
  rw [annexB.split_of_next_some hs hj, List.dropLast_cons_of_ne_nil hne] at hfit
  have hlen := hfit (List.mem_cons_self ..)
  rwa [List.length_take_of_le hlt.le] at hlen

theorem UnitsFit.drop {l : List UInt8} (h : UnitsFit l) {s : ℕ} (hs : startCode l = some s) :
    UnitsFit (l.drop (annexB.cut l s)) := by
  intro u hu
  refine h u ?_
  rw [annexB.split_of_mark hs, List.dropLast_cons_of_ne_nil]
  · exact List.mem_cons_of_mem _ hu
  · rintro hnil
    simp [hnil] at hu

section OneByOne

variable {mem : ℕ → ℕ → UInt8} {r : FileReader} (h : Truthful mem r)
include h

theorem readNalu_split_nil (hnil : annexB.split r.available = []) (nalu : Nalu) :
    ∃ r', (readNalu mem r nalu).val = some (false, r', nalu) ∧ r.Advances 1 0 r' :=
  readNalu_of_none h (annexB.split_eq_nil_iff.mp hnil) nalu

theorem readNalu_split_cons (hfit : UnitsFit r.available) {u : ℕ × List UInt8}
    {us : List (ℕ × List UInt8)} (hcons : annexB.split r.available = u :: us) (nalu : Nalu) :
    ∃ r' p n, (readNalu mem r nalu).val = some (true, r', toNalu u) ∧ r.Advances p n r' ∧
      annexB.split r'.available = us ∧ UnitsFit r'.available := by
  cases hs : startCode r.available with
  | none => simp [annexB.split_of_mark_none hs] at hcons
  | some s =>
      rw [annexB.split_of_mark hs, List.cons.injEq] at hcons
      obtain ⟨rfl, rfl⟩ := hcons
      obtain ⟨r', p, hval, hadv⟩ := readNalu_of_some h hfit.cutFits hs nalu
      refine ⟨r', p, _, hval, hadv, ?_, ?_⟩ <;> rw [hadv.available_eq]
      exact hfit.drop hs

end OneByOne

theorem readNalus_eq (calls : List NaluCall) :
    ∀ r : FileReader, UnitsFit r.available →
      (ZerosLead r.available ∨ ∀ call ∈ calls, ∀ i, call.mem i 0 ≠ 0x01) →
      ∃ r', (readNalus calls r).val = (answers (annexB.split r.available) calls, some r') := by
  induction calls with
  | nil =>
      intro r _ _
      exact ⟨r, by rw [readNalus, answers]; rfl⟩
  | cons call calls ih =>
      intro r hfit hmem
      have htrue : Truthful call.mem r :=
        hmem.elim (fun h ↦ truthful_of_zerosLead h call.mem)
          (fun h ↦ truthful_of_mismatch (h call (List.mem_cons_self ..)) r)
      have hlater : ∀ {n : ℕ} {r' : FileReader}, r'.available = r.available.drop n →
          (ZerosLead r'.available ∨ ∀ call ∈ calls, ∀ i, call.mem i 0 ≠ 0x01) := by
        intro n r' hdrop
        rw [hdrop]
        exact hmem.imp (fun h ↦ h.drop n) fun h c hc ↦ h c (List.mem_cons_of_mem _ hc)
      cases hsplit : annexB.split r.available with
      | nil =>
          obtain ⟨r', hval, hadv⟩ := readNalu_split_nil htrue hsplit call.nalu
          have hkeep := hadv.available_eq
          rw [List.drop_zero] at hkeep
          obtain ⟨r'', hrest⟩ := ih r' (by rwa [hkeep]) (hlater (n := 0) hkeep)
          refine ⟨r'', ?_⟩
          rw [readNalus, Traced.val_bind, hval]
          simp only [Traced.val_bind, Traced.val_pure, hrest, hkeep, hsplit]
          rfl
      | cons u us =>
          obtain ⟨r', p, n, hval, hadv, hus, hfit'⟩ :=
            readNalu_split_cons htrue hfit hsplit call.nalu
          obtain ⟨r'', hrest⟩ := ih r' hfit' (hlater hadv.available_eq)
          refine ⟨r'', ?_⟩
          rw [readNalus, Traced.val_bind, hval]
          simp only [Traced.val_bind, Traced.val_pure, hrest, hus]
          rfl

def opened (fileName : String) (content : List UInt8) (readsLeft : Option ℕ) : FileReader :=
  { file := { isOpen := true, unread := content, readsLeft }, fileName }

theorem openReader_new {fileName : String} (h : fileName ≠ "") (content : List UInt8)
    (readsLeft : Option ℕ) :
    openReader { fileName } (some content) readsLeft =
      (true, opened fileName content readsLeft) := by
  simp [openReader, Ifstream.openFile, opened, h]

theorem available_opened (fileName : String) (content : List UInt8) :
    (opened fileName content none).available = content := by
  simp [opened, available, Ifstream.avail]

end H264SendReceiver.FileReader
