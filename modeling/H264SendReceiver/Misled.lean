import H264SendReceiver.Program

/-!
# How far a foreign byte reaches

A search that ends in three zero bytes takes the byte behind the buffer for
the end of a start code. Whatever that byte is, the loop hands out the units
of the file; it can only cut one of them short, and there the reader stops.
-/

namespace H264SendReceiver

/-- What the loop makes of the bytes in front of it. -/
inductive Reading : List UInt8 → List Nalu → Prop where
  | stop {l : List UInt8} (h : startCode l = none) : Reading l []
  /-- The three bytes of a start code whose last one is a foreign byte. -/
  | zeros {nalus : List Nalu} (h : Reading [] nalus) :
      Reading [0, 0, 0] (⟨4, [0, 0, 0]⟩ :: nalus)
  | unit {l : List UInt8} {s : ℕ} {nalus : List Nalu} (hs : startCode l = some s)
      (h : Reading (l.drop (annexB.cut l s)) nalus) :
      Reading l (⟨s, l.take (annexB.cut l s)⟩ :: nalus)
  /-- A unit that ends too early. -/
  | short {l : List UInt8} {s n : ℕ} {nalus : List Nalu} (hs : startCode l = some s)
      (hn : s ≤ n) (hlt : n < annexB.cut l s) (hzeros : [0, 0, 0] <+: l.drop n)
      (h : Reading (l.drop n) nalus) : Reading l (⟨s, l.take n⟩ :: nalus)

namespace FileReader

theorem readLoop_reading (calls : ℕ) :
    ∀ (mem : ℕ → ℕ → ℕ → UInt8) (r : FileReader) (nalu : Nalu),
      r.available.length < calls → r.available.length < 2 ^ 31 →
      ∃ nalus r', (readLoop mem calls r nalu).val = some (nalus, r') ∧
        Reading r.available nalus := by
  induction calls with
  | zero =>
      intro mem r nalu hcalls
      omega
  | succ calls ih =>
      intro mem r nalu hcalls hfits
      obtain ⟨found, r₁, nalu₁, p, n, hval, hadv, hreads, -⟩ := readNalu_reads (mem 0) nalu hfits
      have hrest (hn : 0 < n) (hle : n ≤ r.available.length) :
          ∃ nalus r', (readLoop (fun i ↦ mem (i + 1)) calls r₁ nalu₁.clear).val =
            some (nalus, r') ∧ Reading (r.available.drop n) nalus := by
        have hlen := congrArg List.length hadv.available_eq
        rw [List.length_drop] at hlen
        rw [← hadv.available_eq]
        exact ih _ r₁ nalu₁.clear (by omega) (by omega)
      have hfound {nalus : List Nalu} {r' : FileReader} (htrue : found = true)
          (hloop : (readLoop (fun i ↦ mem (i + 1)) calls r₁ nalu₁.clear).val = some (nalus, r')) :
          (readLoop mem (calls + 1) r nalu).val = some (nalu₁ :: nalus, r') := by
        rw [htrue] at hval
        rw [readLoop_found hval]
        simp only [hloop, Option.map_some]
      cases hreads with
      | refused _ h =>
          exact ⟨[], r₁, by rw [readLoop_refused hval], .stop h⟩
      | zeros h =>
          obtain ⟨nalus, r', hloop, hreading⟩ := hrest (by omega) (by rw [h]; decide)
          rw [h] at hreading ⊢
          exact ⟨_, r', hfound rfl hloop, .zeros hreading⟩
      | unit hs =>
          obtain ⟨nalus, r', hloop, hreading⟩ := hrest (annexB.cut_pos hs) annexB.cut_le
          exact ⟨_, r', hfound rfl hloop, .unit hs hreading⟩
      | short hs hn hlt hzeros =>
          have hpos := annexB.pos hs
          obtain ⟨nalus, r', hloop, hreading⟩ := hrest (by omega) (hlt.le.trans annexB.cut_le)
          exact ⟨_, r', hfound rfl hloop, .short hs hn hlt hzeros hreading⟩

end FileReader

/-! ## The units and the last one cut short -/

open FileReader

theorem Reading.eq_nil_of_none {l : List UInt8} {nalus : List Nalu} (h : Reading l nalus)
    (hnone : startCode l = none) :
    nalus = [] ∨ l = [0, 0, 0] ∧ nalus = [⟨4, [0, 0, 0]⟩] := by
  cases h with
  | stop _ => exact Or.inl rfl
  | zeros h =>
      cases h with
      | stop _ => exact Or.inr ⟨rfl, rfl⟩
      | unit hs _ => exact absurd hs (by simp [startCode])
      | short hs _ _ _ _ => exact absurd hs (by simp [startCode])
  | unit hs _ => simp [hnone] at hs
  | short hs _ _ _ _ => simp [hnone] at hs

/-- Only `x` is left of the unit of `D` behind `front`. The start code is in it,
and three zero bytes follow it in `D`. -/
structure CutShort (D : List UInt8) (front : List Nalu) (s : ℕ) (x rest : List UInt8) : Prop where
  unit : ∃ y back, (annexB.split D).map toNalu = front ++ ⟨s, y⟩ :: back ∧ x <+: y ∧
    x.length < y.length
  le_length : s ≤ x.length
  zeros : (front.map Nalu.buffer).flatten ++ (x ++ ([0, 0, 0] ++ rest)) = D

/-- The units of `D` in their order, up to one that is cut short. Three zero
bytes may be handed out as a start code where they are all of `D`, or all of it
that is left behind the unit cut short. -/
inductive UnitsButLast (D : List UInt8) : List Nalu → Prop where
  | units : UnitsButLast D ((annexB.split D).map toNalu)
  | zeros (h : D = [0, 0, 0]) : UnitsButLast D [⟨4, [0, 0, 0]⟩]
  | short {front : List Nalu} {s : ℕ} {x rest : List UInt8} (h : CutShort D front s x rest) :
      UnitsButLast D (front ++ [⟨s, x⟩])
  | shortZeros {front : List Nalu} {s : ℕ} {x : List UInt8} (h : CutShort D front s x []) :
      UnitsButLast D (front ++ [⟨s, x⟩, ⟨4, [0, 0, 0]⟩])

section FirstUnit

variable {l : List UInt8} {s : ℕ} (hs : startCode l = some s)
include hs

theorem map_split_of_startCode : (annexB.split l).map toNalu =
    ⟨s, l.take (annexB.cut l s)⟩ :: (annexB.split (l.drop (annexB.cut l s))).map toNalu := by
  rw [annexB.split_of_mark hs]
  rfl

theorem CutShort.of_unit {front : List Nalu} {s' : ℕ} {x rest : List UInt8}
    (h : CutShort (l.drop (annexB.cut l s)) front s' x rest) :
    CutShort l (⟨s, l.take (annexB.cut l s)⟩ :: front) s' x rest where
  unit := by
    obtain ⟨y, back, hunits, hx⟩ := h.unit
    exact ⟨y, back, by rw [map_split_of_startCode hs, hunits, List.cons_append], hx⟩
  le_length := h.le_length
  zeros := by
    rw [List.map_cons, List.flatten_cons, List.append_assoc, h.zeros, List.take_append_drop]

theorem UnitsButLast.of_unit {nalus : List Nalu}
    (h : UnitsButLast (l.drop (annexB.cut l s)) nalus) :
    UnitsButLast l (⟨s, l.take (annexB.cut l s)⟩ :: nalus) := by
  cases h with
  | units =>
      rw [← map_split_of_startCode hs]
      exact .units
  | zeros h =>
      -- behind a unit there is a start code or nothing
      cases hj : annexB.next l s with
      | none => simp [annexB.cut_of_next_none hj] at h
      | some j =>
          have hcode := annexB.mark_drop_of_next hj
          rw [annexB.cut_of_next hj] at h
          rw [h] at hcode
          exact absurd hcode (by decide)
  | short h => exact .short (h.of_unit hs)
  | shortZeros h => exact .shortZeros (h.of_unit hs)

theorem UnitsButLast.of_short {n : ℕ} {nalus : List Nalu} (hn : s ≤ n)
    (hlt : n < annexB.cut l s) (hzeros : [0, 0, 0] <+: l.drop n)
    (h : Reading (l.drop n) nalus) : UnitsButLast l (⟨s, l.take n⟩ :: nalus) := by
  have hle : annexB.cut l s ≤ l.length := annexB.cut_le
  have hnone : startCode (l.drop n) = none := annexB.mark_drop_of_lt_cut hn hlt
  have hcut {rest : List UInt8} (hrest : [0, 0, 0] ++ rest = l.drop n) :
      CutShort l [] s (l.take n) rest :=
    { unit := by
        refine ⟨_, _, map_split_of_startCode hs, List.take_prefix_take_left hlt.le, ?_⟩
        rw [List.length_take_of_le (by omega), List.length_take_of_le hle]
        exact hlt
      le_length := by
        rw [List.length_take_of_le (by omega)]
        exact hn
      zeros := by
        rw [hrest, List.map_nil, List.flatten_nil, List.nil_append, List.take_append_drop] }
  rcases h.eq_nil_of_none hnone with rfl | ⟨hdrop, rfl⟩
  · obtain ⟨rest, hrest⟩ := hzeros
    exact .short (hcut hrest)
  · exact .shortZeros (hcut hdrop.symm)

end FirstUnit

theorem Reading.unitsButLast {l : List UInt8} {nalus : List Nalu} (h : Reading l nalus) :
    UnitsButLast l nalus := by
  induction h with
  | @stop l h =>
      have hunits : (annexB.split l).map toNalu = [] := by
        rw [annexB.split_of_mark_none h]
        rfl
      rw [← hunits]
      exact .units
  | zeros h _ =>
      rcases h.eq_nil_of_none rfl with rfl | ⟨hnil, -⟩
      · exact .zeros rfl
      · simp at hnil
  | unit hs _ ih => exact ih.of_unit hs
  | short hs hn hlt hzeros h _ => exact .of_short hs hn hlt hzeros h

namespace FileReader

/-- Whatever lies behind the buffer, the loop hands out the units of the file
in their order. A foreign byte can cut short one of them, in front of three
zero bytes, and ends the loop there but for these three, if the file ends in
them. -/
theorem readLoop_unitsButLast (fileName : String) {D : List UInt8} (hsize : D.length < 2 ^ 31)
    (mem : ℕ → ℕ → ℕ → UInt8) :
    ∃ nalus r', (readLoop mem (D.length + 1) (opened fileName D none) {}).val =
      some (nalus, r') ∧ UnitsButLast D nalus := by
  have havail := available_opened fileName D
  obtain ⟨nalus, r', hval, hreading⟩ :=
    readLoop_reading (D.length + 1) mem (opened fileName D none) {} (by rw [havail]; omega)
      (by rwa [havail])
  rw [havail] at hreading
  exact ⟨nalus, r', hval, hreading.unitsButLast⟩

/-- With the byte `01` behind the buffer the unit ends three bytes early, and
these three are taken for a start code. -/
theorem readLoop_unitsButLast_misled :
    ∃ D : List UInt8, D = [0, 0, 1, 0x65, 0, 0, 0] ∧ ∃ nalus r',
      (readLoop (fun _ _ _ ↦ 0x01) (D.length + 1) (opened "a" D none) {}).val =
        some (nalus, r') ∧ UnitsButLast D nalus :=
  ⟨_, rfl, readLoop_unitsButLast "a" (by decide) _⟩

end FileReader

end H264SendReceiver
