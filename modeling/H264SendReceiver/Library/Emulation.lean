import Mathlib.Data.List.Infix
import Mathlib.Tactic.Common

/-!
# Emulation prevention

`escape` is the insertion of H.264: a byte `0x03` goes in front of every byte
up to `0x03` that follows two zero bytes of the output. `strip` is the
removal, which looks at the two bytes in front of a `0x03` and at the one
behind it. On byte strings an escaper can have produced the two are inverse
to each other.
-/

namespace Emulation

/-- `zeros` is the number of zero bytes the output ends in. -/
def escapeFrom : ℕ → List UInt8 → List UInt8
  | _, [] => []
  | zeros, b :: bs =>
      if 2 ≤ zeros ∧ b ≤ 0x03 then 0x03 :: b :: escapeFrom (if b = 0 then 1 else 0) bs
      else b :: escapeFrom (if b = 0 then zeros + 1 else 0) bs

def escape (b : List UInt8) : List UInt8 := escapeFrom 0 b

/-- The removal behind the two bytes `p` and `q`. -/
def stripFrom : UInt8 → UInt8 → List UInt8 → List UInt8
  | _, _, [] => []
  | p, q, b :: bs =>
      if b = 0x03 ∧ p = 0 ∧ q = 0 ∧ bs.head?.any (· ≤ 0x03) then stripFrom q b bs
      else b :: stripFrom q b bs

/-- The number of zero bytes, up to two, at the end of `p, q`. -/
def zeroRun (p q : UInt8) : ℕ := if q = 0 then if p = 0 then 2 else 1 else 0

/-- The byte strings that `escape` produces: no `00 00` in front of a byte up
to `02`, and one in front of a `03` only where a byte up to `03` follows. -/
structure Canonical (e : List UInt8) : Prop where
  no_low : ∀ c : UInt8, c ≤ 0x02 → ¬ [0, 0, c] <:+: e
  escaped : ∀ l r, e = l ++ [0, 0, 0x03] ++ r → ∃ c r', r = c :: r' ∧ c ≤ 0x03

theorem two_le_zeroRun_iff {p q : UInt8} : 2 ≤ zeroRun p q ↔ p = 0 ∧ q = 0 := by
  unfold zeroRun
  by_cases hq : q = 0 <;> by_cases hp : p = 0 <;> simp [hp, hq]

theorem zeroRun_of_ne {p q : UInt8} (hp : p ≠ 0) : zeroRun p q = if q = 0 then 1 else 0 := by
  simp [zeroRun, hp]

theorem zeroRun_step {p q b : UInt8} (h : ¬ (2 ≤ zeroRun p q ∧ b ≤ 0x03)) :
    zeroRun q b = if b = 0 then zeroRun p q + 1 else 0 := by
  by_cases hb : b = 0
  · subst hb
    have hlt : ¬ (p = 0 ∧ q = 0) := fun hpq ↦ h ⟨two_le_zeroRun_iff.mpr hpq, by decide⟩
    by_cases hq : q = 0
    · have hp : p ≠ 0 := fun hp ↦ hlt ⟨hp, hq⟩
      simp [zeroRun, hq, hp]
    · simp [zeroRun, hq]
  · simp [zeroRun, hb]

/-- The removal works on the escaped bytes alone: what follows them is
stripped as it would be behind their last two bytes. -/
theorem exists_stripFrom_append (b : List UInt8) :
    ∀ p q, ∃ p' q', ∀ t,
      stripFrom p q (escapeFrom (zeroRun p q) b ++ t) = b ++ stripFrom p' q' t := by
  induction b with
  | nil => intro p q; exact ⟨p, q, fun t ↦ rfl⟩
  | cons x xs ih =>
      intro p q
      by_cases hesc : 2 ≤ zeroRun p q ∧ x ≤ 0x03
      · obtain ⟨hp, hq⟩ := two_le_zeroRun_iff.mp hesc.1
        obtain ⟨p', q', hrest⟩ := ih 0x03 x
        refine ⟨p', q', fun t ↦ ?_⟩
        -- the inserted byte goes, the byte behind it no longer follows two zeros
        rw [escapeFrom, if_pos hesc, List.cons_append, List.cons_append, stripFrom,
          if_pos ⟨rfl, hp, hq, by simpa using hesc.2⟩, stripFrom,
          if_neg (by rintro ⟨-, -, h, -⟩; exact absurd h (by decide)),
          ← zeroRun_of_ne (p := 0x03) (by decide), hrest, List.cons_append]
      · obtain ⟨p', q', hrest⟩ := ih q x
        refine ⟨p', q', fun t ↦ ?_⟩
        rw [escapeFrom, if_neg hesc, List.cons_append, stripFrom, if_neg, ← zeroRun_step hesc,
          hrest, List.cons_append]
        rintro ⟨rfl, hp, hq, -⟩
        exact hesc ⟨two_le_zeroRun_iff.mpr ⟨hp, hq⟩, by decide⟩

theorem stripFrom_escapeFrom (b : List UInt8) (p q : UInt8) :
    stripFrom p q (escapeFrom (zeroRun p q) b) = b := by
  obtain ⟨p', q', h⟩ := exists_stripFrom_append b p q
  have hnil := h []
  rwa [List.append_nil, stripFrom, List.append_nil] at hnil

/-- One more byte at the very end stays, whatever it is. -/
theorem stripFrom_escapeFrom_concat (b : List UInt8) (p q c : UInt8) :
    stripFrom p q (escapeFrom (zeroRun p q) b ++ [c]) = b ++ [c] := by
  obtain ⟨p', q', h⟩ := exists_stripFrom_append b p q
  rw [h, stripFrom, if_neg (by simp), stripFrom]

theorem stripFrom_sublist (e : List UInt8) : ∀ p q, (stripFrom p q e).Sublist e := by
  induction e with
  | nil => intro p q; exact List.Sublist.slnil
  | cons b bs ih =>
      intro p q
      rw [stripFrom]
      split
      · exact (ih q b).cons b
      · exact (ih q b).cons_cons b

theorem Canonical.tail {x : UInt8} {e : List UInt8} (h : Canonical (x :: e)) : Canonical e where
  no_low c hc hin := h.no_low c hc (hin.trans (List.infix_cons List.infix_rfl))
  escaped l r he := h.escaped (x :: l) r (by rw [he]; rfl)

theorem escapeFrom_stripFrom (n : ℕ) : ∀ (e : List UInt8) (p q : UInt8), e.length ≤ n →
    Canonical (p :: q :: e) → escapeFrom (zeroRun p q) (stripFrom p q e) = e := by
  induction n with
  | zero =>
      intro e p q hlen _
      rw [List.eq_nil_of_length_eq_zero (Nat.le_zero.mp hlen)]
      rfl
  | succ n ih =>
      intro e p q hlen hcan
      cases e with
      | nil => rfl
      | cons b bs =>
          rw [List.length_cons] at hlen
          by_cases hstrip : b = 0x03 ∧ p = 0 ∧ q = 0 ∧ bs.head?.any (· ≤ 0x03)
          · obtain ⟨rfl, rfl, rfl, hnext⟩ := hstrip
            cases bs with
            | nil => simp at hnext
            | cons c cs =>
                have hc : c ≤ 0x03 := by simpa using hnext
                have hkeep : stripFrom 0 0x03 (c :: cs) = c :: stripFrom 0x03 c cs := by
                  rw [stripFrom, if_neg]
                  rintro ⟨-, -, h, -⟩
                  exact absurd h (by decide)
                rw [List.length_cons] at hlen
                rw [stripFrom, if_pos ⟨rfl, rfl, rfl, hnext⟩, hkeep, escapeFrom,
                  if_pos ⟨by decide, hc⟩, ← zeroRun_of_ne (p := 0x03) (by decide),
                  ih cs 0x03 c (by omega) hcan.tail.tail]
          · have hplain : ¬ (2 ≤ zeroRun p q ∧ b ≤ 0x03) := by
              rintro ⟨hrun, hb⟩
              obtain ⟨rfl, rfl⟩ := two_le_zeroRun_iff.mp hrun
              by_cases hlow : b ≤ 0x02
              · exact hcan.no_low b hlow ⟨[], bs, rfl⟩
              · have hthree : b = 0x03 := by
                  rw [UInt8.le_iff_toNat_le] at hb hlow
                  apply UInt8.toNat_inj.mp
                  change b.toNat ≤ 3 at hb
                  change ¬ b.toNat ≤ 2 at hlow
                  change b.toNat = 3
                  omega
                subst hthree
                obtain ⟨c, r, rfl, hc⟩ := hcan.escaped [] bs rfl
                exact hstrip ⟨rfl, rfl, rfl, by simpa using hc⟩
            rw [stripFrom, if_neg hstrip, escapeFrom, if_neg hplain, ← zeroRun_step hplain,
              ih bs q b (by omega) hcan.tail]

/-- Behind `zeros` zero bytes the escaped form begins no `00 00 c` with a low
`c`. -/
theorem no_low_escapeFrom (b : List UInt8) : ∀ zeros ≤ 2, ∀ c ≤ 0x02,
    ¬ [0, 0, c] <:+: List.replicate zeros 0 ++ escapeFrom zeros b := by
  induction b with
  | nil =>
      intro zeros hz c _ hin
      have hlen := hin.length_le
      simp only [escapeFrom, List.append_nil, List.length_replicate, List.length_cons,
        List.length_nil] at hlen
      omega
  | cons x xs ih =>
      intro zeros hz c hc
      -- a nonzero byte ends the run: nothing before it can take part any more
      have hfresh : ∀ y ≠ 0, ∀ k ≤ 2, (k = 2 → y ≠ c) →
          ¬ [0, 0, c] <:+: List.replicate k 0 ++ y :: escapeFrom 0 xs := by
        intro y hy k hk hyc
        have hnext := ih 0 (by omega) c hc
        rw [List.replicate_zero, List.nil_append] at hnext
        match k, hk with
        | 0, _ | 1, _ => simp [List.infix_cons_iff, hy.symm, hnext]
        | 2, _ => simp [List.replicate, List.infix_cons_iff, hy.symm, (hyc rfl).symm, hnext]
      rw [escapeFrom]
      split
      · rename_i hesc
        obtain rfl : zeros = 2 := by omega
        have hthree : c ≠ 0x03 := by
          rintro rfl
          exact absurd hc (by decide)
        by_cases hx : x = 0
        · have hone := ih 1 (by omega) c hc
          simp [List.replicate, List.infix_cons_iff, hx, hthree] at hone ⊢
          exact hone
        · have hrest := hfresh x hx 0 (by omega) (by omega)
          simp [List.infix_cons_iff, Ne.symm hx] at hrest
          simp [List.replicate, List.infix_cons_iff, hx, Ne.symm hx, hthree, hrest]
      · rename_i hesc
        by_cases hx : x = 0
        · have hlow : x ≤ 0x03 := by rw [hx]; decide
          have hone := ih (zeros + 1) (by by_contra h; exact hesc ⟨by omega, hlow⟩) c hc
          rw [if_pos hx, hx]
          rwa [List.replicate_succ', List.append_assoc] at hone
        · rw [if_neg hx]
          refine hfresh x hx zeros hz ?_
          rintro rfl rfl
          exact hesc ⟨le_rfl, UInt8.le_trans hc (by decide)⟩

theorem no_low_escape (b : List UInt8) {c : UInt8} (hc : c ≤ 0x02) :
    ¬ [0, 0, c] <:+: escape b :=
  no_low_escapeFrom b 0 (by omega) c hc

/-- Every `00 00 03` of an output is an escape: the escaped byte follows. -/
theorem escaped_escapeFrom (b : List UInt8) : ∀ zeros ≤ 2, ∀ t : List UInt8,
    t <:+ List.replicate zeros 0 ++ escapeFrom zeros b → [0, 0, 0x03] <+: t →
      (t.drop 3).head?.any (· ≤ 0x03) := by
  induction b with
  | nil =>
      intro zeros hz t ht hcode
      have hlong := hcode.length_le.trans ht.length_le
      simp only [escapeFrom, List.append_nil, List.length_replicate, List.length_cons,
        List.length_nil] at hlong
      omega
  | cons x xs ih =>
      intro zeros hz
      -- a nonzero byte ends the run: only the escapes behind it are left
      have hfresh : ∀ y ≠ 0, ∀ k ≤ 2, (k = 2 → y ≠ 0x03) → ∀ t : List UInt8,
          t <:+ List.replicate k 0 ++ y :: escapeFrom 0 xs → [0, 0, 0x03] <+: t →
            (t.drop 3).head?.any (· ≤ 0x03) := by
        intro y hy k hk hthree t ht hcode
        have hnext := ih 0 (by omega) t
        rw [List.replicate_zero, List.nil_append] at hnext
        have hy' : (0 : UInt8) ≠ y := hy.symm
        match k, hk with
        | 0, _ =>
            rcases List.suffix_cons_iff.mp ht with rfl | ht
            · simp [hy'] at hcode
            · exact hnext ht hcode
        | 1, _ =>
            rcases List.suffix_cons_iff.mp ht with rfl | ht
            · simp [hy'] at hcode
            rcases List.suffix_cons_iff.mp ht with rfl | ht
            · simp [hy'] at hcode
            · exact hnext ht hcode
        | 2, _ =>
            rcases List.suffix_cons_iff.mp ht with rfl | ht
            · simp [(hthree rfl).symm] at hcode
            rcases List.suffix_cons_iff.mp ht with rfl | ht
            · simp [hy'] at hcode
            rcases List.suffix_cons_iff.mp ht with rfl | ht
            · simp [hy'] at hcode
            · exact hnext ht hcode
      intro t ht hcode
      rw [escapeFrom] at ht
      split at ht
      · rename_i hesc
        obtain rfl : zeros = 2 := by omega
        rcases List.suffix_cons_iff.mp ht with rfl | ht
        · simpa using hesc.2
        rcases List.suffix_cons_iff.mp ht with rfl | ht
        · simp at hcode
        rcases List.suffix_cons_iff.mp ht with rfl | ht
        · simp at hcode
        by_cases hx : x = 0
        · rw [if_pos hx, hx] at ht
          exact ih 1 (by omega) t ht hcode
        · rw [if_neg hx] at ht
          exact hfresh x hx 0 (by omega) (by omega) t ht hcode
      · rename_i hplain
        by_cases hx : x = 0
        · have hlow : x ≤ 0x03 := by rw [hx]; decide
          have hone := ih (zeros + 1) (by by_contra h; exact hplain ⟨by omega, hlow⟩) t
          rw [if_pos hx, hx] at ht
          rw [List.replicate_succ', List.append_assoc] at hone
          exact hone ht hcode
        · rw [if_neg hx] at ht
          refine hfresh x hx zeros hz ?_ t ht hcode
          rintro rfl rfl
          exact hplain ⟨le_rfl, by decide⟩

theorem canonical_escape (b : List UInt8) : Canonical (escape b) where
  no_low _ hc := no_low_escape b hc
  escaped l r he := by
    have hsuffix : [0, 0, 0x03] ++ r <:+ List.replicate 0 0 ++ escapeFrom 0 b :=
      ⟨l, by rw [← List.append_assoc, ← he]; rfl⟩
    have hnext := escaped_escapeFrom b 0 (by omega) _ hsuffix (List.prefix_append _ _)
    cases r with
    | nil => simp at hnext
    | cons c r => exact ⟨c, r, rfl, by simpa using hnext⟩

theorem getLast?_escapeFrom (b : List UInt8) :
    ∀ zeros, (escapeFrom zeros b).getLast? = b.getLast? := by
  induction b with
  | nil => intro zeros; rfl
  | cons x xs ih =>
      intro zeros
      rw [escapeFrom]
      split <;> simp [List.getLast?_cons, ih]

/-! ## Lengths -/

theorem length_le_length_escapeFrom (b : List UInt8) :
    ∀ zeros, b.length ≤ (escapeFrom zeros b).length := by
  induction b with
  | nil => intro zeros; exact le_rfl
  | cons x xs ih =>
      intro zeros
      rw [escapeFrom]
      split
      · have := ih (if x = 0 then 1 else 0)
        simp only [List.length_cons]
        omega
      · have := ih (if x = 0 then zeros + 1 else 0)
        simp only [List.length_cons]
        omega

/-- A byte string begins with an escape. -/
def isEscape : List UInt8 → Bool
  | p :: q :: b :: c :: _ => p = 0 ∧ q = 0 ∧ b = 0x03 ∧ c ≤ 0x03
  | _ => false

/-- The number of positions at which an escape begins. -/
def escapes (e : List UInt8) : ℕ := e.tails.countP isEscape

theorem escapes_cons (x : UInt8) (e : List UInt8) :
    escapes (x :: e) = escapes e + if isEscape (x :: e) then 1 else 0 := by
  rw [escapes, List.tails_cons, List.countP_cons, ← escapes]

theorem isEscape_iff {p q b : UInt8} {bs : List UInt8} :
    isEscape (p :: q :: b :: bs) = true ↔
      b = 0x03 ∧ p = 0 ∧ q = 0 ∧ bs.head?.any (· ≤ 0x03) = true := by
  cases bs with
  | nil => simp [isEscape]
  | cons c bs =>
      simp only [isEscape, decide_eq_true_eq, List.head?_cons, Option.any_some]
      tauto

/-- The removal takes one byte for each escape. -/
theorem length_stripFrom_add_escapes (e : List UInt8) :
    ∀ p q, (stripFrom p q e).length + escapes (p :: q :: e) = e.length := by
  induction e with
  | nil => intro p q; rfl
  | cons b bs ih =>
      intro p q
      have hrest := ih q b
      rw [stripFrom, escapes_cons, List.length_cons]
      by_cases hesc : isEscape (p :: q :: b :: bs) = true
      · rw [if_pos hesc, if_pos (isEscape_iff.mp hesc)]
        omega
      · rw [if_neg hesc, if_neg fun h ↦ hesc (isEscape_iff.mpr h), List.length_cons]
        omega

/-- Two zero bytes stay for every byte that is removed; those in front of the
position count as well. -/
theorem two_mul_length_le (e : List UInt8) :
    ∀ p q, 2 * e.length ≤ 3 * (stripFrom p q e).length + zeroRun p q := by
  induction e with
  | nil => intro p q; exact Nat.zero_le _
  | cons b bs ih =>
      intro p q
      have hrest := ih q b
      rw [stripFrom, List.length_cons]
      split
      · rename_i hesc
        have hrun : zeroRun q b = 0 := by rw [hesc.1]; rfl
        have htwo := two_le_zeroRun_iff.mpr ⟨hesc.2.1, hesc.2.2.1⟩
        omega
      · have hrun : zeroRun q b ≤ zeroRun p q + 1 := by
          unfold zeroRun
          split_ifs <;> omega
        rw [List.length_cons]
        omega

theorem zeroRun_le (p q : UInt8) : zeroRun p q ≤ 2 := by
  unfold zeroRun
  split_ifs <;> omega

end Emulation
