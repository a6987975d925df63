import H264SendReceiver.AnnexB.FileReader

/-!
# What the search finds and reads

On buffered data that is not `00 00 00` the comparison with a start code is
the abstract one. Three zero bytes at the end of the data are compared with
the byte behind them as well; that byte decides the result.
-/

namespace H264SendReceiver.FileReader

open Memory

theorem val_findStartCode (l : List UInt8) (behind : ℕ → UInt8) :
    (findStartCode (peek l behind) l.length).val =
      if l = [0, 0, 0] ∧ behind 0 = 0x01 then some 4 else startCode l := by
  rcases l with _ | ⟨a, _ | ⟨b, _ | ⟨c, _ | ⟨d, t⟩⟩⟩⟩
  · simp [findStartCode, startCode]
  · simp [findStartCode, startCode]
  · simp [findStartCode, startCode]
  · simp only [findStartCode, startCode, equals, peek, Traced.val_ite, Traced.val_bind,
      Traced.val_and, Traced.val_access, Traced.val_pure]
    simp
    grind
  · have hlen : ¬ (a :: b :: c :: d :: t).length < 3 := by simp
    rw [findStartCode, if_neg hlen]
    simp [startCode, equals, peek, Traced.val_ite, and_assoc]

theorem log_findStartCode (l : List UInt8) (behind : ℕ → UInt8) :
    (∀ e ∈ (findStartCode (peek l behind) l.length).log, e.index < e.len) ↔ l ≠ [0, 0, 0] := by
  rcases l with _ | ⟨a, _ | ⟨b, _ | ⟨c, _ | ⟨d, t⟩⟩⟩⟩
  · simp [findStartCode]
  · simp [findStartCode]
  · simp [findStartCode]
  · by_cases hzero : [a, b, c] = [0, 0, 0]
    · rw [hzero]
      have hlog : (findStartCode (peek [0, 0, 0] behind) 3).log =
          [⟨0, 3⟩, ⟨1, 3⟩, ⟨2, 3⟩, ⟨0, 3⟩, ⟨1, 3⟩, ⟨2, 3⟩, ⟨3, 3⟩] := by
        simp [findStartCode, equals, peek, Traced.log_ite, Traced.log_and]
      simp [hlog]
    · refine iff_of_true ?_ hzero
      simp [findStartCode, equals, peek, Traced.log_ite, Traced.log_and]
      grind
  · have hlen : ¬ (a :: b :: c :: d :: t).length < 3 := by simp
    rw [findStartCode, if_neg hlen]
    simp [equals, peek, Traced.log_ite, Traced.log_and]
    grind

/-- The search from position `s` on ends in `00 00 00`. -/
def ZeroTail (l : List UInt8) (s : ℕ) : Prop :=
  s + 3 ≤ l.length ∧ l.drop (l.length - 3) = [0, 0, 0]

instance (l : List UInt8) (s : ℕ) : Decidable (ZeroTail l s) :=
  inferInstanceAs (Decidable (_ ∧ _))

theorem startCode_zeros : startCode [0, 0, 0] = none := by decide

theorem zeroTail_of_drop {l : List UInt8} {s : ℕ} (h : l.drop s = [0, 0, 0]) : ZeroTail l s := by
  have hlen := congrArg List.length h
  simp only [List.length_drop, List.length_cons, List.length_nil] at hlen
  refine ⟨by omega, ?_⟩
  rw [show l.length - 3 = s by omega]
  exact h

theorem next_of_drop_zeros {l : List UInt8} {s : ℕ} (h : l.drop s = [0, 0, 0]) :
    annexB.next l s = none := by
  refine annexB.next_eq_none_iff.mpr fun j hj ↦ ?_
  obtain ⟨k, rfl⟩ := Nat.exists_eq_add_of_le hj
  rw [← List.drop_drop, h]
  match k with
  | 0 => decide
  | 1 => decide
  | 2 => decide
  | k + 3 => rw [List.drop_eq_nil_of_le (by simp)]; decide

theorem zeroTail_succ_iff {l : List UInt8} {s : ℕ} (h : l.drop s ≠ [0, 0, 0]) :
    ZeroTail l (s + 1) ↔ ZeroTail l s := by
  refine and_congr_left fun hz ↦ ⟨by omega, fun hs ↦ ?_⟩
  by_contra hlast
  rw [show l.length - 3 = s by omega] at hz
  exact h hz

theorem not_zeroTail {l : List UInt8} {s : ℕ} (h : l.length ≤ s) : ¬ ZeroTail l s := by
  rintro ⟨hs, -⟩
  omega

theorem findNext_succ (l : List UInt8) (behind : ℕ → UInt8) {s left : ℕ} (hs : s ≤ l.length) :
    findNext (peek l behind) l.length (left + 1) s =
      findStartCode (peek (l.drop s) behind) (l.drop s).length >>= fun found ↦
        found.elim (findNext (peek l behind) l.length left (s + 1)) fun _ ↦ pure (some s) := by
  have hpeek : (fun i ↦ peek l behind (s + i)) = peek (l.drop s) behind :=
    (funext (peek_drop hs behind)).symm
  simp only [findNext, hpeek, List.length_drop]
  refine congrArg _ (funext fun found ↦ ?_)
  cases found <;> rfl

theorem val_findNext (l : List UInt8) (behind : ℕ → UInt8) (left : ℕ) :
    ∀ s, s + left = l.length →
      (findNext (peek l behind) l.length left s).val =
        (annexB.next l s).or
          (if ZeroTail l s ∧ behind 0 = 0x01 then some (l.length - 3) else none) := by
  induction left with
  | zero =>
      intro s hs
      have hnext : annexB.next l s = none := by
        refine annexB.next_eq_none_iff.mpr fun j hj ↦ ?_
        rw [List.drop_eq_nil_of_le (by omega)]
        exact annexB.mark_nil
      rw [hnext, if_neg (fun h ↦ not_zeroTail (by omega) h.1)]
      rfl
  | succ left ih =>
      intro s hs
      rw [findNext_succ l behind (by omega), Traced.val_bind, val_findStartCode]
      by_cases hzero : l.drop s = [0, 0, 0]
      · have htail := zeroTail_of_drop hzero
        have hlen := congrArg List.length hzero
        simp only [List.length_drop, List.length_cons, List.length_nil] at hlen
        rw [next_of_drop_zeros hzero, hzero, startCode_zeros]
        by_cases hbyte : behind 0 = 0x01
        · rw [if_pos ⟨rfl, hbyte⟩, if_pos ⟨htail, hbyte⟩]
          change some s = some (l.length - 3)
          congr 1
          omega
        · have hrest : annexB.next l (s + 1) = none := by
            rw [← annexB.next_succ (by rw [hzero]; exact startCode_zeros),
              next_of_drop_zeros hzero]
          rw [if_neg (fun h ↦ hbyte h.2), if_neg (fun h ↦ hbyte h.2)]
          change (findNext _ _ _ _).val = _
          rw [ih (s + 1) (by omega), hrest, if_neg (fun h ↦ hbyte h.2)]
      · rw [if_neg (fun h ↦ hzero h.1)]
        cases hcode : startCode (l.drop s) with
        | some n =>
            rw [annexB.next_of_mark hcode]
            rfl
        | none =>
            change (findNext _ _ _ _).val = _
            rw [ih (s + 1) (by omega), ← annexB.next_succ hcode]
            simp only [zeroTail_succ_iff hzero]

/-- The search reads past the data exactly when it finds no start code and
ends in three zero bytes, whatever byte lies behind them. -/
theorem log_findNext (l : List UInt8) (behind : ℕ → UInt8) (left : ℕ) :
    ∀ s, s + left = l.length →
      ((∀ e ∈ (findNext (peek l behind) l.length left s).log, e.index < e.len) ↔
        ¬ (annexB.next l s = none ∧ ZeroTail l s)) := by
  induction left with
  | zero =>
      intro s hs
      simp [findNext, not_zeroTail (l := l) (s := s) (by omega)]
  | succ left ih =>
      intro s hs
      have hfirst := log_findStartCode (l.drop s) behind
      rw [findNext_succ l behind (by omega), Traced.log_bind, List.forall_mem_append, hfirst,
        val_findStartCode]
      by_cases hzero : l.drop s = [0, 0, 0]
      · simp [hzero, zeroTail_of_drop hzero, next_of_drop_zeros hzero]
      · rw [if_neg (fun h ↦ hzero h.1), and_iff_right hzero]
        cases hcode : startCode (l.drop s) with
        | some n =>
            simp [annexB.next_of_mark hcode]
        | none =>
            rw [annexB.next_succ hcode, ← zeroTail_succ_iff hzero]
            exact ih (s + 1) (by omega)

end H264SendReceiver.FileReader
