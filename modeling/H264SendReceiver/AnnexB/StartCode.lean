import H264SendReceiver.Library.Marker

/-!
# Start codes

The two start codes of Annex B as markers, and the cutting of a byte string in
front of them. This is what the file reader is for; nothing here refers to
buffers or reads.
-/

namespace H264SendReceiver

def startCode (l : List UInt8) : Option ℕ :=
  if [0x00, 0x00, 0x01] <+: l then some 3
  else if [0x00, 0x00, 0x00, 0x01] <+: l then some 4
  else none

theorem startCode_eq_three_iff {l : List UInt8} :
    startCode l = some 3 ↔ [0x00, 0x00, 0x01] <+: l := by
  unfold startCode
  split
  · simp [*]
  · split <;> simp [*]

theorem not_three_of_four {l : List UInt8} (h : [0x00, 0x00, 0x00, 0x01] <+: l) :
    ¬ [0x00, 0x00, 0x01] <+: l := by
  obtain ⟨t, rfl⟩ := h
  rintro ⟨u, hu⟩
  simp at hu

theorem startCode_eq_four_iff {l : List UInt8} :
    startCode l = some 4 ↔ [0x00, 0x00, 0x00, 0x01] <+: l := by
  unfold startCode
  constructor
  · intro h
    split at h
    · simp at h
    · split at h
      · assumption
      · simp at h
  · intro h
    rw [if_neg (not_three_of_four h), if_pos h]

theorem startCode_eq_some {l : List UInt8} {n : ℕ} (h : startCode l = some n) :
    n = 3 ∨ n = 4 := by
  unfold startCode at h
  split at h
  · exact Or.inl (Option.some.inj h).symm
  · split at h
    · exact Or.inr (Option.some.inj h).symm
    · simp at h

theorem startCode_isSome_iff {l : List UInt8} :
    (startCode l).isSome ↔ [0x00, 0x00, 0x01] <+: l ∨ [0x00, 0x00, 0x00, 0x01] <+: l := by
  unfold startCode
  split
  · simp [*]
  · split <;> simp [*]

theorem prefix_append_iff {p l : List UInt8} (t : List UInt8) :
    p <+: l ↔ p <+: l ++ t ∧ p.length ≤ l.length :=
  ⟨fun h ↦ ⟨h.trans (List.prefix_append l t), h.length_le⟩,
    fun h ↦ List.prefix_of_prefix_length_le h.1 (List.prefix_append l t) h.2⟩

/-- The start codes as a marker: they differ in length by one. -/
def annexB : Marker UInt8 where
  mark := startCode
  pos := by
    intro l n h
    rcases startCode_eq_some h with rfl | rfl <;> omega
  mark_iff_append := by
    intro l t n
    by_cases h₃ : n = 3
    · subst h₃
      rw [startCode_eq_three_iff, startCode_eq_three_iff]
      exact prefix_append_iff t
    · by_cases h₄ : n = 4
      · subst h₄
        rw [startCode_eq_four_iff, startCode_eq_four_iff]
        exact prefix_append_iff t
      · constructor
        · intro h
          exact ((startCode_eq_some h).elim h₃ h₄).elim
        · intro h
          exact ((startCode_eq_some h.1).elim h₃ h₄).elim
  close := by
    intro l l' m n hm hn
    rcases startCode_eq_some hm with rfl | rfl <;> rcases startCode_eq_some hn with rfl | rfl <;>
      omega

theorem startCode_of_four_le {l : List UInt8} (h : 4 ≤ l.length) (t : List UInt8) :
    startCode (l ++ t) = startCode l := by
  cases hl : startCode l with
  | some n => exact annexB.mark_append hl t
  | none =>
      cases ht : startCode (l ++ t) with
      | none => rfl
      | some n =>
          have hn : n ≤ l.length := by
            rcases startCode_eq_some ht with rfl | rfl <;> omega
          rw [← hl]
          exact (annexB.mark_of_append ht hn).symm

/-- Every `00 00 00` is the beginning of a four-byte start code. -/
def ZerosLead (l : List UInt8) : Prop :=
  ∀ i, [0, 0, 0] <+: l.drop i → [0, 0, 0, 1] <+: l.drop i

theorem ZerosLead.drop {l : List UInt8} (h : ZerosLead l) (n : ℕ) : ZerosLead (l.drop n) := by
  intro i hi
  rw [List.drop_drop] at hi ⊢
  exact h (n + i) hi

end H264SendReceiver
