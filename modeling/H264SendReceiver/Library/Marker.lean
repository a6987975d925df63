import Mathlib.Data.List.Basic
import Mathlib.Data.List.Infix
import Mathlib.Tactic.Common

/-!
# Cutting a list in front of its markers

A marker is a pattern of one or two neighbouring lengths that a list may
begin with. `split` cuts a list that begins with a marker in front of every
later marker. The two facts that make incremental cutting possible are that
a marker is decided by its own elements, and that the lengths differ by at
most one: a cut found in a prefix is then the cut of every extension.
-/

structure Marker (α : Type*) where
  /-- The length of the marker the list begins with. -/
  mark : List α → Option ℕ
  pos : ∀ {l n}, mark l = some n → 0 < n
  mark_iff_append : ∀ l t n, mark l = some n ↔ mark (l ++ t) = some n ∧ n ≤ l.length
  close : ∀ {l l' m n}, mark l = some m → mark l' = some n → n ≤ m + 1

namespace Marker

variable {α : Type*} (M : Marker α)

theorem le_length {l : List α} {n : ℕ} (h : M.mark l = some n) : n ≤ l.length :=
  ((M.mark_iff_append l [] n).mp h).2

theorem mark_append {l : List α} {n : ℕ} (h : M.mark l = some n) (t : List α) :
    M.mark (l ++ t) = some n :=
  ((M.mark_iff_append l t n).mp h).1

theorem mark_of_append {l t : List α} {n : ℕ} (h : M.mark (l ++ t) = some n)
    (hn : n ≤ l.length) : M.mark l = some n :=
  (M.mark_iff_append l t n).mpr ⟨h, hn⟩

@[simp] theorem mark_nil : M.mark [] = none := by
  cases h : M.mark [] with
  | none => rfl
  | some n =>
      have hpos := M.pos h
      have hle := M.le_length h
      simp only [List.length_nil] at hle
      omega

theorem lt_length_of_mark_drop {l : List α} {j : ℕ} (h : (M.mark (l.drop j)).isSome) :
    j < l.length := by
  by_contra hj
  rw [List.drop_eq_nil_of_le (by omega)] at h
  simp at h

/-- The least position from `s` on at which a marker begins. -/
def next (l : List α) (s : ℕ) : Option ℕ :=
  (List.range' s (l.length - s)).find? fun j ↦ (M.mark (l.drop j)).isSome

theorem next_eq_some_iff {l : List α} {s j : ℕ} :
    M.next l s = some j ↔ s ≤ j ∧ (M.mark (l.drop j)).isSome ∧
      ∀ i, s ≤ i → i < j → M.mark (l.drop i) = none := by
  rw [next, List.find?_range'_eq_some]
  constructor
  · rintro ⟨hj, hmem, hbefore⟩
    have hr := List.mem_range'_1.mp hmem
    exact ⟨hr.1, hj, fun i hs hi ↦ by simpa using hbefore i hs hi⟩
  · rintro ⟨hs, hj, hbefore⟩
    have hlt := M.lt_length_of_mark_drop hj
    refine ⟨hj, List.mem_range'_1.mpr ⟨hs, by omega⟩, fun i hsi hi ↦ ?_⟩
    simp [hbefore i hsi hi]

theorem next_eq_none_iff {l : List α} {s : ℕ} :
    M.next l s = none ↔ ∀ j, s ≤ j → M.mark (l.drop j) = none := by
  rw [next, List.find?_range'_eq_none]
  constructor
  · intro h j hs
    cases hj : M.mark (l.drop j) with
    | none => rfl
    | some n =>
        have hlt : j < l.length := M.lt_length_of_mark_drop (by simp [hj])
        simpa [hj] using h j hs (by omega)
  · intro h j hs _
    simp [h j hs]

theorem le_of_next {l : List α} {s j : ℕ} (h : M.next l s = some j) : s ≤ j :=
  (M.next_eq_some_iff.mp h).1

theorem lt_length_of_next {l : List α} {s j : ℕ} (h : M.next l s = some j) :
    j < l.length :=
  M.lt_length_of_mark_drop (M.next_eq_some_iff.mp h).2.1

theorem mark_drop_of_next {l : List α} {s j : ℕ} (h : M.next l s = some j) :
    (M.mark (l.drop j)).isSome :=
  (M.next_eq_some_iff.mp h).2.1

theorem next_of_mark {l : List α} {s n : ℕ} (h : M.mark (l.drop s) = some n) :
    M.next l s = some s :=
  M.next_eq_some_iff.mpr ⟨le_rfl, Option.isSome_of_eq_some h, fun i hi hlt ↦ by omega⟩

theorem next_succ {l : List α} {s : ℕ} (h : M.mark (l.drop s) = none) :
    M.next l s = M.next l (s + 1) := by
  cases hj : M.next l (s + 1) with
  | none =>
      refine M.next_eq_none_iff.mpr fun j hs ↦ ?_
      rcases Nat.eq_or_lt_of_le hs with rfl | hlt
      · exact h
      · exact M.next_eq_none_iff.mp hj j hlt
  | some j =>
      obtain ⟨hs, hmark, hbefore⟩ := M.next_eq_some_iff.mp hj
      refine M.next_eq_some_iff.mpr ⟨by omega, hmark, fun i hsi hi ↦ ?_⟩
      rcases Nat.eq_or_lt_of_le hsi with rfl | hlt
      · exact h
      · exact hbefore i hlt hi

/-- A marker found in a prefix stays the first one: an earlier marker of the
extension would be longer by two at least. -/
theorem next_append {l : List α} {s j : ℕ} (h : M.next l s = some j) (t : List α) :
    M.next (l ++ t) s = some j := by
  obtain ⟨hs, hj, hbefore⟩ := M.next_eq_some_iff.mp h
  have hlt := M.lt_length_of_next h
  obtain ⟨n, hn⟩ := Option.isSome_iff_exists.mp hj
  have hfit := M.le_length hn
  rw [List.length_drop] at hfit
  refine M.next_eq_some_iff.mpr ⟨hs, ?_, fun i hsi hi ↦ ?_⟩
  · rw [List.drop_append_of_le_length (by omega), M.mark_append hn t]
    rfl
  · rw [List.drop_append_of_le_length (by omega)]
    cases hi' : M.mark (l.drop i ++ t) with
    | none => rfl
    | some m =>
        have hclose := M.close hn hi'
        have hback := M.mark_of_append hi' (by rw [List.length_drop]; omega)
        simp [hbefore i hsi hi] at hback

/-- The marked units of a list, each with the length of its marker; a list
that begins with no marker has none. -/
def split (l : List α) : List (ℕ × List α) :=
  match _hs : M.mark l with
  | none => []
  | some s =>
    match _hj : M.next l s with
    | none => [(s, l)]
    | some j => (s, l.take j) :: split (l.drop j)
termination_by l.length
decreasing_by
  have hpos := M.pos _hs
  have hle := M.le_of_next _hj
  have hlt := M.lt_length_of_next _hj
  rw [List.length_drop]
  omega

theorem split_of_mark_none {l : List α} (h : M.mark l = none) : M.split l = [] := by
  rw [split]
  split <;> simp_all

theorem split_of_next_none {l : List α} {s : ℕ} (hs : M.mark l = some s)
    (hn : M.next l s = none) : M.split l = [(s, l)] := by
  rw [split]
  split
  · simp_all
  · rename_i s' hs'
    obtain rfl : s' = s := Option.some.inj (hs'.symm.trans hs)
    split <;> simp_all

theorem split_of_next_some {l : List α} {s j : ℕ} (hs : M.mark l = some s)
    (hj : M.next l s = some j) : M.split l = (s, l.take j) :: M.split (l.drop j) := by
  rw [split]
  split
  · simp_all
  · rename_i s' hs'
    obtain rfl : s' = s := Option.some.inj (hs'.symm.trans hs)
    split <;> simp_all

/-- Where the first unit ends: at the next marker or at the end. -/
def cut (l : List α) (s : ℕ) : ℕ := (M.next l s).getD l.length

theorem cut_of_next {l : List α} {s j : ℕ} (h : M.next l s = some j) : M.cut l s = j := by
  rw [cut, h]
  rfl

theorem cut_of_next_none {l : List α} {s : ℕ} (h : M.next l s = none) :
    M.cut l s = l.length := by
  rw [cut, h]
  rfl

theorem cut_le {l : List α} {s : ℕ} : M.cut l s ≤ l.length := by
  cases h : M.next l s with
  | none => exact (M.cut_of_next_none h).le
  | some j =>
      rw [M.cut_of_next h]
      exact (M.lt_length_of_next h).le

theorem cut_pos {l : List α} {s : ℕ} (hs : M.mark l = some s) : 0 < M.cut l s := by
  have hpos := M.pos hs
  have hlen := M.le_length hs
  cases h : M.next l s with
  | none =>
      rw [M.cut_of_next_none h]
      omega
  | some j =>
      have hle := M.le_of_next h
      rw [M.cut_of_next h]
      omega

@[simp] theorem split_nil : M.split [] = [] := M.split_of_mark_none M.mark_nil

theorem split_of_mark {l : List α} {s : ℕ} (hs : M.mark l = some s) :
    M.split l = (s, l.take (M.cut l s)) :: M.split (l.drop (M.cut l s)) := by
  cases hj : M.next l s with
  | none =>
      rw [M.cut_of_next_none hj, List.take_length, List.drop_length, split_nil,
        M.split_of_next_none hs hj]
  | some j => rw [M.cut_of_next hj, M.split_of_next_some hs hj]

theorem split_induction {P : List α → Prop} (hnone : ∀ l, M.mark l = none → P l)
    (hsome : ∀ l s, M.mark l = some s → P (l.drop (M.cut l s)) → P l) (l : List α) : P l := by
  induction hn : l.length using Nat.strong_induction_on generalizing l with
  | _ n ih =>
      cases hs : M.mark l with
      | none => exact hnone l hs
      | some s =>
          have hpos := M.cut_pos hs
          have hle := M.cut_le (l := l) (s := s)
          exact hsome l s hs (ih _ (by rw [List.length_drop]; omega) _ rfl)

theorem split_eq_nil_iff {l : List α} : M.split l = [] ↔ M.mark l = none := by
  constructor
  · intro h
    cases hs : M.mark l with
    | none => rfl
    | some s =>
        cases hj : M.next l s with
        | none => simp [M.split_of_next_none hs hj] at h
        | some j => simp [M.split_of_next_some hs hj] at h
  · exact M.split_of_mark_none

/-- A block that carries a marker, no further marker before its end, and is
followed by a marker or by nothing, is the first unit. -/
theorem split_block {u rest : List α} {s : ℕ} (hs : M.mark (u ++ rest) = some s)
    (hsu : s ≤ u.length) (hrest : rest = [] ∨ (M.mark rest).isSome)
    (hin : ∀ i, s ≤ i → i < u.length → M.mark ((u ++ rest).drop i) = none) :
    M.split (u ++ rest) = (s, u) :: M.split rest := by
  rcases hrest with rfl | hrest
  · rw [List.append_nil] at hs hin ⊢
    rw [split_nil]
    refine M.split_of_next_none hs (M.next_eq_none_iff.mpr fun j hj ↦ ?_)
    by_cases hlt : j < u.length
    · exact hin j hj hlt
    · rw [List.drop_eq_nil_of_le (by omega), mark_nil]
  · have hnext : M.next (u ++ rest) s = some u.length :=
      M.next_eq_some_iff.mpr ⟨hsu, by simpa using hrest, hin⟩
    rw [M.split_of_next_some hs hnext, List.take_left, List.drop_left]

theorem length_le_of_mem_split {l : List α} {u : ℕ × List α} (h : u ∈ M.split l) :
    u.2.length ≤ l.length := by
  induction l using M.split_induction with
  | hnone l hs => simp [M.split_of_mark_none hs] at h
  | hsome l s hs ih =>
      rw [M.split_of_mark hs] at h
      rcases List.mem_cons.mp h with rfl | h
      · exact List.length_take_le' _ _
      · exact (ih h).trans (by rw [List.length_drop]; omega)

theorem le_cut {l : List α} {s : ℕ} (hs : M.mark l = some s) : s ≤ M.cut l s := by
  cases h : M.next l s with
  | none =>
      rw [M.cut_of_next_none h]
      exact M.le_length hs
  | some j =>
      rw [M.cut_of_next h]
      exact M.le_of_next h

/-- Every unit begins with its marker. -/
theorem mark_of_mem_split {l : List α} {u : ℕ × List α} (h : u ∈ M.split l) :
    M.mark u.2 = some u.1 := by
  induction l using M.split_induction with
  | hnone l hs => simp [M.split_of_mark_none hs] at h
  | hsome l s hs ih =>
      rw [M.split_of_mark hs] at h
      rcases List.mem_cons.mp h with rfl | h
      · have hcut := M.le_cut hs
        rw [← List.take_append_drop (M.cut l s) l] at hs
        exact M.mark_of_append hs (by rwa [List.length_take_of_le M.cut_le])
      · exact ih h

theorem mark_drop_of_lt_cut {l : List α} {s i : ℕ} (hs : s ≤ i) (hi : i < M.cut l s) :
    M.mark (l.drop i) = none := by
  cases h : M.next l s with
  | none => exact M.next_eq_none_iff.mp h i hs
  | some j =>
      rw [M.cut_of_next h] at hi
      exact (M.next_eq_some_iff.mp h).2.2 i hs hi

/-- A unit is the only unit of itself. -/
theorem split_of_mem_split {l : List α} {u : ℕ × List α} (h : u ∈ M.split l) :
    M.split u.2 = [u] := by
  induction l using M.split_induction with
  | hnone l hs => simp [M.split_of_mark_none hs] at h
  | hsome l s hs ih =>
      rw [M.split_of_mark hs] at h
      rcases List.mem_cons.mp h with rfl | h
      · have hlen : (l.take (M.cut l s)).length = M.cut l s := List.length_take_of_le M.cut_le
        have hcut := M.le_cut hs
        have hmark : M.mark (l.take (M.cut l s)) = some s := by
          rw [← List.take_append_drop (M.cut l s) l] at hs
          exact M.mark_of_append hs (by rwa [hlen])
        refine M.split_of_next_none hmark (M.next_eq_none_iff.mpr fun i hi ↦ ?_)
        by_cases hlt : i < M.cut l s
        · -- a marker inside the unit would begin there in the list as well
          cases hin : M.mark ((l.take (M.cut l s)).drop i) with
          | none => rfl
          | some n =>
              have happ := M.mark_append hin (l.drop (M.cut l s))
              rw [← List.drop_append_of_le_length (by rw [hlen]; exact hlt.le),
                List.take_append_drop, M.mark_drop_of_lt_cut hi hlt] at happ
              simp at happ
        · rw [List.drop_eq_nil_of_le (hlen.le.trans (Nat.not_lt.mp hlt)), mark_nil]
      · exact ih h

theorem next_of_split_eq {u : ℕ × List α} (h : M.split u.2 = [u]) :
    M.mark u.2 = some u.1 ∧ M.next u.2 u.1 = none := by
  have hmark : M.mark u.2 = some u.1 := M.mark_of_mem_split (h ▸ List.mem_singleton_self u)
  refine ⟨hmark, ?_⟩
  cases hj : M.next u.2 u.1 with
  | none => rfl
  | some j =>
      have hne : M.split (u.2.drop j) ≠ [] := by
        rw [ne_eq, split_eq_nil_iff]
        exact Option.isSome_iff_ne_none.mp (M.mark_drop_of_next hj)
      rw [M.split_of_next_some hmark hj, List.cons.injEq] at h
      exact absurd h.2 hne

theorem length_split_le (l : List α) : (M.split l).length ≤ l.length := by
  induction l using M.split_induction with
  | hnone l hs => simp [M.split_of_mark_none hs]
  | hsome l s hs ih =>
      have hpos := M.cut_pos hs
      have hle := M.cut_le (l := l) (s := s)
      rw [List.length_drop] at ih
      rw [M.split_of_mark hs, List.length_cons]
      omega

/-- More elements at the end change no unit but the last one. -/
theorem dropLast_split_prefix (l t : List α) : (M.split l).dropLast <+: M.split (l ++ t) := by
  induction l using M.split_induction with
  | hnone l hs =>
      rw [M.split_of_mark_none hs]
      exact List.nil_prefix
  | hsome l s hs ih =>
      cases hj : M.next l s with
      | none =>
          rw [M.split_of_next_none hs hj]
          exact List.nil_prefix
      | some j =>
          have hlt := M.lt_length_of_next hj
          have hne : M.split (l.drop j) ≠ [] := by
            rw [ne_eq, split_eq_nil_iff]
            exact Option.isSome_iff_ne_none.mp (M.mark_drop_of_next hj)
          rw [M.cut_of_next hj] at ih
          rw [M.split_of_next_some hs hj,
            M.split_of_next_some (M.mark_append hs t) (M.next_append hj t),
            List.take_append_of_le_length hlt.le, List.drop_append_of_le_length hlt.le,
            List.dropLast_cons_of_ne_nil hne]
          exact List.cons_prefix_cons.mpr ⟨rfl, ih⟩

theorem flatten_split {l : List α} (h : (M.mark l).isSome) :
    ((M.split l).map Prod.snd).flatten = l := by
  induction l using M.split_induction with
  | hnone l hs => simp [hs] at h
  | hsome l s hs ih =>
      rw [M.split_of_mark hs, List.map_cons, List.flatten_cons]
      cases hj : M.next l s with
      | none =>
          rw [M.cut_of_next_none hj, List.take_length, List.drop_length]
          simp
      | some j =>
          have hcut := M.cut_of_next hj
          rw [ih (by rw [hcut]; exact M.mark_drop_of_next hj), List.take_append_drop]

end Marker
