import Mathlib.Data.List.Basic
import Mathlib.Tactic.Common

/-!
# Formatted output

An output stream with the formatting state that stays in it from one insertion
to the next, and the three facts that make a printed text readable again: the
lines of a text determine it and are determined by it, numbers are printed
differently, and blocks of one length can be told apart.
-/

structure OutStream where
  text : List Char := []
  base : ℕ := 10
  fill : Char := ' '
  width : ℕ := 0
  deriving DecidableEq, Repr

namespace OutStream

def setw (ss : OutStream) (width : ℕ) : OutStream := { ss with width }

def setfill (ss : OutStream) (fill : Char) : OutStream := { ss with fill }

def hex (ss : OutStream) : OutStream := { ss with base := 16 }

/-- A formatted insertion fills up to the width on the left; the width is used
up by it, the other settings stay. -/
def insert (ss : OutStream) (t : List Char) : OutStream :=
  { ss with text := ss.text ++ (List.replicate (ss.width - t.length) ss.fill ++ t), width := 0 }

def str (ss : OutStream) (t : String) : OutStream := ss.insert t.toList

def num (ss : OutStream) (n : ℕ) : OutStream := ss.insert (Nat.toDigits ss.base n)

def endl (ss : OutStream) : OutStream := { ss with text := ss.text ++ ['\n'] }

end OutStream

namespace Text

/-- A text of the given lines, each ended by a newline. -/
def unlines (ls : List (List Char)) : List Char := ls.flatMap (· ++ ['\n'])

theorem unlines_append (ls ms : List (List Char)) :
    unlines (ls ++ ms) = unlines ls ++ unlines ms := List.flatMap_append

theorem unlines_flatten (lss : List (List (List Char))) :
    unlines lss.flatten = (lss.map unlines).flatten := by
  induction lss with
  | nil => rfl
  | cons ls lss ih => rw [List.flatten_cons, unlines_append, ih, List.map_cons, List.flatten_cons]

theorem line_inj {l m x y : List Char} (hl : '\n' ∉ l) (hm : '\n' ∉ m)
    (h : l ++ '\n' :: x = m ++ '\n' :: y) : l = m ∧ x = y := by
  induction l generalizing m with
  | nil =>
      cases m with
      | nil => exact ⟨rfl, (List.cons.inj h).2⟩
      | cons c m =>
          obtain rfl : '\n' = c := (List.cons.inj h).1
          simp at hm
  | cons c l ih =>
      cases m with
      | nil =>
          obtain rfl : c = '\n' := (List.cons.inj h).1
          simp at hl
      | cons d m =>
          obtain ⟨rfl, hrest⟩ := List.cons.inj h
          obtain ⟨rfl, hxy⟩ := ih (fun hc ↦ hl (List.mem_cons_of_mem _ hc))
            (fun hc ↦ hm (List.mem_cons_of_mem _ hc)) hrest
          exact ⟨rfl, hxy⟩

/-- Blocks whose ends can be recognised: their concatenation tells what each
of them tells. -/
theorem map_eq_of_flatMap_eq {α β γ : Type*} {P : α → Prop} {f : α → List β} {g : α → γ}
    (hne : ∀ a, P a → f a ≠ [])
    (hcut : ∀ a b x y, P a → P b → f a ++ x = f b ++ y → g a = g b ∧ x = y)
    {as bs : List α} (has : ∀ a ∈ as, P a) (hbs : ∀ b ∈ bs, P b)
    (h : as.flatMap f = bs.flatMap f) : as.map g = bs.map g := by
  induction as generalizing bs with
  | nil =>
      cases bs with
      | nil => rfl
      | cons b bs =>
          have hnil := (List.append_eq_nil_iff.mp h.symm).1
          exact absurd hnil (hne b (hbs b (List.mem_cons_self ..)))
  | cons a as ih =>
      rw [List.forall_mem_cons] at has
      cases bs with
      | nil => exact absurd (List.append_eq_nil_iff.mp h).1 (hne a has.1)
      | cons b bs =>
          rw [List.forall_mem_cons] at hbs
          obtain ⟨hhead, htail⟩ := hcut a b _ _ has.1 hbs.1 h
          rw [List.map_cons, List.map_cons, hhead, ih has.2 hbs.2 htail]

theorem unlines_inj {ls ms : List (List Char)} (hls : ∀ l ∈ ls, '\n' ∉ l)
    (hms : ∀ l ∈ ms, '\n' ∉ l) (h : unlines ls = unlines ms) : ls = ms := by
  have hmap := map_eq_of_flatMap_eq (g := id) (P := fun l ↦ '\n' ∉ l) (by simp)
    (fun l m x y hl hm heq ↦ line_inj hl hm (by simpa using heq)) hls hms h
  rwa [List.map_id, List.map_id] at hmap

/-! ## Numbers -/

def decimal (n : ℕ) : List Char := Nat.toDigits 10 n

theorem decimal_inj {m n : ℕ} (h : decimal m = decimal n) : m = n := by
  rw [← Nat.ofDigitChars_ten_toDigits (n := m), ← Nat.ofDigitChars_ten_toDigits (n := n)]
  exact congrArg (Nat.ofDigitChars 10 · 0) h

theorem newline_notMem_decimal (n : ℕ) : '\n' ∉ decimal n := by
  intro h
  exact absurd (Nat.isDigit_of_mem_toDigits (by omega) (Nat.le_refl 10) h) (by decide)

/-- Two hexadecimal digits. -/
def hexPair (b : UInt8) : List Char :=
  [Nat.digitChar (b.toNat / 16), Nat.digitChar (b.toNat % 16)]

theorem replicate_append_toDigits (b : UInt8) :
    List.replicate (2 - (Nat.toDigits 16 b.toNat).length) '0' ++ Nat.toDigits 16 b.toNat =
      hexPair b := by
  have hb := b.toNat_lt
  rw [Nat.toDigits_eq_if (by omega)]
  split
  · rename_i hlt
    rw [hexPair, Nat.div_eq_of_lt hlt, Nat.mod_eq_of_lt hlt]
    rfl
  · rw [Nat.toDigits_of_lt_base (show b.toNat / 16 < 16 by omega)]
    rfl

theorem digitChar_inj {m n : ℕ} (hm : m < 16) (hn : n < 16)
    (h : Nat.digitChar m = Nat.digitChar n) : m = n := by
  have hall : ∀ i < 16, ∀ j < 16, Nat.digitChar i = Nat.digitChar j → i = j := by decide
  exact hall m hm n hn h

theorem hexDigits_inj {m n : ℕ} (hm : m < 16) (hn : n < 16)
    (h : Nat.toDigits 16 m = Nat.toDigits 16 n) : m = n := by
  rw [Nat.toDigits_of_lt_base hm, Nat.toDigits_of_lt_base hn, List.singleton_inj] at h
  exact digitChar_inj hm hn h

theorem newline_ne_digitChar {n : ℕ} (hn : n < 16) : '\n' ≠ Nat.digitChar n := by
  have hall : ∀ i < 16, '\n' ≠ Nat.digitChar i := by decide
  exact hall n hn

theorem newline_notMem_hexDigits {n : ℕ} (hn : n < 16) : '\n' ∉ Nat.toDigits 16 n := by
  rw [Nat.toDigits_of_lt_base hn, List.mem_singleton]
  exact newline_ne_digitChar hn

theorem hexPair_inj {b c : UInt8} (h : hexPair b = hexPair c) : b = c := by
  have hb := b.toNat_lt
  have hc := c.toNat_lt
  simp only [hexPair, List.cons.injEq, and_true] at h
  have hhigh := digitChar_inj (by omega) (by omega) h.1
  have hlow := digitChar_inj (by omega) (by omega) h.2
  exact UInt8.toNat_inj.mp (by omega)

theorem newline_notMem_hexPair (b : UInt8) : '\n' ∉ hexPair b := by
  have hb := b.toNat_lt
  simp only [hexPair, List.mem_cons, List.not_mem_nil, or_false, not_or]
  exact ⟨newline_ne_digitChar (by omega), newline_ne_digitChar (by omega)⟩

/-- A byte string as it is dumped: two digits and a blank for each byte. -/
def hexBytes (bs : List UInt8) : List Char := bs.flatMap fun b ↦ hexPair b ++ [' ']

theorem hexBytes_inj {bs cs : List UInt8} (h : hexBytes bs = hexBytes cs) : bs = cs := by
  have hmap := map_eq_of_flatMap_eq (g := id) (P := fun _ ↦ True) (by simp)
    (fun b c x y _ _ heq ↦ ?_) (by simp) (by simp) h
  · rwa [List.map_id, List.map_id] at hmap
  · obtain ⟨hhead, htail⟩ := List.append_inj heq rfl
    exact ⟨hexPair_inj (List.append_cancel_right hhead), htail⟩

theorem newline_notMem_hexBytes (bs : List UInt8) : '\n' ∉ hexBytes bs := by
  rw [hexBytes, List.mem_flatMap]
  rintro ⟨b, -, hb⟩
  rcases List.mem_append.mp hb with hb | hb
  · exact newline_notMem_hexPair b hb
  · simp at hb

end Text

namespace OutStream

/-- The dump of one byte sets the state it prints with. -/
theorem hexByte_eq (ss : OutStream) (b : UInt8) :
    ((((ss.setw 2).setfill '0').hex).num b.toNat).str " " =
      { text := ss.text ++ Text.hexBytes [b], base := 16, fill := '0', width := 0 } := by
  have hpair := Text.replicate_append_toDigits b
  simp only [setw, setfill, hex, num, insert, str, hpair]
  simp [Text.hexBytes]

end OutStream
