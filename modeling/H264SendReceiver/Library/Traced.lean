import Mathlib.Data.List.Basic
import Mathlib.Tactic.Common

/-!
# Computations that log their memory accesses

A `Traced ε α` is a value together with the events met while computing
it, oldest first. The value never depends on the log, so a statement about
results is proved through `val` and a statement about accesses through
`log`; the two projections commute with sequencing.
-/

structure Traced (ε α : Type) where
  val : α
  log : List ε
  deriving DecidableEq, Repr

namespace Traced

variable {ε α β : Type}

instance : Monad (Traced ε) where
  pure a := ⟨a, []⟩
  bind x f := ⟨(f x.val).val, x.log ++ (f x.val).log⟩

@[simp] theorem val_pure (a : α) : (pure a : Traced ε α).val = a := rfl

@[simp] theorem log_pure (a : α) : (pure a : Traced ε α).log = [] := rfl

@[simp] theorem val_bind (x : Traced ε α) (f : α → Traced ε β) :
    (x >>= f).val = (f x.val).val := rfl

@[simp] theorem log_bind (x : Traced ε α) (f : α → Traced ε β) :
    (x >>= f).log = x.log ++ (f x.val).log := rfl

theorem val_ite (c : Prop) [Decidable c] (x y : Traced ε α) :
    (if c then x else y).val = if c then x.val else y.val := apply_ite val c x y

theorem log_ite (c : Prop) [Decidable c] (x y : Traced ε α) :
    (if c then x else y).log = if c then x.log else y.log := apply_ite log c x y

theorem bind_pure_eq (x : Traced ε α) (f : α → β) :
    (x >>= fun a ↦ pure (f a)) = ⟨f x.val, x.log⟩ :=
  congrArg (mk (f x.val)) (List.append_nil x.log)

theorem bind_of_val {x : Traced ε α} {a : α} (h : x.val = a) (f : α → Traced ε β) :
    x >>= f = ⟨(f a).val, x.log ++ (f a).log⟩ := by
  rw [← h]
  rfl

theorem mk_bind (a : α) (es : List ε) (f : α → Traced ε β) :
    (⟨a, es⟩ : Traced ε α) >>= f = ⟨(f a).val, es ++ (f a).log⟩ := rfl

def access (e : ε) (a : α) : Traced ε α := ⟨a, [e]⟩

@[simp] theorem val_access (e : ε) (a : α) : (access e a).val = a := rfl

@[simp] theorem log_access (e : ε) (a : α) : (access e a).log = [e] := rfl

/-- Short-circuit conjunction: the right side is only evaluated, and its
accesses only made, when the left side holds. -/
def and (x y : Traced ε Bool) : Traced ε Bool := x >>= fun b ↦ if b then y else pure false

@[simp] theorem val_and (x y : Traced ε Bool) : (x.and y).val = (x.val && y.val) := by
  cases h : x.val <;> simp [and, h]

theorem log_and (x y : Traced ε Bool) :
    (x.and y).log = x.log ++ if x.val then y.log else [] := by
  cases h : x.val <;> simp [and, h]

theorem length_log_and_le (x y : Traced ε Bool) :
    (x.and y).log.length ≤ x.log.length + y.log.length := by
  rw [log_and, List.length_append]
  split <;> simp

def or (x y : Traced ε Bool) : Traced ε Bool := x >>= fun b ↦ if b then pure true else y

@[simp] theorem val_or (x y : Traced ε Bool) : (x.or y).val = (x.val || y.val) := by
  cases h : x.val <;> simp [or, h]

/-- The same computation, its events under other names. -/
def relabel {ζ : Type} (f : ε → ζ) (x : Traced ε α) : Traced ζ α := ⟨x.val, x.log.map f⟩

@[simp] theorem val_relabel {ζ : Type} (f : ε → ζ) (x : Traced ε α) : (x.relabel f).val = x.val :=
  rfl

/-- Every event of the computation satisfies `P`. -/
def Within (P : ε → Prop) (x : Traced ε α) : Prop := ∀ e ∈ x.log, P e

namespace Within

variable {P : ε → Prop} {x y : Traced ε α}

theorem pure (a : α) : Within P (Pure.pure a : Traced ε α) := by simp [Within]

theorem access {e : ε} (h : P e) (a : α) : Within P (access e a) := by simpa [Within] using h

theorem bind {f : α → Traced ε β} (hx : Within P x) (hf : Within P (f x.val)) :
    Within P (x >>= f) :=
  List.forall_mem_append.mpr ⟨hx, hf⟩

theorem ite {c : Prop} [Decidable c] (hx : c → Within P x) (hy : ¬ c → Within P y) :
    Within P (if c then x else y) := by
  split
  · exact hx ‹_›
  · exact hy ‹_›

theorem relabel_iff {ζ : Type} {f : ε → ζ} {Q : ζ → Prop} :
    (x.relabel f).Within Q ↔ x.Within fun e ↦ Q (f e) := List.forall_mem_map

theorem bind_iff {f : α → Traced ε β} :
    (x >>= f).Within P ↔ x.Within P ∧ (f x.val).Within P := List.forall_mem_append

variable {x y : Traced ε Bool}

theorem and (hx : Within P x) (hy : Within P y) : Within P (x.and y) :=
  hx.bind (ite (fun _ ↦ hy) fun _ ↦ pure false)

theorem or (hx : Within P x) (hy : Within P y) : Within P (x.or y) :=
  hx.bind (ite (fun _ ↦ pure true) fun _ ↦ hy)

end Within

end Traced
