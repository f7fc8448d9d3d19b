/-
# Reads of a buffer

A function of a buffer in memory together with the spans of it that it reads, in their order: what a parser
makes of a buffer, and whether it stays inside. There are bytes in memory past the end of the buffer;
a span that goes past it has some of them.

Key definitions: `Reads`, `span`, `Inside`, `memmem`.
Key theorems: `inside_bind`, `inside_ite`, `inside_guard`, `memmem_span`.
-/
import Mathlib.Data.List.Infix
import Mathlib.Tactic.Common

/-- A value, and the spans that were read for it: each an offset and a length. -/
structure Reads (α : Type) where
  spans : List (ℕ × ℕ)
  val : α

namespace Reads

instance : Monad Reads where
  pure x := ⟨[], x⟩
  bind r f := ⟨r.spans ++ (f r.val).spans, (f r.val).val⟩

/-- The bytes of a span. -/
def span (mem : ℕ → UInt8) (off n : ℕ) : Reads (List UInt8) := ⟨[(off, n)], (List.range n).map fun i => mem (off + i)⟩

/-- One byte. -/
def byte (mem : ℕ → UInt8) (off : ℕ) : Reads UInt8 := ⟨[(off, 1)], mem off⟩

/-- All that is read lies in the first `len` bytes. -/
def Inside {α : Type} (len : ℕ) (r : Reads α) : Prop := ∀ p ∈ r.spans, p.1 + p.2 ≤ len

variable {α β : Type} {len : ℕ}

@[simp] theorem val_pure (x : α) : (pure x : Reads α).val = x := rfl

@[simp] theorem val_bind (r : Reads α) (f : α → Reads β) : (r >>= f).val = (f r.val).val := rfl

@[simp] theorem val_span (mem : ℕ → UInt8) (off n : ℕ) :
    (span mem off n).val = (List.range n).map fun i => mem (off + i) := rfl

@[simp] theorem val_byte (mem : ℕ → UInt8) (off : ℕ) : (byte mem off).val = mem off := rfl

@[simp] theorem inside_pure (x : α) : Inside len (pure x) := fun _ h => absurd h List.not_mem_nil

/-- What is read in turn is inside when each part is. -/
@[simp] theorem inside_bind (r : Reads α) (f : α → Reads β) :
    Inside len (r >>= f) ↔ Inside len r ∧ Inside len (f r.val) := List.forall_mem_append

@[simp] theorem inside_span (mem : ℕ → UInt8) (off n : ℕ) : Inside len (span mem off n) ↔ off + n ≤ len :=
  List.forall_mem_singleton

@[simp] theorem inside_byte (mem : ℕ → UInt8) (off : ℕ) : Inside len (byte mem off) ↔ off + 1 ≤ len :=
  List.forall_mem_singleton

/-- A test goes one way or the other. -/
theorem inside_ite {p : Prop} [Decidable p] (r r' : Reads α) :
    Inside len (if p then r else r') ↔ (p → Inside len r) ∧ (¬ p → Inside len r') := by
  by_cases h : p
  · rw [if_pos h]
    exact ⟨fun hr => ⟨fun _ => hr, fun hn => absurd h hn⟩, fun hr => hr.1 h⟩
  · rw [if_neg h]
    exact ⟨fun hr => ⟨fun hp => absurd hp h, fun _ => hr⟩, fun hr => hr.2 h⟩

/-- What is read only where a test fails. -/
theorem inside_guard {p : Prop} [Decidable p] (x : α) (r : Reads α) :
    Inside len (if p then pure x else r) ↔ (¬ p → Inside len r) := by
  rw [inside_ite, and_iff_right fun _ => inside_pure x]

/-- Where a needle is found first. -/
def memmem (ned hay : List UInt8) : Option ℕ := hay.tails.findIdx? fun t => decide (ned <+: t)

/-- A needle is where it is found. -/
theorem memmem_some {ned hay : List UInt8} {k : ℕ} (h : memmem ned hay = some k) : ned <+: hay.drop k := by
  obtain ⟨hk, hp, -⟩ := List.findIdx?_eq_some_iff_getElem.mp h
  rw [List.getElem_tails] at hp
  exact of_decide_eq_true hp

/-- A needle that is found in a span stands in the memory there, inside the span. -/
theorem memmem_span {ned : List UInt8} {mem : ℕ → UInt8} {off n k : ℕ} (h : memmem ned (span mem off n).val = some k)
    (hpos : ned ≠ []) : k + ned.length ≤ n ∧ ∀ j (hj : j < ned.length), mem (off + k + j) = ned[j] := by
  have hp := memmem_some h
  have hlen := hp.length_le
  rw [List.length_drop, val_span, List.length_map, List.length_range] at hlen
  have hned := List.length_pos_of_ne_nil hpos
  refine ⟨by omega, fun j hj => ?_⟩
  have hget := hp.getElem hj
  rw [List.getElem_drop] at hget
  simp only [val_span, List.getElem_map, List.getElem_range] at hget
  rw [hget, Nat.add_assoc]

end Reads
