import Mathlib.Data.List.Basic
import Mathlib.Tactic.Common

/-!
# Reading a growing log

A reader looks from time to time at what has been added to a log since it last looked, and hands it
on one entry after the other.
-/

namespace Cursor

variable {α : Type} {log emitted pending : List α} {next : ℕ}

/-- The reader has looked at `next` entries. It has handed on `emitted` and holds `pending`. -/
structure Reads (log emitted pending : List α) (next : ℕ) : Prop where
  eq : emitted ++ pending = log.take next
  le : next ≤ log.length

theorem reads_zero (log : List α) : Reads log [] [] 0 := ⟨by simp, Nat.zero_le _⟩

theorem Reads.append (h : Reads log emitted pending next) (l : List α) :
    Reads (log ++ l) emitted pending next := by
  refine ⟨?_, ?_⟩
  · rw [h.eq, List.take_append_of_le_length h.le]
  · rw [List.length_append]
    exact Nat.le_add_right_of_le h.le

theorem Reads.emit {a : α} (h : Reads log emitted (a :: pending) next) :
    Reads log (emitted ++ [a]) pending next :=
  ⟨by rw [List.append_assoc, List.singleton_append, h.eq], h.le⟩

theorem Reads.look (h : Reads log emitted [] next) :
    Reads log emitted (log.drop next) log.length := by
  refine ⟨?_, Nat.le_refl _⟩
  have heq := h.eq
  rw [List.append_nil] at heq
  rw [heq, List.take_append_drop, List.take_length]

theorem Reads.isPrefix (h : Reads log emitted pending next) : emitted <+: log :=
  (List.prefix_append emitted pending).trans (h.eq ▸ List.take_prefix next log)

theorem Reads.drained (h : Reads log emitted [] log.length) : emitted = log := by
  have heq := h.eq
  rwa [List.append_nil, List.take_length] at heq

end Cursor
