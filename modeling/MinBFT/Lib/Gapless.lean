import Mathlib.Tactic.Common

/-!
# Queues without gaps

The items of a queue carry numbers and are taken one after the other. A queue is gapless after `n`
when no item has a number more than one above `n` and all numbers before it. Exempt items may have
any number.
-/

variable {α : Type} {exempt : α → Prop} {number : α → ℕ}

def Gapless (exempt : α → Prop) (number : α → ℕ) : ℕ → List α → Prop
  | _, [] => True
  | n, a :: l => (exempt a ∨ number a ≤ n + 1) ∧ Gapless exempt number (max n (number a)) l

namespace Gapless

theorem mono {n n' : ℕ} {l : List α} (hle : n ≤ n') (h : Gapless exempt number n l) :
    Gapless exempt number n' l := by
  induction l generalizing n n' with
  | nil => trivial
  | cons a l ih =>
      obtain ⟨ha, hl⟩ := h
      refine ⟨ha.imp_right fun h => ?_, ih ?_ hl⟩
      · omega
      · omega

theorem of_le {n : ℕ} {l : List α} (h : ∀ a ∈ l, number a ≤ n + 1) :
    Gapless exempt number n l := by
  induction l with
  | nil => trivial
  | cons a l ih =>
      refine ⟨.inr (h a List.mem_cons_self), mono (Nat.le_max_left _ _) (ih fun x hx => ?_)⟩
      exact h x (.tail a hx)

theorem append {n : ℕ} {l r : List α} (h : Gapless exempt number n l)
    (h' : ∀ k, n ≤ k → (∀ a ∈ l, number a ≤ k) → Gapless exempt number k r) :
    Gapless exempt number n (l ++ r) := by
  induction l generalizing n with
  | nil => exact h' n (Nat.le_refl n) fun _ ha => absurd ha List.not_mem_nil
  | cons a l ih =>
      refine ⟨h.1, ih h.2 fun k hk hl => h' k (by omega) fun x hx => ?_⟩
      rcases List.mem_cons.mp hx with rfl | hx
      · omega
      · exact hl x hx

theorem left {n : ℕ} {l r : List α} (h : Gapless exempt number n (l ++ r)) :
    Gapless exempt number n l := by
  induction l generalizing n with
  | nil => trivial
  | cons a l ih => exact ⟨h.1, ih h.2⟩

theorem of_consecutive {n : ℕ} {l : List α} (h : l.map number = List.range' (n + 1) l.length) :
    Gapless exempt number n l := by
  induction l generalizing n with
  | nil => trivial
  | cons a l ih =>
      rw [List.map_cons, List.length_cons, List.range'_succ, List.cons.injEq] at h
      refine ⟨.inr (Nat.le_of_eq h.1), ih ?_⟩
      rw [h.1, Nat.max_eq_right (Nat.le_succ n)]
      exact h.2

/-- What is left once the first items are done. -/
theorem right {n k : ℕ} {l r : List α} (h : Gapless exempt number n (l ++ r)) (hn : n ≤ k)
    (hl : ∀ a ∈ l, number a ≤ k) : Gapless exempt number k r := by
  induction l generalizing n with
  | nil => exact h.mono hn
  | cons a l ih =>
      exact ih h.2 (Nat.max_le.mpr ⟨hn, hl a List.mem_cons_self⟩) fun x hx => hl x (.tail a hx)

end Gapless
