import Mathlib.Algebra.BigOperators.Group.Finset.Basic
import Mathlib.Algebra.GroupWithZero.Nat
import Mathlib.Algebra.Order.BigOperators.Group.Finset
import Mathlib.Tactic.Common

/-!
# Lists and sums of which one term changes

What stays the same of a list when one of its entries is replaced, and bounds on how a sum over a
list or a finite set changes when one of its terms does.
-/

theorem List.map_set_of_eq {α β : Type} {f : α → β} {l : List α} {k : ℕ} {a b : α}
    (h : l[k]? = some a) (hf : f b = f a) : (l.set k b).map f = l.map f := by
  obtain ⟨hlt, rfl⟩ := List.getElem?_eq_some_iff.mp h
  rw [List.map_set, hf, ← List.getElem_map f (h := by rwa [List.length_map]),
    List.set_getElem_self]

theorem List.sum_map_set {α : Type} {f : α → ℕ} {l : List α} {k : ℕ} {a b : α}
    (h : l[k]? = some a) : ((l.set k b).map f).sum + f a = (l.map f).sum + f b := by
  induction l generalizing k with
  | nil => cases h
  | cons x l ih =>
      cases k with
      | zero =>
          cases h
          simp only [List.set_cons_zero, List.map_cons, List.sum_cons]
          omega
      | succ k =>
          have hl := ih h
          simp only [List.set_cons_succ, List.map_cons, List.sum_cons]
          omega

theorem Finset.sum_add_le_sum_add {ι : Type} [DecidableEq ι] {s : Finset ι} {f g : ι → ℕ} {a : ι}
    {d e : ℕ} (ha : a ∈ s) (hsame : ∀ x ∈ s, x ≠ a → f x = g x) (h : f a + d ≤ g a + e) :
    ∑ x ∈ s, f x + d ≤ ∑ x ∈ s, g x + e := by
  have hrest : ∑ x ∈ s.erase a, f x = ∑ x ∈ s.erase a, g x := by
    apply Finset.sum_congr rfl
    intro x hx
    exact hsame x (Finset.mem_of_mem_erase hx) (Finset.ne_of_mem_erase hx)
  rw [← Finset.add_sum_erase s f ha, ← Finset.add_sum_erase s g ha, hrest]
  omega
