import Mathlib.Data.Finset.Card

/-!
# Running actions of `EStateM`

Equations that push a run through the monad's operations, so that the result of an action can be
read off by cases on the results of its parts. For a loop without state that may fail, there is a
rule for what holds if it does not.
-/

namespace EStateM

variable {ε σ α β : Type}

theorem bind_apply (x : EStateM ε σ α) (f : α → EStateM ε σ β) (s : σ) :
    (x >>= f) s = match x s with
      | .ok a s' => f a s'
      | .error e s' => .error e s' := by
  change EStateM.bind x f s = _
  unfold EStateM.bind
  cases x s <;> rfl

theorem bind_of_error {x : EStateM ε σ α} {f : α → EStateM ε σ β} {s s' : σ} {e : ε}
    (h : x s = .error e s') : (x >>= f) s = .error e s' := by
  rw [bind_apply, h]

@[simp] theorem pure_apply (a : α) (s : σ) : (pure a : EStateM ε σ α) s = .ok a s := rfl

@[simp] theorem get_apply (s : σ) : (get : EStateM ε σ σ) s = .ok s s := rfl

@[simp] theorem set_apply (s s' : σ) : (set s' : EStateM ε σ PUnit) s = .ok ⟨⟩ s' := rfl

@[simp] theorem modify_apply (g : σ → σ) (s : σ) :
    (modify g : EStateM ε σ PUnit) s = .ok ⟨⟩ (g s) := rfl

@[simp] theorem throw_apply (e : ε) (s : σ) : (throw e : EStateM ε σ α) s = .error e s := rfl

@[simp] theorem ofExcept_ok (a : α) (s : σ) :
    (MonadExcept.ofExcept (Except.ok a : Except ε α) : EStateM ε σ α) s = .ok a s := rfl

@[simp] theorem ofExcept_error (e : ε) (s : σ) :
    (MonadExcept.ofExcept (Except.error e : Except ε α) : EStateM ε σ α) s = .error e s := rfl

theorem adaptExcept_apply {ε' : Type} (g : ε → ε') (x : EStateM ε σ α) (s : σ) :
    x.adaptExcept g s = match x s with
      | .ok a s' => .ok a s'
      | .error e s' => .error (g e) s' := by
  unfold EStateM.adaptExcept
  cases x s <;> rfl

def Result.state : Result ε σ α → σ
  | .ok _ s => s
  | .error _ s => s

@[simp] theorem Result.state_ok (a : α) (s : σ) : (Result.ok a s : Result ε σ α).state = s := rfl

@[simp] theorem Result.state_error (e : ε) (s : σ) :
    (Result.error e s : Result ε σ α).state = s := rfl

end EStateM

namespace Except

variable {ε ε' α β : Type}

theorem bind_eq_ok {x : Except ε α} {f : α → Except ε β} {b : β} :
    x >>= f = .ok b ↔ ∃ a, x = .ok a ∧ f a = .ok b := by
  cases x <;> simp [bind, Except.bind]

theorem map_eq_ok {x : Except ε α} {f : α → β} {b : β} :
    x.map f = .ok b ↔ ∃ a, x = .ok a ∧ f a = b := by
  cases x <;> simp [Except.map]

theorem mapError_eq_ok {g : ε → ε'} {x : Except ε α} {a : α} :
    x.mapError g = .ok a ↔ x = .ok a := by
  cases x <;> simp [Except.mapError]

/-- What holds of the elements that are left and of the value so far, and is kept by every pass that
does not fail, holds in the end. -/
theorem foldlM_induction {f : β → α → Except ε β} (P : List α → β → Prop)
    (step : ∀ a l b b', P (a :: l) b → f b a = .ok b' → P l b') {l : List α} {b b' : β}
    (hb : P l b) (h : l.foldlM f b = .ok b') : P [] b' := by
  induction l generalizing b with
  | nil =>
      cases h
      exact hb
  | cons a l ih =>
      rw [List.foldlM_cons, bind_eq_ok] at h
      obtain ⟨c, hc, hrest⟩ := h
      apply ih _ hrest
      exact step a l b c hb hc

end Except
