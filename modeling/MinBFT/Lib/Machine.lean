import Mathlib.Data.Option.Basic
import Mathlib.Tactic.Common

/-!
# State machines

A machine steps from state to state by labels, or is blocked. A run may be subject to a condition on
each of its steps, or be told by its labels.
-/

namespace Machine

variable {σ ℓ : Type} {step : σ → ℓ → Option σ} {start s s' : σ} {cond : σ → ℓ → Prop}

/-- The states reached by steps that all meet the condition. -/
inductive Reachable (step : σ → ℓ → Option σ) (start : σ) (cond : σ → ℓ → Prop) : σ → Prop where
  | start : Reachable step start cond start
  | step {s s' : σ} {l : ℓ} (h : Reachable step start cond s) (hcond : cond s l)
      (hstep : step s l = some s') : Reachable step start cond s'

/-- What holds at the start and is kept by every step holds in all states reached. -/
theorem Reachable.invariant {P : σ → Prop} (hstart : P start)
    (hstep : ∀ s l s', P s → cond s l → step s l = some s' → P s')
    (h : Reachable step start cond s) : P s := by
  induction h with
  | start => exact hstart
  | step _ hcond hs ih => exact hstep _ _ _ ih hcond hs

theorem Reachable.trans (h : Reachable step start cond s) (h' : Reachable step s cond s') :
    Reachable step start cond s' := by
  induction h' with
  | start => exact h
  | step _ hcond hs ih => exact ih.step hcond hs

/-- The state after a sequence of steps, if they are all possible and pass the check. -/
def exec (step : σ → ℓ → Option σ) (check : σ → ℓ → Bool) (s : σ) : List ℓ → Option σ
  | [] => some s
  | l :: ls => if check s l then (step s l).bind fun s' => exec step check s' ls else none

theorem Reachable.exec {check : σ → ℓ → Bool} {ls : List ℓ}
    (hcheck : ∀ s, ∀ l ∈ ls, check s l = true → cond s l) (h : Reachable step start cond s)
    (hexec : exec step check s ls = some s') : Reachable step start cond s' := by
  induction ls generalizing s with
  | nil =>
      cases hexec
      exact h
  | cons l ls ih =>
      rw [Machine.exec] at hexec
      split_ifs at hexec with hl
      obtain ⟨s₁, hstep, hexec⟩ := Option.bind_eq_some_iff.mp hexec
      exact ih (fun s l' hl' => hcheck s l' (List.mem_cons_of_mem _ hl'))
        (h.step (hcheck _ _ List.mem_cons_self hl) hstep) hexec

/-- A state with a property that an execution is found to end in. -/
theorem exists_reachable {check : σ → ℓ → Bool} {ls : List ℓ}
    (hcheck : ∀ s, ∀ l ∈ ls, check s l = true → cond s l) {P : σ → Bool}
    (h : (exec step check start ls).any P = true) :
    ∃ s, Reachable step start cond s ∧ P s = true := by
  obtain ⟨s, hexec, hs⟩ := (Option.any_eq_true P _).mp h
  exact ⟨s, Reachable.start.exec hcheck hexec, hs⟩

inductive Run (step : σ → ℓ → Option σ) (start : σ) : List ℓ → σ → Prop where
  | nil : Run step start [] start
  | snoc {ls : List ℓ} {s s' : σ} {l : ℓ} (h : Run step start ls s) (hstep : step s l = some s') :
      Run step start (ls ++ [l]) s'

variable {ls ls' : List ℓ}

theorem Run.invariant {P : List ℓ → σ → Prop} (hstart : P [] start)
    (hstep : ∀ ls s l s', P ls s → step s l = some s' → P (ls ++ [l]) s')
    (h : Run step start ls s) : P ls s := by
  induction h with
  | nil => exact hstart
  | snoc _ hs ih => exact hstep _ _ _ _ ih hs

theorem Run.reachable (h : Run step start ls s) : Reachable step start (fun _ _ => True) s := by
  induction h with
  | nil => exact .start
  | snoc _ hs ih => exact ih.step trivial hs

theorem Run.exec {check : σ → ℓ → Bool} (h : Run step start ls s)
    (hexec : exec step check s ls' = some s') : Run step start (ls ++ ls') s' := by
  induction ls' generalizing ls s with
  | nil =>
      cases hexec
      rwa [List.append_nil]
  | cons l ls' ih =>
      rw [Machine.exec] at hexec
      split_ifs at hexec
      obtain ⟨s₁, hstep, hexec⟩ := Option.bind_eq_some_iff.mp hexec
      have hrest := ih (h.snoc hstep) hexec
      rwa [List.append_assoc] at hrest

theorem exists_run {check : σ → ℓ → Bool} {P : σ → Bool}
    (h : (Machine.exec step check start ls).any P = true) :
    ∃ s, Run step start ls s ∧ P s = true := by
  obtain ⟨s, hexec, hs⟩ := (Option.any_eq_true P _).mp h
  exact ⟨s, Run.nil.exec hexec, hs⟩

end Machine
