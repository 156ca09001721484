import Mathlib.Data.List.Basic
import Mathlib.Data.List.Nodup
import Mathlib.Tactic.Common

/-!
# Sequential objects

An object takes operations one after the other and returns a result for each. Concurrent callers are
served as by the object if their operations can be put in one order in which the object would have
returned the same results. When such an order only ever grows at its end, it also keeps to the order
in which calls return before others begin.
-/

namespace Sequential

variable {σ α β γ : Type}

/-- There may be operations that the object does not return from. -/
structure Object (σ α β : Type) where
  init : σ
  step : σ → α → Option (σ × β)

namespace Object

variable (o : Object σ α β)

def run (ops : List α) : Option σ := ops.foldlM (fun s a => (o.step s a).map (·.1)) o.init

def result (ops : List α) (k : ℕ) : Option β :=
  ops[k]?.bind fun a => (o.run (ops.take k)).bind fun s => (o.step s a).map (·.2)

def comap (f : γ → α) : Object σ γ β := ⟨o.init, fun s c => o.step s (f c)⟩

variable {o}

theorem run_comap (f : γ → α) (ops : List γ) : (o.comap f).run ops = o.run (ops.map f) := by
  rw [run, run, List.foldlM_map]
  rfl

theorem result_comap (f : γ → α) (ops : List γ) (k : ℕ) :
    (o.comap f).result ops k = o.result (ops.map f) k := by
  rw [result, result, List.getElem?_map, ← List.map_take, run_comap]
  cases ops[k]? with
  | none => rfl
  | some c => rfl

/-- One more operation. -/
theorem append {ops : List α} {a : α} {b : β} {s s' : σ} (hrun : o.run ops = some s)
    (hstep : o.step s a = some (s', b)) :
    o.run (ops ++ [a]) = some s' ∧ o.result (ops ++ [a]) ops.length = some b := by
  constructor
  · rw [run] at hrun ⊢
    rw [List.foldlM_append, hrun]
    simp [hstep]
  · simp [result, hrun, hstep]

/-- Later operations do not change the result. -/
theorem result_of_prefix {ops ops' : List α} {k : ℕ} {b : β} (h : ops <+: ops')
    (hk : o.result ops k = some b) : o.result ops' k = some b := by
  obtain ⟨a, ha, -⟩ := Option.bind_eq_some_iff.mp hk
  obtain ⟨hlt, -⟩ := List.getElem?_eq_some_iff.mp ha
  obtain ⟨rest, rfl⟩ := h
  rw [result] at hk ⊢
  rw [List.getElem?_append_left hlt, List.take_append_of_le_length (Nat.le_of_lt hlt)]
  exact hk

end Object

/-- What callers know: which operations have been invoked, and what has been returned. -/
structure Calls (α β : Type) where
  invoked : α → Prop
  returned : α → β → Prop

/-- The operations in one order, which explains every result. -/
structure Linearization (o : Object σ α β) (calls : Calls α β) (ops : List α) : Prop where
  nodup : ops.Nodup
  invoked : ∀ a ∈ ops, calls.invoked a
  returned : ∀ a b, calls.returned a b → ∃ k, ops[k]? = some a ∧ o.result ops k = some b

/-- An operation that returned before another was invoked comes before it. -/
theorem Linearization.lt_of_returned {o : Object σ α β} {calls calls' : Calls α β}
    {ops ops' : List α} (h : Linearization o calls ops) (h' : Linearization o calls' ops')
    (hpre : ops <+: ops') {a a' : α} {b : β} (hret : calls.returned a b)
    (hinv : ¬ calls.invoked a') {i j : ℕ} (hi : ops'[i]? = some a) (hj : ops'[j]? = some a') :
    i < j := by
  obtain ⟨k, hk, -⟩ := h.returned a b hret
  obtain ⟨hlt, -⟩ := List.getElem?_eq_some_iff.mp hk
  obtain ⟨rest, rfl⟩ := hpre
  have hki : (ops ++ rest)[k]? = some a := by
    rw [List.getElem?_append_left hlt]
    exact hk
  have hik : i = k := by
    apply (List.getElem?_inj (List.getElem?_eq_some_iff.mp hi).1 h'.nodup).mp
    rw [hi, hki]
  have hle : ops.length ≤ j := by
    by_contra hlt'
    rw [List.getElem?_append_left (by omega)] at hj
    exact hinv (h.invoked a' (List.mem_of_getElem? hj))
  omega

end Sequential
