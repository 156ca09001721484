import MinBFT.Goroutines

/-!
# View leases

The view state under the goroutines of a replica. `HoldView`, `AdvanceExpectedView` and
`AdvanceCurrentView` of package `viewstate` take the lock of the view state and leave it to the
caller to release it. Until then, the numbers that have been returned are the actual ones, whatever
the other goroutines do.
-/

namespace MinBFT

open Locking

structure ViewNumbers where
  current : UInt64
  expected : UInt64

inductive AdvanceCall where
  | advanceExpectedView (view : UInt64)
  | advanceCurrentView (view : UInt64)

def AdvanceCall.apply (s : ViewNumbers) : AdvanceCall → ViewNumbers
  | .advanceExpectedView view => if s.expected < view then { s with expected := view } else s
  | .advanceCurrentView view => if s.current < view then { s with current := view } else s

/-- Goroutines with the view numbers, and the numbers that each goroutine has seen when it last took
the lock. -/
structure ViewLeases where
  threads : List (Locking.Thread Lock)
  numbers : ViewNumbers
  seen : ℕ → ViewNumbers

namespace ViewLeases

def Holds (s : ViewLeases) (i : ℕ) : Prop :=
  ∃ t m, s.threads[i]? = some t ∧ (.view, m) ∈ t.held

def start (gs : List Goroutine) : ViewLeases := ⟨Goroutine.start gs, ⟨0, 0⟩, fun _ => ⟨0, 0⟩⟩

def taken (i : ℕ) (t : Locking.Thread Lock) (numbers : ViewNumbers) (s : ViewLeases) : ViewLeases :=
  ⟨s.threads.set i t, numbers, Function.update s.seen i numbers⟩

def moved (i : ℕ) (t : Locking.Thread Lock) (s : ViewLeases) : ViewLeases :=
  { s with threads := s.threads.set i t }

/-- The view numbers change when a goroutine has got the lock for it, and in no other step. -/
inductive Step (s : ViewLeases) : ViewLeases → Prop where
  | holdView {i : ℕ} {next : Prog Lock} {held : List (Lock × Mode)}
      (ht : s.threads[i]? = some ⟨.lock .view .shared next, held⟩)
      (hfree : ¬ Writing s.threads .view) :
      Step s (s.taken i ⟨next, (.view, .shared) :: held⟩ s.numbers)
  | advance {i : ℕ} {next : Prog Lock} {held : List (Lock × Mode)} (call : AdvanceCall)
      (ht : s.threads[i]? = some ⟨.pending .view next, held⟩) (hfree : ¬ Held s.threads .view) :
      Step s (s.taken i ⟨next, (.view, .exclusive) :: held⟩ (call.apply s.numbers))
  | other {i : ℕ} {t t' : Locking.Thread Lock} (ht : s.threads[i]? = some t)
      (hstep : Move s.threads t t' ∨ Pass t t')
      (hview : ∀ m, (.view, m) ∈ t'.held → (.view, m) ∈ t.held) : Step s (s.moved i t')

inductive Reachable (gs : List Goroutine) : ViewLeases → Prop where
  | start : Reachable gs (start gs)
  | step {s s' : ViewLeases} (h : Reachable gs s) (hstep : Step s s') : Reachable gs s'

variable {gs : List Goroutine} {s s' : ViewLeases} {i j : ℕ}

/-- The goroutines go through a run. -/
theorem Reachable.run (h : Reachable gs s) : ∃ n, Run (Goroutine.start gs) n s.threads := by
  induction h with
  | start => exact ⟨0, .start⟩
  | step _ hstep ih =>
      obtain ⟨n, hrun⟩ := ih
      cases hstep with
      | holdView ht hfree => exact ⟨n + 1, hrun.step ht (.inl (.shared hfree))⟩
      | advance call ht hfree => exact ⟨n + 1, hrun.step ht (.inl (.exclusive hfree))⟩
      | other ht hstep => exact ⟨n + 1, hrun.step ht hstep⟩

theorem holds_set {t : Locking.Thread Lock} {numbers : ViewNumbers} {seen : ℕ → ViewNumbers}
    (h : Holds ⟨s.threads.set i t, numbers, seen⟩ j) : j = i ∧ (∃ m, (.view, m) ∈ t.held) ∨
      j ≠ i ∧ s.Holds j := by
  obtain ⟨u, m, hu, hm⟩ := h
  rw [List.getElem?_set] at hu
  split_ifs at hu with hij hlt
  · cases hu
    exact .inl ⟨hij.symm, m, hm⟩
  · exact .inr ⟨Ne.symm hij, u, m, hu, hm⟩

theorem Holds.held (h : s.Holds i) : Held s.threads .view := by
  obtain ⟨t, m, ht, hm⟩ := h
  exact ⟨t, List.mem_of_getElem? ht, m, hm⟩

/-- A goroutine that holds the view sees the numbers as they are. -/
theorem Reachable.seen (h : Reachable gs s) (hi : s.Holds i) : s.seen i = s.numbers := by
  induction h with
  | start =>
      obtain ⟨t, m, ht, hm⟩ := hi
      obtain ⟨g, -, rfl⟩ := List.mem_map.mp (List.mem_of_getElem? ht)
      cases hm
  | @step s s' _ hstep ih =>
      cases hstep with
      | holdView ht hfree =>
          rcases holds_set hi with ⟨rfl, -⟩ | ⟨hne, hi⟩
          · exact Function.update_self ..
          · exact (Function.update_of_ne hne ..).trans (ih hi)
      | advance call ht hfree =>
          rcases holds_set hi with ⟨rfl, -⟩ | ⟨hne, hi⟩
          · exact Function.update_self ..
          · exact absurd hi.held hfree
      | @other k t t' ht hstep hview =>
          rcases holds_set hi with ⟨rfl, m, hm⟩ | ⟨hne, hi⟩
          · exact ih ⟨t, m, ht, hview m hm⟩
          · exact ih hi

inductive Holding (i : ℕ) (s : ViewLeases) : ViewLeases → Prop where
  | refl (h : s.Holds i) : Holding i s s
  | step {s₁ s₂ : ViewLeases} (h : Holding i s s₁) (hstep : Step s₁ s₂) (hi : s₂.Holds i) :
      Holding i s s₂

theorem Holding.holds (h : Holding i s s') : s'.Holds i := by
  cases h with
  | refl h => exact h
  | step _ _ hi => exact hi

theorem Holding.holds_start (h : Holding i s s') : s.Holds i := by
  induction h with
  | refl hi => exact hi
  | step _ _ _ ih => exact ih

theorem Step.numbers_of_held (h : Step s s') (hheld : Held s.threads .view) :
    s'.numbers = s.numbers := by
  cases h with
  | holdView => rfl
  | advance _ _ hfree => exact absurd hheld hfree
  | other => rfl

theorem le_apply (call : AdvanceCall) (v : ViewNumbers) :
    v.current ≤ (call.apply v).current ∧ v.expected ≤ (call.apply v).expected := by
  cases call with
  | advanceExpectedView view =>
      simp only [AdvanceCall.apply]
      split_ifs with hlt
      · exact ⟨UInt64.le_refl _, UInt64.le_of_lt hlt⟩
      · exact ⟨UInt64.le_refl _, UInt64.le_refl _⟩
  | advanceCurrentView view =>
      simp only [AdvanceCall.apply]
      split_ifs with hlt
      · exact ⟨UInt64.le_of_lt hlt, UInt64.le_refl _⟩
      · exact ⟨UInt64.le_refl _, UInt64.le_refl _⟩

theorem Step.le_numbers (h : Step s s') :
    s.numbers.current ≤ s'.numbers.current ∧ s.numbers.expected ≤ s'.numbers.expected := by
  cases h with
  | holdView => exact ⟨UInt64.le_refl _, UInt64.le_refl _⟩
  | advance call => exact le_apply call s.numbers
  | other => exact ⟨UInt64.le_refl _, UInt64.le_refl _⟩

theorem Holding.reachable (h : Holding i s s') (hs : Reachable gs s) : Reachable gs s' := by
  induction h with
  | refl => exact hs
  | step _ hstep _ ih => exact ih.step hstep

theorem Holding.numbers (h : Holding i s s') : s'.numbers = s.numbers := by
  induction h with
  | refl => rfl
  | step h hstep _ ih => exact (hstep.numbers_of_held h.holds.held).trans ih

theorem Holding.seen (h : Holding i s s') (hs : Reachable gs s) : s'.seen i = s.seen i :=
  calc s'.seen i = s'.numbers := (h.reachable hs).seen h.holds
    _ = s.numbers := h.numbers
    _ = s.seen i := (hs.seen h.holds_start).symm

/-- Whatever the goroutines of a replica do, one that holds the view has seen the actual numbers,
and they stay as they are until it releases the view. They never get smaller. -/
theorem view_kept (h : Reachable gs s) :
    (∃ n, Run (Goroutine.start gs) n s.threads) ∧
      (∀ i, s.Holds i → s.seen i = s.numbers) ∧
      (∀ i s', Holding i s s' → s'.numbers = s.numbers ∧ s'.seen i = s.seen i) ∧
      ∀ s', Step s s' →
        s.numbers.current ≤ s'.numbers.current ∧ s.numbers.expected ≤ s'.numbers.expected := by
  refine ⟨h.run, ?_, ?_, ?_⟩
  · intro i hi
    exact h.seen hi
  · intro i s' hrun
    exact ⟨hrun.numbers, hrun.seen h⟩
  · intro s' hstep
    exact hstep.le_numbers

end ViewLeases

namespace Concrete

/-- A request is being processed. -/
theorem view_kept_of_request : ∃ gs s, ViewLeases.Reachable gs s ∧ s.Holds 0 ∧
    s.seen 0 = s.numbers := by
  have hfree : ¬ Writing (ViewLeases.start [.stream [(.request ⟨7, 1, [], []⟩,
      ⟨[], [], [], []⟩)]]).threads .view := by
    rintro ⟨t, ht, hwriting⟩
    cases List.mem_singleton.mp ht
    rcases hwriting with hheld | ⟨next, hnext⟩
    · cases hheld
    · cases hnext
  have hreach := ViewLeases.Reachable.start.step (.holdView (i := 0) rfl hfree)
  refine ⟨_, _, hreach, ?_, (ViewLeases.view_kept hreach).2.1 0 ?_⟩
  · exact ⟨_, .shared, rfl, List.mem_cons_self⟩
  · exact ⟨_, .shared, rfl, List.mem_cons_self⟩

end Concrete

end MinBFT
