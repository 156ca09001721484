import MinBFT.BackoffTimer

/-!
# The timers of a client

`timerState` of package `clientstate`: one timer for the request of a client processed last, and
another one for the time until it is prepared. `Start` stops the timer started before, and `Stop`
stops the timer only if it has been started for the same sequence number. So no more than one timer
can be running for a client, and it is the one of the last `Start`.

The duration is asked for in each `Start`, and may be another one each time. There is no timer when
it is not positive.
-/

namespace MinBFT

open BackoffTimer (Underlying Status)

/-- A `timerState` together with all underlying timers in the order in which they have been created.
The field `timer` is an index. -/
structure TimerState (F : Type) where
  timer : Option ℕ
  seq : UInt64
  timers : List (Underlying F)

namespace TimerState

variable {F : Type}

def new : TimerState F := ⟨none, 0, []⟩

def halt (s : TimerState F) : List (Underlying F) :=
  match s.timer with
  | some i => s.timers.modify i Underlying.stop
  | none => s.timers

/-- `Start`, with what `s.timeout()` returns. -/
def start (timeout : Int64) (seq : UInt64) (handleTimeout : F) (s : TimerState F) : TimerState F :=
  if timeout ≤ 0 then { s with seq, timers := s.halt }
  else ⟨some s.halt.length, seq, s.halt ++ [⟨timeout, handleTimeout, .running⟩]⟩

def stopAny (s : TimerState F) : TimerState F := { s with timer := none, timers := s.halt }

def stop (seq : UInt64) (s : TimerState F) : TimerState F := if s.seq ≠ seq then s else s.stopAny

def expire (i : ℕ) (s : TimerState F) : Option (F × TimerState F) :=
  match s.timers[i]? with
  | some u =>
      if u.status = .running then
        some (u.callback, { s with timers := s.timers.set i { u with status := .expired } })
      else none
  | none => none

theorem getElem?_halt (s : TimerState F) (i : ℕ) : s.halt[i]? =
    (s.timers[i]?).map fun u => if s.timer = some i then u.stop else u := by
  unfold halt
  cases s.timer with
  | none => simp
  | some j =>
      rw [List.getElem?_modify]
      by_cases hj : j = i <;> simp [hj]

@[simp] theorem length_halt (s : TimerState F) : s.halt.length = s.timers.length := by
  unfold halt
  cases s.timer with
  | none => rfl
  | some i => exact List.length_modify Underlying.stop s.timers i

theorem stop_not_running (u : Underlying F) : u.stop.status ≠ .running := by
  unfold Underlying.stop
  split_ifs with h
  · simp
  · exact h

theorem expire_eq_some {s s' : TimerState F} {i : ℕ} {f : F} (h : s.expire i = some (f, s')) :
    ∃ u, s.timers[i]? = some u ∧ u.status = .running ∧ u.callback = f ∧
      s' = { s with timers := s.timers.set i { u with status := .expired } } := by
  unfold expire at h
  split at h
  · rename_i u hu
    split_ifs at h with hrun
    cases h
    exact ⟨u, hu, hrun, rfl, rfl⟩
  · cases h

inductive Event (F : Type) where
  | start (timeout : Int64) (seq : UInt64) (handleTimeout : F)
  | stop (seq : UInt64)
  | stopAny
  | expire (i : ℕ)

def step (s : TimerState F) : Event F → List F × TimerState F
  | .start timeout seq f => ([], s.start timeout seq f)
  | .stop seq => ([], s.stop seq)
  | .stopAny => ([], s.stopAny)
  | .expire i => match s.expire i with
      | some (f, s') => ([f], s')
      | none => ([], s)

/-- What the timers of a client are for: there is a single one, which is running or not. -/
structure Slot (F : Type) where
  created : ℕ
  seq : UInt64
  running : Option (ℕ × F)

def Slot.start (timeout : Int64) (seq : UInt64) (f : F) (s : Slot F) : Slot F :=
  if timeout ≤ 0 then ⟨s.created, seq, none⟩ else ⟨s.created + 1, seq, some (s.created, f)⟩

def Slot.step (s : Slot F) : Event F → List F × Slot F
  | .start timeout seq f => ([], s.start timeout seq f)
  | .stop seq => ([], if s.seq = seq then { s with running := none } else s)
  | .stopAny => ([], { s with running := none })
  | .expire i => match s.running with
      | some (j, f) => if j = i then ([f], { s with running := none }) else ([], s)
      | none => ([], s)

structure Represents (s : TimerState F) (a : Slot F) : Prop where
  created : s.timers.length = a.created
  seq : s.seq = a.seq
  timer : ∀ i f, a.running = some (i, f) → s.timer = some i
  running : ∀ i f, a.running = some (i, f) ↔
    ∃ u, s.timers[i]? = some u ∧ u.status = .running ∧ u.callback = f

namespace Represents

variable {s : TimerState F} {a : Slot F}

theorem halt (h : Represents s a) {i : ℕ} {u : Underlying F} (hu : s.halt[i]? = some u) :
    u.status ≠ .running := by
  rw [getElem?_halt] at hu
  obtain ⟨v, hv, rfl⟩ := Option.map_eq_some_iff.mp hu
  by_cases htimer : s.timer = some i
  · rw [if_pos htimer]
    exact stop_not_running v
  · rw [if_neg htimer]
    intro hrun
    exact htimer (h.timer i v.callback ((h.running i _).mpr ⟨v, hv, hrun, rfl⟩))

theorem stopAny (h : Represents s a) : Represents s.stopAny { a with running := none } := by
  refine ⟨(length_halt s).trans h.created, h.seq, ?_, ?_⟩
  · intro i f hi
    cases hi
  · intro i f
    constructor
    · intro hi
      cases hi
    · rintro ⟨u, hu, hrun, -⟩
      exact absurd hrun (h.halt hu)

theorem start (h : Represents s a) (timeout : Int64) (seq : UInt64) (f : F) :
    Represents (s.start timeout seq f) (a.start timeout seq f) := by
  have hhalted := h.stopAny
  unfold TimerState.start Slot.start
  split_ifs with hoff
  · refine ⟨hhalted.created, rfl, ?_, hhalted.running⟩
    intro i g hi
    cases hi
  · have hlen : s.halt.length = a.created := hhalted.created
    refine ⟨?_, rfl, ?_, ?_⟩
    · rw [List.length_append, hlen, List.length_singleton]
    · intro i g hi
      cases hi
      exact congrArg some hlen
    · intro i g
      rw [List.getElem?_append, hlen]
      split_ifs with hlt
      · constructor
        · intro hi
          cases hi
          omega
        · rintro ⟨u, hu, hrun, -⟩
          exact absurd hrun (h.halt hu)
      · constructor
        · intro hi
          cases hi
          exact ⟨_, by rw [Nat.sub_self]; rfl, rfl, rfl⟩
        · rintro ⟨u, hu, -, rfl⟩
          rw [List.getElem?_singleton] at hu
          split_ifs at hu with hi
          cases hu
          rw [show i = a.created by omega]

/-- Only the timer that is running can expire. -/
theorem expire (h : Represents s a) (i : ℕ) :
    (s.step (.expire i)).1 = (a.step (.expire i)).1 ∧
      Represents (s.step (.expire i)).2 (a.step (.expire i)).2 := by
  cases hs : s.expire i with
  | none =>
      have hidle : ∀ f, a.running ≠ some (i, f) := by
        intro f hf
        obtain ⟨u, hu, hrun, -⟩ := (h.running i f).mp hf
        simp [TimerState.expire, hu, hrun] at hs
      have habs : a.step (.expire i) = ([], a) := by
        cases hr : a.running with
        | none => simp [Slot.step, hr]
        | some r =>
            have hne : r.1 ≠ i := by
              rintro rfl
              exact hidle r.2 hr
            simp [Slot.step, hr, hne]
      simp only [TimerState.step, hs, habs]
      exact ⟨trivial, h⟩
  | some r =>
      obtain ⟨u, hu, hrun, hf, hs'⟩ := expire_eq_some hs
      have hslot := (h.running i u.callback).mpr ⟨u, hu, hrun, rfl⟩
      have habs : a.step (.expire i) = ([u.callback], { a with running := none }) := by
        simp [Slot.step, hslot]
      simp only [TimerState.step, hs, habs, hf, hs']
      refine ⟨trivial, ?_, h.seq, ?_, ?_⟩
      · rw [List.length_set]
        exact h.created
      · intro j f hj
        cases hj
      · intro j f
        constructor
        · intro hj
          cases hj
        · rintro ⟨v, hv, hrun', -⟩
          rw [List.getElem?_set] at hv
          split_ifs at hv with hij
          · cases hv
            cases hrun'
          · -- two timers would be running
            have hother := (h.running j v.callback).mpr ⟨v, hv, hrun', rfl⟩
            have heq := Option.some.inj (hslot.symm.trans hother)
            exact absurd (congrArg Prod.fst heq) hij

theorem step (h : Represents s a) (e : Event F) :
    (s.step e).1 = (a.step e).1 ∧ Represents (s.step e).2 (a.step e).2 := by
  cases e with
  | start timeout seq f => exact ⟨rfl, h.start timeout seq f⟩
  | stop seq =>
      refine ⟨rfl, ?_⟩
      simp only [TimerState.step, TimerState.stop, Slot.step, h.seq]
      by_cases hseq : a.seq = seq
      · rw [if_neg (not_not_intro hseq), if_pos hseq]
        exact h.stopAny
      · rw [if_pos hseq, if_neg hseq]
        exact h
  | stopAny => exact ⟨rfl, h.stopAny⟩
  | expire i => exact h.expire i

end Represents

def exec (s : TimerState F) : List (Event F) → List (List F) × TimerState F
  | [] => ([], s)
  | e :: es => let r := (s.step e).2.exec es; ((s.step e).1 :: r.1, r.2)

def Slot.exec (a : Slot F) : List (Event F) → List (List F) × Slot F
  | [] => ([], a)
  | e :: es => let r := (a.step e).2.exec es; ((a.step e).1 :: r.1, r.2)

/-- A `timerState` works like a single timer, whatever durations it is given: of all the timers it
has created no other one than the one of the last `Start` is running or can invoke its callback, and
not after a `Stop` for the same sequence number, nor after a `Start` that has been given no positive
duration. -/
theorem refines_slot (es : List (Event F)) :
    (new.exec es).1 = (Slot.exec ⟨0, 0, none⟩ es).1 ∧
      Represents (new.exec es).2 (Slot.exec ⟨0, 0, none⟩ es).2 := by
  have hnew : Represents new (⟨0, 0, none⟩ : Slot F) := by
    refine ⟨rfl, rfl, ?_, ?_⟩
    · intro i f hi
      cases hi
    · intro i f
      simp [new]
  generalize (new : TimerState F) = s, (⟨0, 0, none⟩ : Slot F) = a at hnew
  induction es generalizing s a with
  | nil => exact ⟨rfl, hnew⟩
  | cons e es ih =>
      obtain ⟨hcallbacks, hstep⟩ := hnew.step e
      obtain ⟨hrest, hend⟩ := ih _ _ hstep
      exact ⟨List.cons_eq_cons.mpr ⟨hcallbacks, hrest⟩, hend⟩

example : ((new : TimerState ℕ).exec [.start 5 1 7, .start 0 2 8, .expire 0]).1 = [[], [], []] := by
  decide

/-- The last `Start` was for this sequence number, and its timer has not been stopped. -/
structure Armed (s : TimerState F) (seq : UInt64) (f : F) : Prop where
  seq : s.seq = seq
  timer : ∃ i u, s.timer = some i ∧ s.timers[i]? = some u ∧ u.callback = f ∧
    u.status ≠ .stopped

theorem armed_start {timeout : Int64} (h : 0 < timeout) (seq : UInt64) (f : F) (s : TimerState F) :
    (s.start timeout seq f).Armed seq f := by
  unfold start
  rw [if_neg (Int64.not_le.mpr h)]
  refine ⟨rfl, s.halt.length, _, rfl, List.getElem?_concat_length, rfl, ?_⟩
  simp

theorem Armed.stop {s : TimerState F} {seq seq' : UInt64} {f : F} (h : s.Armed seq f)
    (hne : seq' ≠ seq) : (s.stop seq').Armed seq f := by
  unfold TimerState.stop
  rw [if_pos (h.seq.trans_ne hne.symm)]
  exact h

theorem Armed.expire {s s' : TimerState F} {seq : UInt64} {f g : F} {i : ℕ} (h : s.Armed seq f)
    (hexpire : s.expire i = some (g, s')) : s'.Armed seq f := by
  obtain ⟨u, hu, -, -, rfl⟩ := expire_eq_some hexpire
  obtain ⟨hseq, j, v, htimer, hv, hcallback, hstatus⟩ := h
  by_cases hij : i = j
  · subst hij
    cases hu.symm.trans hv
    refine ⟨hseq, i, _, htimer, List.getElem?_set_self (List.getElem?_eq_some_iff.mp hu).1,
      hcallback, ?_⟩
    simp
  · exact ⟨hseq, j, v, htimer, (List.getElem?_set_ne hij).trans hv, hcallback, hstatus⟩

end TimerState

structure BackoffTimer.Traced {F : Type} (P Q : F → Prop) (l : List (Underlying F)) : Prop where
  callback : ∀ u ∈ l, P u.callback
  expired : ∀ u ∈ l, u.status = .expired → Q u.callback

namespace BackoffTimer.Traced

variable {F : Type} {P Q P' Q' : F → Prop} {l : List (Underlying F)}

theorem nil : Traced P Q [] := by
  constructor <;> simp

theorem mono (h : Traced P Q l) (hP : ∀ f, P f → P' f) (hQ : ∀ f, Q f → Q' f) : Traced P' Q' l :=
  ⟨fun u hu => hP _ (h.callback u hu), fun u hu he => hQ _ (h.expired u hu he)⟩

theorem concat (h : Traced P Q l) (d : Int64) {f : F} (hf : P f) :
    Traced P Q (l ++ [⟨d, f, .running⟩]) := by
  constructor
  · intro u hu
    rcases List.mem_append.mp hu with hu | hu
    · exact h.callback u hu
    · cases List.mem_singleton.mp hu
      exact hf
  · intro u hu hexpired
    rcases List.mem_append.mp hu with hu | hu
    · exact h.expired u hu hexpired
    · cases List.mem_singleton.mp hu
      cases hexpired

theorem stop (h : Traced P Q l) (i : ℕ) : Traced P Q (l.modify i Underlying.stop) := by
  have hcases : ∀ u ∈ l.modify i Underlying.stop,
      ∃ v ∈ l, v.callback = u.callback ∧ (u.status = .expired → v.status = .expired) := by
    intro u hu
    obtain ⟨j, hj⟩ := List.getElem?_of_mem hu
    rw [List.getElem?_modify] at hj
    obtain ⟨v, hv, rfl⟩ := Option.map_eq_some_iff.mp hj
    refine ⟨v, List.mem_of_getElem? hv, ?_⟩
    unfold Underlying.stop
    split_ifs <;> simp
  constructor
  · intro u hu
    obtain ⟨v, hv, heq, -⟩ := hcases u hu
    exact heq ▸ h.callback v hv
  · intro u hu hexpired
    obtain ⟨v, hv, heq, hstatus⟩ := hcases u hu
    exact heq ▸ h.expired v hv (hstatus hexpired)

theorem expire (h : Traced P Q l) {i : ℕ} {u : Underlying F} (hu : l[i]? = some u)
    (hQ : Q u.callback) : Traced P Q (l.set i { u with status := .expired }) := by
  constructor
  · intro v hv
    rcases List.mem_or_eq_of_mem_set hv with hv | rfl
    · exact h.callback v hv
    · exact h.callback u (List.mem_of_getElem? hu)
  · intro v hv hexpired
    rcases List.mem_or_eq_of_mem_set hv with hv | rfl
    · exact h.expired v hv hexpired
    · exact hQ

end BackoffTimer.Traced

namespace TimerState

open BackoffTimer (Traced)

variable {F : Type} {P Q : F → Prop} {s : TimerState F}

theorem traced_halt (h : Traced P Q s.timers) : Traced P Q s.halt := by
  unfold halt
  split
  · exact h.stop _
  · exact h

theorem traced_start (h : Traced P Q s.timers) (timeout : Int64) (seq : UInt64) {f : F} (hf : P f) :
    Traced P Q (s.start timeout seq f).timers := by
  unfold start
  split_ifs
  · exact traced_halt h
  · exact (traced_halt h).concat _ hf

theorem traced_stop (h : Traced P Q s.timers) (seq : UInt64) : Traced P Q (s.stop seq).timers := by
  unfold stop
  split_ifs
  · exact h
  · exact traced_halt h

end TimerState

end MinBFT
