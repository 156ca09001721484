import Mathlib.Data.List.Induction
import Mathlib.Tactic.Positivity
import Mathlib.Tactic.Ring
import MinBFT.Lib.Counter

/-!
# The back-off timer

`core/internal/backofftimer`: `Start` creates an underlying timer that invokes a callback when it
expires, and doubles the timeout for the next `Start`. `Stop` stops the underlying timer and goes
back to the initial timeout.

`Start` does not stop the underlying timer that has been created before, and `Stop` only knows the
last one. So callbacks of earlier calls can still be invoked, unless the timer is not restarted
before it has expired. The timeout is doubled in 64-bit arithmetic, which wraps in the end.
-/

namespace MinBFT

namespace BackoffTimer

inductive Status where
  | running
  | stopped
  | expired
deriving DecidableEq

structure Underlying (F : Type) where
  duration : Int64
  callback : F
  status : Status

/-- Stopping has no effect on a timer that has expired. -/
def Underlying.stop {F : Type} (u : Underlying F) : Underlying F :=
  if u.status = .running then { u with status := .stopped } else u

/-- The timer, all underlying timers in the order in which they have been created, and the callbacks
that have been invoked. The field `timer` is an index. -/
structure Timer (F : Type) where
  initTimeout : Int64
  currentTimeout : Int64
  timer : Option ℕ
  timers : List (Underlying F)
  fired : List F

inductive Event (F : Type) where
  | start (f : F)
  | stop
  /-- The time of an underlying timer is over. -/
  | expire (i : ℕ)

def Event.isCall {F : Type} : Event F → Bool
  | .expire _ => false
  | _ => true

variable {F : Type}

namespace Timer

def new (d : Int64) : Timer F := ⟨d, d, none, [], []⟩

def start (t : Timer F) (f : F) : Timer F :=
  { t with
    timer := some t.timers.length
    timers := t.timers ++ [⟨t.currentTimeout, f, .running⟩]
    currentTimeout := t.currentTimeout * 2 }

def stop (t : Timer F) : Timer F :=
  { t with
    timer := none
    timers := match t.timer with
      | some i => t.timers.modify i Underlying.stop
      | none => t.timers
    currentTimeout := t.initTimeout }

def expire (t : Timer F) (i : ℕ) : Timer F :=
  match t.timers[i]? with
  | some u =>
      if u.status = .running then
        { t with
          timers := t.timers.set i { u with status := .expired }
          fired := t.fired ++ [u.callback] }
      else t
  | none => t

def step (t : Timer F) : Event F → Timer F
  | .start f => t.start f
  | .stop => t.stop
  | .expire i => t.expire i

def status (t : Timer F) (i : ℕ) : Option Status := (t.timers[i]?).map (·.status)

def duration (t : Timer F) (i : ℕ) : Option Int64 := (t.timers[i]?).map (·.duration)

theorem getElem?_start (t : Timer F) (f : F) (i : ℕ) : (t.start f).timers[i]? =
    if i = t.timers.length then some ⟨t.currentTimeout, f, .running⟩ else t.timers[i]? := by
  simp only [start, List.getElem?_append]
  split_ifs with hlt heq heq
  · omega
  · rfl
  · simp [heq]
  · rw [List.getElem?_eq_none (by simp; omega), List.getElem?_eq_none (by omega)]

theorem status_start (t : Timer F) (f : F) (i : ℕ) : (t.start f).status i =
    if i = t.timers.length then some .running else t.status i := by
  unfold status
  rw [getElem?_start]
  split_ifs <;> rfl

theorem duration_start (t : Timer F) (f : F) (i : ℕ) : (t.start f).duration i =
    if i = t.timers.length then some t.currentTimeout else t.duration i := by
  unfold duration
  rw [getElem?_start]
  split_ifs <;> rfl

theorem status_stop (t : Timer F) (i : ℕ) : t.stop.status i =
    if t.timer = some i ∧ t.status i = some .running then some .stopped else t.status i := by
  unfold status stop
  cases htimer : t.timer with
  | none => simp
  | some j =>
      simp only [List.getElem?_modify]
      cases hget : t.timers[i]? with
      | none => simp
      | some u =>
          by_cases hj : j = i
          · subst hj
            by_cases hrun : u.status = .running <;> simp [Underlying.stop, hrun]
          · simp [hj]

theorem length_stop (t : Timer F) : t.stop.timers.length = t.timers.length := by
  unfold stop
  cases t.timer with
  | none => rfl
  | some i => exact List.length_modify Underlying.stop t.timers i

/-- What happens when the time of an underlying timer is over. -/
theorem expire_cases (t : Timer F) (i : ℕ) :
    (t.status i ≠ some .running ∧ t.expire i = t) ∨
      ∃ u, t.timers[i]? = some u ∧ u.status = .running ∧ t.expire i = { t with
        timers := t.timers.set i { u with status := .expired }
        fired := t.fired ++ [u.callback] } := by
  unfold expire status
  cases hget : t.timers[i]? with
  | none => exact .inl ⟨by simp, rfl⟩
  | some u =>
      by_cases hrun : u.status = .running
      · exact .inr ⟨u, rfl, hrun, if_pos hrun⟩
      · exact .inl ⟨by simpa using hrun, if_neg hrun⟩

theorem status_expire (t : Timer F) (i j : ℕ) : (t.expire i).status j =
    if j = i ∧ t.status i = some .running then some .expired else t.status j := by
  rcases expire_cases t i with ⟨hnot, heq⟩ | ⟨u, hget, hrun, heq⟩
  · rw [heq, if_neg (fun h => hnot h.2)]
  · have hstatus : t.status i = some .running := by rw [status, hget, Option.map_some, hrun]
    have hlt := (List.getElem?_eq_some_iff.mp hget).1
    rw [heq]
    by_cases hj : j = i
    · subst hj
      rw [if_pos ⟨rfl, hstatus⟩, status, List.getElem?_set_self hlt]
      rfl
    · simp [status, hj, Ne.symm hj]

theorem duration_expire (t : Timer F) (i j : ℕ) : (t.expire i).duration j = t.duration j := by
  rcases expire_cases t i with ⟨-, heq⟩ | ⟨u, hget, -, heq⟩
  · rw [heq]
  · rw [heq, duration, duration, List.getElem?_set]
    split_ifs with hi hlt
    · subst hi
      rw [hget]
      rfl
    · subst hi
      rw [List.getElem?_eq_none (by omega)]
    · rfl

theorem length_expire (t : Timer F) (i : ℕ) : (t.expire i).timers.length = t.timers.length := by
  rcases expire_cases t i with ⟨-, heq⟩ | ⟨u, -, -, heq⟩
  · rw [heq]
  · rw [heq, List.length_set]

/-- Expiry leaves the timer itself alone. -/
theorem expire_fields (t : Timer F) (i : ℕ) : (t.expire i).timer = t.timer ∧
    (t.expire i).initTimeout = t.initTimeout ∧ (t.expire i).currentTimeout = t.currentTimeout := by
  rcases expire_cases t i with ⟨-, heq⟩ | ⟨u, -, -, heq⟩ <;> rw [heq] <;> exact ⟨rfl, rfl, rfl⟩

end Timer

/-- What the calls so far amount to: how many timers have been created, which one by the last
`Start` since the last `Stop`, and how many by a `Start` since then. -/
structure History where
  starts : ℕ
  latest : Option ℕ
  streak : ℕ

def History.next (h : History) : Event F → History
  | .start _ => ⟨h.starts + 1, some h.starts, h.streak + 1⟩
  | .stop => ⟨h.starts, none, 0⟩
  | .expire _ => h

def history (es : List (Event F)) : History := es.foldl History.next ⟨0, none, 0⟩

def exec (d : Int64) (es : List (Event F)) : Timer F := es.foldl Timer.step (.new d)

theorem history_concat (es : List (Event F)) (e : Event F) :
    history (es ++ [e]) = (history es).next e := by
  simp [history]

theorem exec_concat (d : Int64) (es : List (Event F)) (e : Event F) :
    exec d (es ++ [e]) = (exec d es).step e := by
  simp [exec]

structure Tracks (d : Int64) (h : History) (t : Timer F) : Prop where
  length : t.timers.length = h.starts
  timer : t.timer = h.latest
  initTimeout : t.initTimeout = d
  fresh : h.latest = none → h.streak = 0 ∧ t.currentTimeout = d
  last : ∀ i, h.latest = some i → i + 1 = h.starts
  notStopped : ∀ i, h.latest = some i → t.status i ≠ some .stopped
  doubled : ∀ i, h.latest = some i → ∃ x, t.duration i = some x ∧ t.currentTimeout = x * 2

/-- The next underlying timer is another one than the last. -/
theorem Tracks.ne_length {d : Int64} {h : History} {t : Timer F} (ht : Tracks d h t) {i : ℕ}
    (hi : h.latest = some i) : i ≠ t.timers.length := by
  have hlast := ht.last i hi
  have hlen := ht.length
  omega

theorem Tracks.step {d : Int64} {h : History} {t : Timer F} (ht : Tracks d h t) (e : Event F) :
    Tracks d (h.next e) (t.step e) := by
  cases e with
  | start f =>
      have hlen : (t.start f).timers.length = h.starts + 1 := by
        rw [Timer.start, List.length_append, ht.length, List.length_singleton]
      refine ⟨hlen, congrArg some ht.length, ht.initTimeout, ?_, ?_, ?_, ?_⟩
      · intro hnone
        cases hnone
      · intro i hi
        cases hi
        rfl
      · intro i hi
        cases hi
        rw [Timer.step, Timer.status_start, if_pos ht.length.symm]
        simp
      · intro i hi
        cases hi
        refine ⟨t.currentTimeout, ?_, rfl⟩
        rw [Timer.step, Timer.duration_start, if_pos ht.length.symm]
  | stop =>
      refine ⟨(Timer.length_stop t).trans ht.length, rfl, ht.initTimeout, ?_, ?_, ?_, ?_⟩
      · intro _
        exact ⟨rfl, ht.initTimeout⟩
      all_goals
        intro i hi
        cases hi
  | expire j =>
      obtain ⟨htimer, hinit, hcurrent⟩ := Timer.expire_fields t j
      refine ⟨(Timer.length_expire t j).trans ht.length, htimer.trans ht.timer,
        hinit.trans ht.initTimeout, ?_, ht.last, ?_, ?_⟩
      · intro hnone
        obtain ⟨hstreak, hd⟩ := ht.fresh hnone
        exact ⟨hstreak, hcurrent.trans hd⟩
      · intro i hi
        rw [Timer.step, Timer.status_expire]
        split_ifs
        · simp
        · exact ht.notStopped i hi
      · intro i hi
        obtain ⟨x, hx, hdouble⟩ := ht.doubled i hi
        refine ⟨x, ?_, hcurrent.trans hdouble⟩
        rw [Timer.step, Timer.duration_expire]
        exact hx

theorem tracks_exec (d : Int64) (es : List (Event F)) : Tracks d (history es) (exec d es) := by
  induction es using List.reverseRecOn with
  | nil =>
      refine ⟨rfl, rfl, rfl, fun _ => ⟨rfl, rfl⟩, ?_, ?_, ?_⟩
      all_goals
        intro i hi
        cases hi
  | append_singleton es e ih =>
      rw [history_concat, exec_concat]
      exact ih.step e

/-- What is expected of an event: a call leaves no other underlying timer running than the one of
the last `Start` since the last `Stop`, no other callback is invoked, and the timeout is the initial
one at first and then gets longer. -/
structure Orderly (d : Int64) (es : List (Event F)) (e : Event F) : Prop where
  live : e.isCall = true → ∀ i, (exec d (es ++ [e])).status i = some .running ↔
    (history (es ++ [e])).latest = some i
  fires : ∀ i, e = .expire i → (exec d es).status i = some .running →
    (history es).latest = some i
  first : ∀ f, e = .start f → (history es).latest = none →
    (exec d (es ++ [e])).duration (history es).starts = some d
  longer : ∀ f i, e = .start f → (history es).latest = some i →
    ∃ x y, (exec d (es ++ [e])).duration i = some x ∧
      (exec d (es ++ [e])).duration (history es).starts = some y ∧ x < y

def Allowed (d : Int64) (es : List (Event F)) (e : Event F) : Prop :=
  ∀ f, e = .start f →
    (∀ i, (history es).latest = some i → (exec d es).status i = some .expired) ∧
      d.toInt * 2 ^ (history es).streak < 2 ^ 63

def Throughout (P : List (Event F) → Event F → Prop) (es : List (Event F)) : Prop :=
  ∀ es₁ e, es₁ ++ [e] <+: es → P es₁ e

theorem throughout_concat {P : List (Event F) → Event F → Prop} {es : List (Event F)}
    {e : Event F} : Throughout P (es ++ [e]) ↔ Throughout P es ∧ P es e := by
  constructor
  · intro h
    refine ⟨?_, h es e (List.prefix_refl _)⟩
    intro es₁ e₁ hpre
    exact h es₁ e₁ (hpre.trans (List.prefix_append _ _))
  · rintro ⟨h, he⟩ es₁ e₁ hpre
    rcases List.prefix_concat_iff.mp hpre with heq | hpre
    · obtain ⟨rfl, hlast⟩ := List.append_inj' heq rfl
      cases hlast
      exact he
    · exact h es₁ e₁ hpre

theorem throughout_iff {P : List (Event F) → Event F → Prop} {es : List (Event F)} :
    Throughout P es ↔ ∀ k : Fin es.length, P (es.take k) (es.get k) := by
  constructor
  · intro h k
    apply h
    rw [List.get_eq_getElem, List.take_append_getElem]
    exact List.take_prefix _ _
  · rintro h es₁ e ⟨es₂, rfl⟩
    have hlt : es₁.length < (es₁ ++ [e] ++ es₂).length := by simp
    have hk := h ⟨es₁.length, hlt⟩
    simpa using hk

instance {P : List (Event F) → Event F → Prop} [∀ es e, Decidable (P es e)]
    (es : List (Event F)) : Decidable (Throughout P es) :=
  decidable_of_iff _ throughout_iff.symm

instance (d : Int64) (es : List (Event F)) (e : Event F) : Decidable (Allowed d es e) :=
  match e with
  | .start f => decidable_of_iff
      ((∀ i ∈ (history es).latest, (exec d es).status i = some .expired) ∧
        d.toInt * 2 ^ (history es).streak < 2 ^ 63)
      ⟨fun h _ _ => h, fun h => h f rfl⟩
  | .stop => isTrue (by rintro _ ⟨⟩)
  | .expire _ => isTrue (by rintro _ ⟨⟩)

/-- No other underlying timer is running than the last one, and its timeout has been doubled as
often as it should have been. -/
structure Settled (d : Int64) (h : History) (t : Timer F) : Prop where
  live : ∀ i, t.status i = some .running → h.latest = some i
  exactly : ∀ i x, h.latest = some i → t.duration i = some x → x.toInt * 2 = d.toInt * 2 ^ h.streak

section Discipline

variable {d : Int64} {es : List (Event F)}

/-- The timeout of the last underlying timer is positive. -/
theorem Settled.toInt_pos {h : History} {t : Timer F} (hs : Settled d h t) (hd : 0 < d.toInt)
    {i : ℕ} {x : Int64} (hi : h.latest = some i) (hx : t.duration i = some x) : 0 < x.toInt := by
  have hexact := hs.exactly i x hi hx
  have hpos : 0 < d.toInt * 2 ^ h.streak := by positivity
  omega

theorem Settled.toInt_currentTimeout {h : History} {t : Timer F} (hs : Settled d h t)
    (ht : Tracks d h t) (hd : 0 < d.toInt) (hlt : d.toInt * 2 ^ h.streak < 2 ^ 63) :
    t.currentTimeout.toInt = d.toInt * 2 ^ h.streak := by
  cases hlatest : h.latest with
  | none =>
      obtain ⟨hstreak, hcurrent⟩ := ht.fresh hlatest
      rw [hcurrent, hstreak, pow_zero, mul_one]
  | some i =>
      obtain ⟨x, hx, hcurrent⟩ := ht.doubled i hlatest
      have hexact := hs.exactly i x hlatest hx
      rw [hcurrent, Int64.toInt_mul_two (hs.toInt_pos hd hlatest hx) (hexact ▸ hlt), hexact]

theorem Settled.concat (hs : Settled d (history es) (exec d es)) (hd : 0 < d.toInt) {e : Event F}
    (hallowed : Allowed d es e) : Settled d (history (es ++ [e])) (exec d (es ++ [e])) := by
  have ht := tracks_exec d es
  rw [history_concat, exec_concat]
  cases e with
  | start f =>
      obtain ⟨hexpired, hlt⟩ := hallowed f rfl
      constructor
      · intro i hi
        rw [Timer.step, Timer.status_start] at hi
        split_ifs at hi with heq
        · rw [heq, ht.length]
          rfl
        · cases hi.symm.trans (hexpired i (hs.live i hi))
      · intro i x hi hx
        cases hi
        rw [Timer.step, Timer.duration_start, if_pos ht.length.symm] at hx
        cases hx
        rw [hs.toInt_currentTimeout ht hd hlt, History.next, pow_succ, mul_assoc]
  | stop =>
      constructor
      · intro i hi
        rw [Timer.step, Timer.status_stop] at hi
        split_ifs at hi with hstop
        · cases hi
        · exact absurd ⟨ht.timer.trans (hs.live i hi), hi⟩ hstop
      · intro i x hi
        cases hi
  | expire j =>
      constructor
      · intro i hi
        rw [Timer.step, Timer.status_expire] at hi
        split_ifs at hi
        · cases hi
        · exact hs.live i hi
      · intro i x hi hx
        rw [Timer.step, Timer.duration_expire] at hx
        exact hs.exactly i x hi hx

theorem settled_of_allowed (hd : 0 < d.toInt) (h : Throughout (Allowed d) es) :
    Settled d (history es) (exec d es) := by
  induction es using List.reverseRecOn with
  | nil =>
      constructor
      · intro i hi
        cases hi
      · intro i x hi
        cases hi
  | append_singleton es e ih =>
      obtain ⟨hes, he⟩ := throughout_concat.mp h
      exact (ih hes).concat hd he

theorem Settled.orderly_of_allowed (hs : Settled d (history es) (exec d es)) (hd : 0 < d.toInt)
    {e : Event F} (hallowed : Allowed d es e) : Orderly d es e := by
  have ht := tracks_exec d es
  have hs' := hs.concat hd hallowed
  refine ⟨?_, fun i _ hi => hs.live i hi, ?_, ?_⟩
  · intro hcall i
    refine ⟨hs'.live i, ?_⟩
    rw [history_concat, exec_concat]
    intro hi
    cases e with
    | start f =>
        cases hi
        rw [Timer.step, Timer.status_start, if_pos ht.length.symm]
    | stop => cases hi
    | expire j => cases hcall
  · rintro f rfl hnone
    rw [exec_concat, Timer.step, Timer.duration_start, if_pos ht.length.symm, (ht.fresh hnone).2]
  · rintro f i rfl hi
    obtain ⟨x, hx, hcurrent⟩ := ht.doubled i hi
    rw [exec_concat, Timer.step, Timer.duration_start, Timer.duration_start,
      if_neg (ht.ne_length hi), if_pos ht.length.symm]
    refine ⟨x, _, hx, rfl, ?_⟩
    rw [hcurrent]
    apply (Int64.lt_mul_two_iff (hs.toInt_pos hd hi hx)).mpr
    rw [hs.exactly i x hi hx]
    exact (hallowed f rfl).2

theorem Settled.allowed_of_orderly (hs : Settled d (history es) (exec d es)) (hd : 0 < d.toInt)
    {e : Event F} (horderly : Orderly d es e) : Allowed d es e := by
  have ht := tracks_exec d es
  rintro f rfl
  constructor
  · intro i hi
    have hnot : (exec d es).status i ≠ some .running := by
      intro hrun
      have hlatest := (horderly.live rfl i).mp (by
        rw [exec_concat, Timer.step, Timer.status_start, if_neg (ht.ne_length hi)]
        exact hrun)
      rw [history_concat] at hlatest
      cases hlatest
      exact ht.ne_length hi ht.length.symm
    cases hstatus : (exec d es).status i with
    | none =>
        obtain ⟨x, hx, -⟩ := ht.doubled i hi
        obtain ⟨u, hget, -⟩ := Option.map_eq_some_iff.mp hx
        rw [Timer.status, hget] at hstatus
        cases hstatus
    | some status =>
        cases status with
        | running => exact absurd hstatus hnot
        | stopped => exact absurd hstatus (ht.notStopped i hi)
        | expired => rfl
  · cases hlatest : (history es).latest with
    | none =>
        rw [(ht.fresh hlatest).1, pow_zero, mul_one]
        exact d.toInt_lt
    | some i =>
        obtain ⟨x, y, hx, hy, hlt⟩ := horderly.longer f i rfl hlatest
        obtain ⟨x', hx', hcurrent⟩ := ht.doubled i hlatest
        rw [exec_concat, Timer.step, Timer.duration_start, if_neg (ht.ne_length hlatest)] at hx
        rw [exec_concat, Timer.step, Timer.duration_start, if_pos ht.length.symm] at hy
        cases hx.symm.trans hx'
        cases hy
        rw [hcurrent] at hlt
        rw [← hs.exactly i x hlatest hx]
        exact (Int64.lt_mul_two_iff (hs.toInt_pos hd hlatest hx)).mp hlt

/-- Every event is as expected if and only if every `Start` is allowed. -/
theorem orderly_iff_allowed (hd : 0 < d) (es : List (Event F)) :
    Throughout (Orderly d) es ↔ Throughout (Allowed d) es := by
  have hpos : 0 < d.toInt := Int64.lt_iff_toInt_lt.mp hd
  induction es using List.reverseRecOn with
  | nil =>
      constructor
      all_goals
        intro _ es₁ e hpre
        exact absurd (List.prefix_nil.mp hpre) (by simp)
  | append_singleton es e ih =>
      refine throughout_concat.trans (Iff.trans ?_ throughout_concat.symm)
      refine (and_congr_left' ih).trans (and_congr_right fun hes => ?_)
      have hs := settled_of_allowed hpos hes
      exact ⟨hs.allowed_of_orderly hpos, hs.orderly_of_allowed hpos⟩

end Discipline

end BackoffTimer

namespace Concrete

open BackoffTimer

/-- The view-change timer for view 1 expires before the timer is started for view 2, and it is
stopped before it is started for view 3. -/
def patientCalls : List (Event UInt64) := [.start 1, .expire 0, .start 2, .stop, .start 3]

theorem orderly_patientCalls :
    Throughout (Allowed 1000) patientCalls ∧ Throughout (Orderly 1000) patientCalls := by
  have hallowed : Throughout (Allowed 1000) patientCalls := by decide +kernel
  exact ⟨hallowed, (orderly_iff_allowed (by decide) patientCalls).mpr hallowed⟩

/-- The first timer survives a restart and `Stop`, and its callback is invoked. A timeout that is
doubled can become negative. -/
theorem restarted_timer_fires :
    ¬ Throughout (Orderly 1000) [.start (1 : UInt64), .start 2] ∧
      (exec 1000 [.start (1 : UInt64), .start 2, .stop]).status 0 = some .running ∧
      (exec 1000 [.start (1 : UInt64), .start 2, .stop, .expire 0]).fired = [1] ∧
      (exec 4611686018427387904 [.start (1 : UInt64), .expire 0, .start 2]).duration 1 =
        some (-9223372036854775808) := by
  refine ⟨?_, by decide, by decide, by decide⟩
  intro horderly
  have hlive := (horderly [.start 1] (.start 2) (List.prefix_refl _)).live rfl 0
  have hlatest := hlive.mp (by decide)
  exact absurd hlatest (by decide)

end Concrete

end MinBFT
