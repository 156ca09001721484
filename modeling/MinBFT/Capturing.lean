import MinBFT.Lib.Machine
import Mathlib.Data.List.Nodup

/-!
# Capturing request sequence numbers

`core/internal/clientstate/request-seq.go`: any number of goroutines capture sequence numbers of one
client. Whoever gets to capture a new number has it to itself until it calls the release function,
and only then is the number old to the others.

What a goroutine does between taking the mutex and releasing it, be it in `Wait`, is one step. A
goroutine that waits for the condition is woken by the next broadcast, and has to take the mutex
again before it goes on.
-/

namespace MinBFT

namespace Capturing

/-- `seqState`, without what `PrepareRequestSeq` and `RetireRequestSeq` keep. -/
structure SeqState where
  lastCapturedSeq : UInt64
  lastReleasedSeq : UInt64

inductive Goroutine where
  | calling (seq : UInt64)
  /-- It waits for a number that is not new to get released, and has been woken. -/
  | waitingOld (seq : UInt64)
  | wokenOld (seq : UInt64)
  /-- It waits for the number captured last to get released, and has been woken. -/
  | waitingNew (seq : UInt64)
  | wokenNew (seq : UInt64)
  | returnedOld (seq : UInt64)
  /-- It has captured the number, and is yet to call the release function. -/
  | processing (seq : UInt64)
  | released (seq : UInt64)
deriving DecidableEq

structure State where
  seqs : SeqState
  goroutines : List Goroutine
  /-- The numbers captured as new, each with the goroutine. -/
  captured : List (ℕ × UInt64)

def init : State := ⟨⟨0, 0⟩, [], []⟩

/-- The inner loop of `CaptureRequestSeq`. -/
def awaitRelease (s : SeqState) (seq : UInt64) : Goroutine :=
  if seq > s.lastReleasedSeq then .waitingOld seq else .returnedOld seq

/-- The outer loop of `CaptureRequestSeq`, up to where it waits or returns. -/
def capture (s : SeqState) (seq : UInt64) : Goroutine × SeqState :=
  if seq ≤ s.lastCapturedSeq then (awaitRelease s seq, s)
  else if s.lastCapturedSeq > s.lastReleasedSeq then (.waitingNew seq, s)
  else (.processing seq, { s with lastCapturedSeq := seq })

def Goroutine.wake : Goroutine → Goroutine
  | .waitingOld seq => .wokenOld seq
  | .waitingNew seq => .wokenNew seq
  | g => g

inductive Label where
  | call (seq : UInt64)
  | run (i : ℕ)

def State.capture (s : State) (i : ℕ) (seq : UInt64) : State :=
  let (g, seqs) := Capturing.capture s.seqs seq
  ⟨seqs, s.goroutines.set i g, match g with
    | .processing seq => s.captured ++ [(i, seq)]
    | _ => s.captured⟩

def State.release (s : State) (i : ℕ) (seq : UInt64) : State :=
  { s with
    seqs := { s.seqs with lastReleasedSeq := s.seqs.lastCapturedSeq }
    goroutines := (s.goroutines.map Goroutine.wake).set i (.released seq) }

def step (s : State) : Label → Option State
  | .call seq => some { s with goroutines := s.goroutines ++ [.calling seq] }
  | .run i => s.goroutines[i]?.bind fun
      | .calling seq => some (s.capture i seq)
      | .wokenNew seq => some (s.capture i seq)
      | .wokenOld seq => some { s with goroutines := s.goroutines.set i (awaitRelease s.seqs seq) }
      | .processing seq => some (s.release i seq)
      | _ => none

abbrev Reachable : State → Prop := Machine.Reachable step init fun _ _ => True

def Goroutine.Waits (g : Goroutine) : Prop := ∃ seq, g = .waitingOld seq ∨ g = .waitingNew seq

structure Exclusive (s : State) : Prop where
  /-- Numbers are captured in order, each at most once. -/
  increasing : (s.captured.map (·.2)).Pairwise (· < ·)
  captured : ∀ i seq, (i, seq) ∈ s.captured ↔
    s.goroutines[i]? = some (.processing seq) ∨ s.goroutines[i]? = some (.released seq)
  le : s.seqs.lastReleasedSeq ≤ s.seqs.lastCapturedSeq
  /-- At most one capture is outstanding, that of the last number. -/
  outstanding : ∀ (i : ℕ) seq, s.goroutines[i]? = some (.processing seq) →
    seq = s.seqs.lastCapturedSeq ∧ s.seqs.lastReleasedSeq < s.seqs.lastCapturedSeq ∧
      ∀ (j : ℕ) seq', s.goroutines[j]? = some (.processing seq') → j = i
  /-- Who is told that a number is old finds that it or a later one has been released. -/
  old : ∀ seq, Goroutine.returnedOld seq ∈ s.goroutines → seq ≤ s.seqs.lastReleasedSeq ∧
    (seq = 0 ∨ ∃ seq', Goroutine.released seq' ∈ s.goroutines ∧ seq ≤ seq')
  /-- Nobody waits without an outstanding capture. -/
  wakeUp : ∀ g ∈ s.goroutines, g.Waits → ∃ seq, Goroutine.processing seq ∈ s.goroutines

/-- The invariant: what is captured or released last is so by some goroutine. -/
structure Invariant (s : State) : Prop where
  increasing : (s.captured.map (·.2)).Pairwise (· < ·)
  captured : ∀ i seq, (i, seq) ∈ s.captured ↔
    s.goroutines[i]? = some (.processing seq) ∨ s.goroutines[i]? = some (.released seq)
  bound : ∀ c ∈ s.captured, c.2 ≤ s.seqs.lastCapturedSeq
  le : s.seqs.lastReleasedSeq ≤ s.seqs.lastCapturedSeq
  outstanding : ∀ seq, Goroutine.processing seq ∈ s.goroutines →
    seq = s.seqs.lastCapturedSeq ∧ s.seqs.lastReleasedSeq < s.seqs.lastCapturedSeq
  pending : s.seqs.lastReleasedSeq < s.seqs.lastCapturedSeq →
    Goroutine.processing s.seqs.lastCapturedSeq ∈ s.goroutines
  released : s.seqs.lastReleasedSeq = 0 ∨ Goroutine.released s.seqs.lastReleasedSeq ∈ s.goroutines
  old : ∀ seq, Goroutine.returnedOld seq ∈ s.goroutines → seq ≤ s.seqs.lastReleasedSeq
  waits : ∀ g ∈ s.goroutines, g.Waits → s.seqs.lastReleasedSeq < s.seqs.lastCapturedSeq
  known : ∀ g ∈ s.goroutines, ∀ seq, g.wake = .wokenOld seq → seq ≤ s.seqs.lastCapturedSeq

variable {s s' : State} {i : ℕ} {g g' : Goroutine} {seq : UInt64}

theorem mem_set_of_ne {l : List Goroutine} {x : Goroutine} (hx : x ∈ l) (hi : l[i]? = some g)
    (hne : x ≠ g) : x ∈ l.set i g' := by
  obtain ⟨j, hj⟩ := List.mem_iff_getElem?.mp hx
  refine List.mem_iff_getElem?.mpr ⟨j, ?_⟩
  rw [List.getElem?_set_ne, hj]
  rintro rfl
  exact hne (Option.some.inj (hj.symm.trans hi))

theorem getElem?_set_of_some {l : List Goroutine} (hi : l[i]? = some g) (j : ℕ) :
    (l.set i g')[j]? = if i = j then some g' else l[j]? := by
  by_cases hij : i = j
  · subst hij
    rw [if_pos rfl, List.getElem?_set_self (List.getElem?_eq_some_iff.mp hi).1]
  · rw [if_neg hij, List.getElem?_set_ne hij]

def Goroutine.Idle (g : Goroutine) : Prop := ∀ seq, g ≠ .processing seq ∧ g ≠ .released seq

/-- A goroutine that captures nothing goes on to wait or to return. -/
theorem Invariant.goOn (h : Invariant s) (hi : s.goroutines[i]? = some g) (hg : g.Idle)
    (hg' : g'.Idle) (hold : ∀ seq, g' = .returnedOld seq → seq ≤ s.seqs.lastReleasedSeq)
    (hwaits : g'.Waits → s.seqs.lastReleasedSeq < s.seqs.lastCapturedSeq)
    (hknown : ∀ seq, g'.wake = .wokenOld seq → seq ≤ s.seqs.lastCapturedSeq) :
    Invariant { s with goroutines := s.goroutines.set i g' } where
  increasing := h.increasing
  captured := by
    intro j seq
    rw [h.captured, getElem?_set_of_some hi]
    split_ifs with hij
    · subst hij
      simp [hi, hg seq, hg' seq]
    · rfl
  bound := h.bound
  le := h.le
  outstanding := by
    intro seq hseq
    rcases List.mem_or_eq_of_mem_set hseq with hseq | heq
    · exact h.outstanding seq hseq
    · exact absurd heq.symm (hg' seq).1
  pending := fun hlt => mem_set_of_ne (h.pending hlt) hi (hg _).1.symm
  released := h.released.imp_right fun hmem => mem_set_of_ne hmem hi (hg _).2.symm
  old := by
    intro seq hseq
    rcases List.mem_or_eq_of_mem_set hseq with hseq | heq
    · exact h.old seq hseq
    · exact hold seq heq.symm
  waits := by
    intro x hx hw
    rcases List.mem_or_eq_of_mem_set hx with hx | rfl
    · exact h.waits x hx hw
    · exact hwaits hw
  known := by
    intro x hx
    rcases List.mem_or_eq_of_mem_set hx with hx | rfl
    · exact h.known x hx
    · exact hknown

theorem Invariant.awaitRelease (h : Invariant s) (hi : s.goroutines[i]? = some g) (hg : g.Idle)
    (hle : seq ≤ s.seqs.lastCapturedSeq) :
    Invariant { s with goroutines := s.goroutines.set i (awaitRelease s.seqs seq) } := by
  unfold Capturing.awaitRelease
  split_ifs with hgt
  · refine h.goOn hi hg (by simp [Goroutine.Idle]) (by simp) (fun _ => ?_) ?_
    · exact UInt64.lt_of_lt_of_le hgt hle
    · rintro _ ⟨⟩
      exact hle
  · refine h.goOn hi hg (by simp [Goroutine.Idle]) ?_ (by simp [Goroutine.Waits])
      (by simp [Goroutine.wake])
    rintro _ ⟨⟩
    exact UInt64.not_lt.mp hgt

/-- A new number is captured while none is outstanding. -/
theorem Invariant.processing (h : Invariant s) (hi : s.goroutines[i]? = some g) (hg : g.Idle)
    (hnew : s.seqs.lastCapturedSeq < seq)
    (hnone : s.seqs.lastCapturedSeq ≤ s.seqs.lastReleasedSeq) :
    Invariant ⟨{ s.seqs with lastCapturedSeq := seq }, s.goroutines.set i (.processing seq),
      s.captured ++ [(i, seq)]⟩ where
  increasing := by
    rw [List.map_append, List.pairwise_append]
    refine ⟨h.increasing, List.pairwise_singleton _ _, fun x hx y hy => ?_⟩
    obtain ⟨c, hc, rfl⟩ := List.mem_map.mp hx
    cases List.mem_singleton.mp hy
    exact UInt64.lt_of_le_of_lt (h.bound c hc) hnew
  captured := by
    intro j x
    rw [List.mem_append, List.mem_singleton, h.captured, getElem?_set_of_some hi]
    split_ifs with hij
    · subst hij
      simp [hi, hg x, eq_comm]
    · simp [Ne.symm hij]
  bound := by
    intro c hc
    rcases List.mem_append.mp hc with hc | hc
    · exact UInt64.le_of_lt (UInt64.lt_of_le_of_lt (h.bound c hc) hnew)
    · cases List.mem_singleton.mp hc
      exact UInt64.le_refl _
  le := UInt64.le_of_lt (UInt64.lt_of_le_of_lt h.le hnew)
  outstanding := by
    intro x hx
    rcases List.mem_or_eq_of_mem_set hx with hx | heq
    · exact absurd (h.outstanding x hx).2 (UInt64.not_lt.mpr hnone)
    · cases heq
      exact ⟨rfl, UInt64.lt_of_le_of_lt h.le hnew⟩
  pending := by
    intro _
    exact List.mem_set (List.getElem?_eq_some_iff.mp hi).1 _
  released := h.released.imp_right fun hmem => mem_set_of_ne hmem hi (hg _).2.symm
  old := by
    intro x hx
    rcases List.mem_or_eq_of_mem_set hx with hx | heq
    · exact h.old x hx
    · cases heq
  waits := fun _ _ _ => UInt64.lt_of_le_of_lt h.le hnew
  known := by
    intro x hx y hy
    rcases List.mem_or_eq_of_mem_set hx with hx | rfl
    · exact UInt64.le_of_lt (UInt64.lt_of_le_of_lt (h.known x hx y hy) hnew)
    · cases hy

theorem Invariant.capture (h : Invariant s) (hi : s.goroutines[i]? = some g) (hg : g.Idle)
    (seq : UInt64) : Invariant (s.capture i seq) := by
  unfold State.capture Capturing.capture
  split_ifs with hle hlt
  · have hnotNew : ∀ x, Capturing.awaitRelease s.seqs seq ≠ .processing x := by
      intro x
      unfold Capturing.awaitRelease
      split_ifs <;> simp
    have hinv := h.awaitRelease hi hg hle
    dsimp only
    split
    · next x heq => exact absurd heq (hnotNew x)
    · exact hinv
  · exact h.goOn hi hg (by simp [Goroutine.Idle]) (by simp) (fun _ => hlt)
      (by simp [Goroutine.wake])
  · exact h.processing hi hg (UInt64.not_le.mp hle) (UInt64.not_lt.mp hlt)

theorem wake_eq_processing : g.wake = .processing seq ↔ g = .processing seq := by
  cases g <;> simp [Goroutine.wake]

theorem wake_eq_released : g.wake = .released seq ↔ g = .released seq := by
  cases g <;> simp [Goroutine.wake]

theorem wake_eq_returnedOld : g.wake = .returnedOld seq ↔ g = .returnedOld seq := by
  cases g <;> simp [Goroutine.wake]

theorem not_waits_wake (g : Goroutine) : ¬ g.wake.Waits := by
  cases g <;> simp [Goroutine.wake, Goroutine.Waits]

theorem wake_wake (g : Goroutine) : g.wake.wake = g.wake := by cases g <;> rfl

/-- With numbers captured in order, at most one goroutine has captured the last one. -/
theorem Invariant.unique (h : Invariant s) {j : ℕ} {seq seq' : UInt64}
    (hi : s.goroutines[i]? = some (.processing seq))
    (hj : s.goroutines[j]? = some (.processing seq')) : j = i := by
  have hseq := (h.outstanding seq (List.mem_of_getElem? hi)).1
  have hseq' := (h.outstanding seq' (List.mem_of_getElem? hj)).1
  have hmem := (h.captured i seq).mpr (.inl hi)
  have hmem' := (h.captured j seq').mpr (.inl hj)
  rw [hseq] at hmem
  rw [hseq'] at hmem'
  have hnodup : (s.captured.map (·.2)).Nodup := h.increasing.imp fun hlt => UInt64.ne_of_lt hlt
  exact congrArg Prod.fst (List.inj_on_of_nodup_map hnodup hmem' hmem rfl)

theorem Invariant.release (h : Invariant s) (hi : s.goroutines[i]? = some (.processing seq)) :
    Invariant (s.release i seq) := by
  obtain ⟨hseq, -⟩ := h.outstanding seq (List.mem_of_getElem? hi)
  have hwoken : (s.goroutines.map Goroutine.wake)[i]? = some (.processing seq) := by
    rw [List.getElem?_map, hi]
    rfl
  -- nobody else has an outstanding capture, and nobody waits any more
  have hother : ∀ x ∈ (s.goroutines.map Goroutine.wake).set i (.released seq),
      (∀ y, x ≠ .processing y) ∧ ¬ x.Waits := by
    intro x hx
    obtain ⟨j, hj⟩ := List.mem_iff_getElem?.mp hx
    rw [getElem?_set_of_some hwoken] at hj
    split_ifs at hj with hij
    · cases hj
      exact ⟨by simp, by simp [Goroutine.Waits]⟩
    · rw [List.getElem?_map] at hj
      obtain ⟨a, ha, rfl⟩ := Option.map_eq_some_iff.mp hj
      refine ⟨fun y hy => hij ?_, not_waits_wake a⟩
      rw [wake_eq_processing.mp hy] at ha
      exact (h.unique hi ha).symm
  refine ⟨h.increasing, fun j x => ?_, h.bound, UInt64.le_refl _, ?_, ?_, ?_, ?_, ?_, ?_⟩
  · simp only [State.release, getElem?_set_of_some hwoken]
    rw [h.captured]
    split_ifs with hij
    · subst hij
      simp [hi, eq_comm]
    · simp only [List.getElem?_map, Option.map_eq_some_iff, wake_eq_processing, wake_eq_released,
        exists_eq_right]
  · exact fun x hx => absurd rfl ((hother _ hx).1 x)
  · exact fun hlt => absurd hlt (UInt64.lt_irrefl _)
  · refine .inr ?_
    rw [show (s.release i seq).seqs.lastReleasedSeq = seq from hseq.symm]
    exact List.mem_set (List.getElem?_eq_some_iff.mp hwoken).1 _
  · intro x hx
    rcases List.mem_or_eq_of_mem_set hx with hx | heq
    · obtain ⟨a, ha, heq⟩ := List.mem_map.mp hx
      rw [wake_eq_returnedOld] at heq
      exact UInt64.le_trans (h.old x (heq ▸ ha)) h.le
    · cases heq
  · exact fun x hx hw => absurd hw (hother x hx).2
  · intro x hx y hy
    rcases List.mem_or_eq_of_mem_set hx with hx | rfl
    · obtain ⟨a, ha, rfl⟩ := List.mem_map.mp hx
      rw [wake_wake] at hy
      exact h.known a ha y hy
    · cases hy

theorem Invariant.call (h : Invariant s) (seq : UInt64) :
    Invariant { s with goroutines := s.goroutines ++ [.calling seq] } := by
  have hmem : ∀ x, x ∈ s.goroutines ++ [.calling seq] → x ∈ s.goroutines ∨ x = .calling seq := by
    intro x hx
    simpa using hx
  refine ⟨h.increasing, fun j x => ?_, h.bound, h.le, fun x hx => ?_, fun hlt => ?_, ?_,
    fun x hx => ?_, fun x hx hw => ?_, fun x hx y hy => ?_⟩
  · rw [h.captured]
    rcases Nat.lt_trichotomy j s.goroutines.length with hj | hj | hj
    · rw [List.getElem?_append_left hj]
    · subst hj
      simp
    · have hnone : (s.goroutines ++ [Goroutine.calling seq])[j]? = none :=
        List.getElem?_eq_none (by rw [List.length_append, List.length_singleton]; omega)
      rw [hnone, List.getElem?_eq_none (by omega)]
  · exact h.outstanding x ((hmem _ hx).resolve_right (by simp))
  · exact List.mem_append_left _ (h.pending hlt)
  · exact h.released.imp_right (List.mem_append_left _)
  · exact h.old x ((hmem _ hx).resolve_right (by simp))
  · rcases hmem x hx with hx | rfl
    · exact h.waits x hx hw
    · exact absurd hw (by simp [Goroutine.Waits])
  · rcases hmem x hx with hx | rfl
    · exact h.known x hx y hy
    · cases hy

theorem Invariant.step {l : Label} (h : Invariant s) (hstep : step s l = some s') :
    Invariant s' := by
  cases l with
  | call seq =>
      cases hstep
      exact h.call seq
  | run i =>
      obtain ⟨g, hi, hstep⟩ := Option.bind_eq_some_iff.mp hstep
      cases g with
      | calling seq =>
          cases hstep
          exact h.capture hi (by simp [Goroutine.Idle]) seq
      | wokenNew seq =>
          cases hstep
          exact h.capture hi (by simp [Goroutine.Idle]) seq
      | wokenOld seq =>
          cases hstep
          exact h.awaitRelease hi (by simp [Goroutine.Idle])
            (h.known _ (List.mem_of_getElem? hi) seq rfl)
      | processing seq =>
          cases hstep
          exact h.release hi
      | _ => cases hstep

theorem invariant_init : Invariant init where
  increasing := List.Pairwise.nil
  captured := by simp [init]
  bound := fun _ hc => absurd hc List.not_mem_nil
  le := UInt64.le_refl _
  outstanding := fun _ hx => absurd hx List.not_mem_nil
  pending := fun hlt => absurd hlt (UInt64.lt_irrefl _)
  released := .inl rfl
  old := fun _ hx => absurd hx List.not_mem_nil
  waits := fun _ hx => absurd hx List.not_mem_nil
  known := fun _ hx => absurd hx List.not_mem_nil

/-- In whatever order the goroutines go on, captures are ordered and exclude one another. -/
theorem exclusive (h : Reachable s) : Exclusive s := by
  have hinv : Invariant s := h.invariant invariant_init fun _ _ _ hs _ hstep => hs.step hstep
  refine ⟨hinv.increasing, hinv.captured, hinv.le, fun i seq hi => ?_, fun seq hseq => ?_,
    fun g hg hw => ⟨_, hinv.pending (hinv.waits g hg hw)⟩⟩
  · obtain ⟨hseq, hlt⟩ := hinv.outstanding seq (List.mem_of_getElem? hi)
    exact ⟨hseq, hlt, fun j seq' hj => hinv.unique hi hj⟩
  · have hle := hinv.old seq hseq
    refine ⟨hle, hinv.released.imp (fun hzero => ?_) fun hrel => ⟨_, hrel, hle⟩⟩
    rw [hzero] at hle
    exact UInt64.le_antisymm hle UInt64.zero_le

end Capturing

namespace Concrete

open Capturing

/-- While the first goroutine processes number 2, the others ask for 1, 2 and 3. -/
def contendedCapture : List Label :=
  [.call 2, .run 0, .call 1, .call 2, .call 3, .run 1, .run 2, .run 3, .run 0, .run 3, .run 1,
    .run 2]

theorem exclusive_contendedCapture : ∃ s, Reachable s ∧ s.captured = [(0, 2), (3, 3)] ∧
    s.goroutines = [.released 2, .returnedOld 1, .returnedOld 2, .processing 3] ∧
    Exclusive s := by
  have h : (Machine.exec step (fun _ _ => true) init contendedCapture).any (fun s =>
      s.captured == [(0, 2), (3, 3)] && s.goroutines ==
        [.released 2, .returnedOld 1, .returnedOld 2, .processing 3]) = true := by
    decide +kernel
  obtain ⟨s, hreach, hs⟩ := Machine.exists_reachable (fun _ _ _ _ => trivial) h
  rw [Bool.and_eq_true, beq_iff_eq, beq_iff_eq] at hs
  exact ⟨s, hreach, hs.1, hs.2, exclusive hreach⟩

end Concrete

end MinBFT
