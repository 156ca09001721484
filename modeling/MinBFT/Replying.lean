import MinBFT.Lib.Machine
import MinBFT.Messages

/-!
# Waiting for a Reply

`core/internal/clientstate/reply.go`: Replies to one client are added, and goroutines wait for the
one with their sequence number. Only the last Reply is kept. A goroutine that is woken by its Reply
and does not get to look before the next one is added finds another one in its place, and closes the
channel with nothing in it.

What a goroutine does with what it has read under the lock is one step with reading it. A channel
that is closed and recreated stands for its place among all that have been made, and all but the
last one are closed.
-/

namespace MinBFT

namespace Replying

inductive Phase where
  | reading
  | waiting (waitChan : ℕ)
  | closed
  /-- There is no Reply to look at. -/
  | panicked
deriving DecidableEq

structure Waiter where
  seq : UInt64
  phase : Phase
  /-- What has been sent to the channel. -/
  out : List Reply
  /-- The Reply with the sequence number that has been accepted since the call. -/
  accepted : Option Reply
deriving DecidableEq

/-- `replyState`, and the goroutines. -/
structure State where
  lastRepliedSeq : UInt64
  reply : Option Reply
  waitChan : ℕ
  waiters : List Waiter

def init : State := ⟨0, none, 0, []⟩

def Waiter.note (reply : Reply) (w : Waiter) : Waiter :=
  if reply.sequence = w.seq then { w with accepted := some reply } else w

def addReply (s : State) (reply : Reply) : State :=
  if reply.sequence ≤ s.lastRepliedSeq then s
  else ⟨reply.sequence, some reply, s.waitChan + 1, s.waiters.map (·.note reply)⟩

/-- One step of the goroutine; `none` if it is blocked or done. -/
def Waiter.advance (s : State) (w : Waiter) : Option Waiter :=
  match w.phase with
  | .reading =>
      if w.seq ≤ s.lastRepliedSeq then
        match s.reply with
        | none => some { w with phase := .panicked }
        | some reply => some { w with
            phase := .closed
            out := if reply.sequence = w.seq then w.out ++ [reply] else w.out }
      else some { w with phase := .waiting s.waitChan }
  | .waiting waitChan => if waitChan < s.waitChan then some { w with phase := .reading } else none
  | _ => none

inductive Label where
  | addReply (reply : Reply)
  | replyChannel (seq : UInt64)
  | run (i : ℕ)

def step (s : State) : Label → Option State
  | .addReply reply => some (addReply s reply)
  | .replyChannel seq => some { s with waiters := s.waiters ++ [⟨seq, .reading, [], none⟩] }
  | .run i => s.waiters[i]?.bind fun w => (w.advance s).map fun w' =>
      { s with waiters := s.waiters.set i w' }

abbrev Reachable (cond : State → Label → Prop) : State → Prop := Machine.Reachable step init cond

def Waiter.Pending (w : Waiter) : Prop := w.phase ≠ .closed ∧ w.phase ≠ .panicked

/-- A Reply is accepted only after everybody who waits for the last one has looked at it. -/
def Unhurried (s : State) : Label → Prop
  | .addReply reply => s.lastRepliedSeq < reply.sequence →
      ∀ w ∈ s.waiters, w.seq = s.lastRepliedSeq → ¬ w.Pending
  | _ => True

instance (w : Waiter) : Decidable w.Pending :=
  inferInstanceAs (Decidable (_ ∧ _))

instance (s : State) : (l : Label) → Decidable (Unhurried s l)
  | .addReply _ => inferInstanceAs (Decidable (_ → ∀ w ∈ s.waiters, _ → _))
  | .replyChannel _ => .isTrue trivial
  | .run _ => .isTrue trivial

/-- Going on by itself, the goroutine sends the Reply and nothing else, and closes the channel. -/
inductive Finishes (s : State) (reply : Reply) : Waiter → Prop where
  | closed {w : Waiter} (hphase : w.phase = .closed) (hout : w.out = [reply]) :
      Finishes s reply w
  | advance {w w' : Waiter} (h : w.advance s = some w') (hfinishes : Finishes s reply w') :
      Finishes s reply w

structure Served (s : State) (w : Waiter) : Prop where
  received : ∀ reply, w.accepted = some reply → Finishes s reply w
  only : ∀ reply ∈ w.out, reply.sequence = w.seq
  /-- There is no Reply with the sequence number after the call, and there will not be any. -/
  empty : w.phase = .closed → w.out = [] → w.accepted = none ∧ w.seq ≤ s.lastRepliedSeq

/-- The invariant of the Reply that is kept. -/
structure Kept (s : State) : Prop where
  none : s.reply = none → s.lastRepliedSeq = 0
  some : ∀ reply, s.reply = some reply → reply.sequence = s.lastRepliedSeq

structure Invariant (s : State) (w : Waiter) : Prop where
  chan : ∀ waitChan, w.phase = .waiting waitChan → waitChan ≤ s.waitChan
  nothing : w.Pending → w.out = []
  only : ∀ reply ∈ w.out, reply.sequence = w.seq
  closed : w.phase = .closed → w.seq ≤ s.lastRepliedSeq
  panicked : w.phase = .panicked → w.seq = 0
  sequence : ∀ reply, w.accepted = some reply → reply.sequence = w.seq ∧ w.seq ≠ 0
  received : ∀ reply, w.accepted = some reply → w.phase = .closed → w.out = [reply]
  /-- As long as it is still to look, its Reply is the last one. -/
  pending : ∀ reply, w.accepted = some reply → w.Pending →
    s.reply = some reply ∧ ∀ waitChan, w.phase = .waiting waitChan → waitChan < s.waitChan

variable {s s' : State} {w w' : Waiter} {reply : Reply}

theorem Invariant.addReply (hk : Kept s) (h : Invariant s w)
    (hcond : w.seq = s.lastRepliedSeq → ¬ w.Pending) (hlt : s.lastRepliedSeq < reply.sequence)
    (waiters : List Waiter) :
    Invariant ⟨reply.sequence, some reply, s.waitChan + 1, waiters⟩ (w.note reply) := by
  unfold Waiter.note
  split_ifs with hseq
  · -- the Reply is for this goroutine, which cannot have finished
    have hnot : w.phase ≠ .closed := fun hphase =>
      absurd (UInt64.lt_of_lt_of_le (hseq ▸ hlt) (h.closed hphase)) (UInt64.lt_irrefl _)
    have hpos : w.seq ≠ 0 := by
      rw [← hseq]
      exact (UInt64.ne_of_lt (UInt64.lt_of_le_of_lt UInt64.zero_le hlt)).symm
    refine ⟨fun c hc => Nat.le_succ_of_le (h.chan c hc), h.nothing, h.only, fun hphase => ?_,
      h.panicked, ?_, fun _ _ hphase => absurd hphase hnot, ?_⟩
    · exact absurd hphase hnot
    · rintro _ ⟨⟩
      exact ⟨hseq, hpos⟩
    · rintro _ ⟨⟩ -
      exact ⟨rfl, fun c hc => Nat.lt_succ_of_le (h.chan c hc)⟩
  · refine ⟨fun c hc => Nat.le_succ_of_le (h.chan c hc), h.nothing, h.only, fun hphase => ?_,
      h.panicked, h.sequence, h.received, fun r hr hpending => ?_⟩
    · exact UInt64.le_of_lt (UInt64.lt_of_le_of_lt (h.closed hphase) hlt)
    · have hlast := hk.some r (h.pending r hr hpending).1
      exact absurd hpending (hcond ((h.sequence r hr).1.symm.trans hlast))

theorem Invariant.advance (hk : Kept s) (h : Invariant s w) (hadvance : w.advance s = some w') :
    Invariant s w' := by
  obtain ⟨seq, phase, out, accepted⟩ := w
  cases phase with
  | reading =>
      have hpending : (Waiter.mk seq .reading out accepted).Pending := by simp [Waiter.Pending]
      cases h.nothing hpending
      simp only [Waiter.advance] at hadvance
      split_ifs at hadvance with hle
      · cases hreply : s.reply with
        | none =>
            rw [hreply] at hadvance
            cases hadvance
            have hzero : seq = 0 :=
              UInt64.le_antisymm (hk.none hreply ▸ hle) UInt64.zero_le
            exact ⟨by simp, by simp, by simp, by simp, fun _ => hzero, h.sequence, by simp,
              by simp [Waiter.Pending]⟩
        | some reply =>
            rw [hreply] at hadvance
            cases hadvance
            refine ⟨by simp, by simp [Waiter.Pending], fun r hr => ?_, fun _ => hle, by simp,
              h.sequence, fun r hr _ => ?_, by simp [Waiter.Pending]⟩
            · split_ifs at hr with heq
              · cases List.mem_singleton.mp hr
                exact heq
              · cases hr
            · obtain rfl : reply = r :=
                Option.some.inj (hreply.symm.trans (h.pending r hr hpending).1)
              exact if_pos (h.sequence reply hr).1
      · cases hadvance
        refine ⟨?_, fun _ => rfl, by simp, by simp, by simp, h.sequence, by simp,
          fun r hr _ => ?_⟩
        · rintro _ ⟨⟩
          exact Nat.le_refl _
        · have hlast : s.lastRepliedSeq = seq :=
            (hk.some r (h.pending r hr hpending).1).symm.trans (h.sequence r hr).1
          exact absurd (hlast ▸ UInt64.le_refl _) hle
  | waiting waitChan =>
      have hpending : (Waiter.mk seq (.waiting waitChan) out accepted).Pending := by
        simp [Waiter.Pending]
      simp only [Waiter.advance] at hadvance
      split_ifs at hadvance with hlt
      cases hadvance
      exact ⟨by simp, fun _ => h.nothing hpending, h.only, by simp, by simp, h.sequence, by simp,
        fun r hr _ => ⟨(h.pending r hr hpending).1, by simp⟩⟩
  | closed => cases hadvance
  | panicked => cases hadvance

theorem Invariant.received_finishes (hk : Kept s) (h : Invariant s w)
    (haccepted : w.accepted = some reply) : Finishes s reply w := by
  obtain ⟨seq, phase, out, accepted⟩ := w
  obtain ⟨hseq, hpos⟩ := h.sequence reply haccepted
  have hreading (hpending : (Waiter.mk seq phase out accepted).Pending) :
      Finishes s reply ⟨seq, .reading, out, accepted⟩ := by
    have hlast := (h.pending reply haccepted hpending).1
    have hle : seq ≤ s.lastRepliedSeq := by
      rw [← hk.some reply hlast, hseq]
      exact UInt64.le_refl _
    refine .advance ?_ (.closed (w := ⟨seq, .closed, [reply], accepted⟩) rfl rfl)
    have hout : out = [] := h.nothing hpending
    have hseq' : reply.sequence = seq := hseq
    simp only [Waiter.advance, if_pos hle, hlast, if_pos hseq', hout, List.nil_append]
  cases phase with
  | reading => exact hreading (by simp [Waiter.Pending])
  | waiting waitChan =>
      have hpending : (Waiter.mk seq (.waiting waitChan) out accepted).Pending := by
        simp [Waiter.Pending]
      have hlt := (h.pending reply haccepted hpending).2 waitChan rfl
      exact .advance (if_pos hlt) (hreading hpending)
  | closed => exact .closed rfl (h.received reply haccepted rfl)
  | panicked => exact absurd (h.panicked rfl) hpos

theorem kept_init : Kept init := ⟨fun _ => rfl, nofun⟩

theorem kept_step {l : Label} (h : Kept s) (hstep : step s l = some s') : Kept s' := by
  cases l with
  | addReply reply =>
      cases hstep
      unfold Replying.addReply
      split_ifs
      · exact h
      · refine ⟨nofun, ?_⟩
        rintro _ ⟨⟩
        rfl
  | replyChannel seq =>
      cases hstep
      exact ⟨h.none, h.some⟩
  | run i =>
      obtain ⟨w, -, hstep⟩ := Option.bind_eq_some_iff.mp hstep
      obtain ⟨w', -, rfl⟩ := Option.map_eq_some_iff.mp hstep
      exact ⟨h.none, h.some⟩

theorem Waiter.seq_advance (h : w.advance s = some w') : w'.seq = w.seq := by
  unfold Waiter.advance at h
  split at h
  · split_ifs at h
    · split at h <;> cases h <;> rfl
    · cases h
      rfl
  · split_ifs at h
    cases h
    rfl
  · cases h

/-- Goroutines wait for the sequence number that `ReplyChannel` has been called with. -/
theorem seq_of_step {l : Label} (hstep : step s l = some s') (hw : w' ∈ s'.waiters) :
    (∃ w ∈ s.waiters, w'.seq = w.seq) ∨ l = .replyChannel w'.seq := by
  cases l with
  | addReply reply =>
      cases hstep
      unfold Replying.addReply at hw
      split_ifs at hw
      · exact .inl ⟨w', hw, rfl⟩
      · obtain ⟨w, hmem, rfl⟩ := List.mem_map.mp hw
        refine .inl ⟨w, hmem, ?_⟩
        unfold Waiter.note
        split_ifs <;> rfl
  | replyChannel seq =>
      cases hstep
      rcases List.mem_append.mp hw with hw | hw
      · exact .inl ⟨w', hw, rfl⟩
      · cases List.mem_singleton.mp hw
        exact .inr rfl
  | run i =>
      obtain ⟨w, hi, hstep⟩ := Option.bind_eq_some_iff.mp hstep
      obtain ⟨w₁, hadvance, rfl⟩ := Option.map_eq_some_iff.mp hstep
      rcases List.mem_or_eq_of_mem_set hw with hw | rfl
      · exact .inl ⟨w', hw, rfl⟩
      · exact .inl ⟨w, List.mem_of_getElem? hi, Waiter.seq_advance hadvance⟩

/-- A goroutine panics over the sequence number zero, when there has been no Reply. -/
theorem panicked_of_run {i : ℕ} (h : Kept s) (hstep : step s (.run i) = some s')
    (hpanic : (s'.waiters[i]?).any (·.phase == .panicked) = true) :
    ∃ w ∈ s.waiters, w.seq = 0 ∧ s.reply = none := by
  obtain ⟨w, hi, hstep⟩ := Option.bind_eq_some_iff.mp hstep
  obtain ⟨w', hadvance, rfl⟩ := Option.map_eq_some_iff.mp hstep
  rw [List.getElem?_set_self (List.getElem?_eq_some_iff.mp hi).1, Option.any_some,
    beq_iff_eq] at hpanic
  refine ⟨w, List.mem_of_getElem? hi, ?_⟩
  unfold Waiter.advance at hadvance
  split at hadvance
  · split_ifs at hadvance with hle
    · split at hadvance
      · next hnone => exact ⟨UInt64.le_antisymm (h.none hnone ▸ hle) UInt64.zero_le, hnone⟩
      · cases hadvance
        cases hpanic
    · cases hadvance
      cases hpanic
  · split_ifs at hadvance
    cases hadvance
    cases hpanic
  · cases hadvance

structure Consistent (s : State) : Prop where
  kept : Kept s
  waiters : ∀ w ∈ s.waiters, Invariant s w

theorem consistent_init : Consistent init :=
  ⟨kept_init, fun _ hw => absurd hw List.not_mem_nil⟩

theorem Invariant.frame (h : Invariant s w) (waiters : List Waiter) :
    Invariant { s with waiters } w := ⟨h.1, h.2, h.3, h.4, h.5, h.6, h.7, h.8⟩

theorem Consistent.step {l : Label} (h : Consistent s) (hcond : Unhurried s l)
    (hstep : step s l = some s') : Consistent s' := by
  obtain ⟨hk, hinv⟩ := h
  refine ⟨kept_step hk hstep, fun w hw => ?_⟩
  cases l with
  | addReply reply =>
      cases hstep
      unfold Replying.addReply at hw ⊢
      split_ifs at hw ⊢ with hle
      · exact hinv w hw
      · have hlt := UInt64.not_le.mp hle
        obtain ⟨w₀, hw₀, rfl⟩ := List.mem_map.mp hw
        exact (hinv w₀ hw₀).addReply hk (hcond hlt w₀ hw₀) hlt _
  | replyChannel seq =>
      cases hstep
      rcases List.mem_append.mp hw with hw | hw
      · exact (hinv w hw).frame _
      · cases List.mem_singleton.mp hw
        exact ⟨by simp, by simp, by simp, by simp, by simp, by simp, by simp, by simp⟩
  | run i =>
      obtain ⟨w₀, hw₀, hstep⟩ := Option.bind_eq_some_iff.mp hstep
      obtain ⟨w', hadvance, rfl⟩ := Option.map_eq_some_iff.mp hstep
      rcases List.mem_or_eq_of_mem_set hw with hw | rfl
      · exact (hinv w hw).frame _
      · exact ((hinv w₀ (List.mem_of_getElem? hw₀)).advance hk hadvance).frame _

/-- As long as everybody gets to look at a Reply before the next one, no Reply is lost. -/
theorem served_of_unhurried (h : Reachable Unhurried s) (w : Waiter) (hw : w ∈ s.waiters) :
    Served s w := by
  obtain ⟨hk, hinv⟩ := h.invariant consistent_init fun _ _ _ hs hcond hstep => hs.step hcond hstep
  have hinv := hinv w hw
  refine ⟨fun reply hreply => hinv.received_finishes hk hreply, hinv.only, fun hphase hout => ?_⟩
  refine ⟨?_, hinv.closed hphase⟩
  rw [Option.eq_none_iff_forall_ne_some]
  intro reply hreply
  have hreceived := hinv.received reply hreply hphase
  rw [hout] at hreceived
  cases hreceived

end Replying

namespace Concrete

open Replying

def replyTo (seq : UInt64) : Reply := ⟨0, 0, seq, [], []⟩

def unhurriedReplies : List Label :=
  [.replyChannel 1, .run 0, .addReply (replyTo 1), .run 0, .run 0, .addReply (replyTo 2)]

theorem served_unhurriedReplies : ∃ s, Reachable Unhurried s ∧
    ∃ w ∈ s.waiters, w = ⟨1, .closed, [replyTo 1], some (replyTo 1)⟩ ∧ Served s w := by
  have h : (Machine.exec step (fun s l => decide (Unhurried s l)) init unhurriedReplies).any
      (fun s => s.waiters.contains ⟨1, .closed, [replyTo 1], some (replyTo 1)⟩) = true := by
    decide +kernel
  obtain ⟨s, hreach, hs⟩ := Machine.exists_reachable (fun _ _ _ => of_decide_eq_true) h
  have hw := List.contains_iff_mem.mp hs
  exact ⟨s, hreach, _, hw, rfl, served_of_unhurried hreach _ hw⟩

/-- The next Reply is added before the goroutine gets to look. -/
def hurriedReplies : List Label :=
  [.replyChannel 1, .run 0, .addReply (replyTo 1), .addReply (replyTo 2), .run 0, .run 0]

theorem reply_lost : ∃ s, Reachable (fun _ _ => True) s ∧
    ∃ w ∈ s.waiters, w.accepted = some (replyTo 1) ∧ w.phase = .closed ∧ w.out = [] := by
  have h : (Machine.exec step (fun _ _ => true) init hurriedReplies).any
      (fun s => s.waiters.contains ⟨1, .closed, [], some (replyTo 1)⟩) = true := by
    decide +kernel
  obtain ⟨s, hreach, hs⟩ := Machine.exists_reachable (fun _ _ _ _ => trivial) h
  exact ⟨s, hreach, _, List.contains_iff_mem.mp hs, rfl, rfl, rfl⟩

end Concrete

end MinBFT
