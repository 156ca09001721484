import MinBFT.Client
import MinBFT.Lib.Cursor
import MinBFT.Lib.Machine

/-!
# The streams of the request buffer

Package `requestbuffer`, with any number of callers, request streams and their consumers. The
notifications that wake up the goroutines are sent without waiting, to channels with room for one of
them. None is lost, since one that finds the channel full is not needed.

A request put into the buffer stands for its place among all that have ever been. What a goroutine
does under a lock or with a channel is one step.
-/

namespace MinBFT

namespace RequestBuffer

open Cursor
open Client (ReplySet Supplier newReplySet)

structure Req where
  msg : Request
  /-- The call of `AddRequest` that it comes from. -/
  call : ℕ
  removed : Bool
  replySet : ReplySet
  /-- The channel closed by the goroutine that `supplyReplies` starts. -/
  done : Bool
  supplier : Supplier
  /-- The channel of replies, which buffers one. -/
  replyChannel : Option Reply
  /-- What has been sent on it. -/
  emitted : List Reply

def newRequest (msg : Request) (call : ℕ) : Req :=
  ⟨msg, call, false, newReplySet, false, .looping 0, none, []⟩

inductive Phase where
  | adding
  | waiting (seq : UInt64) (request : ℕ)
  | added (request : ℕ)
  | rejected

structure Call where
  msg : Request
  canceled : Bool
  phase : Phase

inductive StreamPhase where
  | starting
  | looping
  | sending (request : ℕ)
  | waiting
  | returned

structure Stream where
  phase : StreamPhase
  lastSeq : UInt64
  /-- The buffered notification. -/
  newAdded : Bool
  canceled : Bool
  /-- What the consumer has received. -/
  emitted : List Request

structure State where
  lastSeq : UInt64
  /-- The request in the buffer, as an index. -/
  request : Option ℕ
  /-- All requests ever put into the buffer. -/
  requests : List Req
  calls : List Call
  /-- Replies on the way to the request that was in the buffer when `AddReply` looked. -/
  replies : List (Reply × ℕ)
  streams : List Stream

def init : State := ⟨0, none, [], [], [], []⟩

inductive Choice where
  | proceed
  | removed
  | cancel

inductive Label where
  | addRequest (msg : Request)
  | add (call : ℕ)
  | wake (call : ℕ)
  | giveUp (call : ℕ)
  | cancel (call : ℕ)
  | removeRequest (seq : UInt64)
  | addReply (msg : Reply)
  | insert (reply : ℕ)
  | supply (request : ℕ)
  | receive (request : ℕ)
  | finish (request : ℕ)
  | close (request : ℕ)
  | requestStream
  | advance (stream : ℕ) (choice : Choice)
  | cancelStream (stream : ℕ)

/-- A notification, dropped if there is one already. -/
def Stream.notify (t : Stream) : Stream :=
  match t.phase with
  | .starting => t
  | _ => { t with newAdded := true }

/-- An iteration of `AddRequest` while it holds the lock. -/
def addRequest (s : State) (i : ℕ) (c : Call) : State :=
  match s.request with
  | some k => { s with calls := s.calls.set i { c with phase := .waiting s.lastSeq k } }
  | none =>
      if c.msg.sequence ≤ s.lastSeq then
        { s with calls := s.calls.set i { c with phase := .rejected } }
      else
        { s with
          lastSeq := c.msg.sequence
          request := some s.requests.length
          requests := s.requests ++ [newRequest c.msg i]
          calls := s.calls.set i { c with phase := .added s.requests.length }
          streams := s.streams.map Stream.notify }

def removeRequest (s : State) (seq : UInt64) : State :=
  match s.request with
  | none => s
  | some k =>
      match s.requests[k]? with
      | none => s
      | some r =>
          if r.msg.sequence ≠ seq then s
          else { s with requests := s.requests.set k { r with removed := true }, request := none }

/-- `AddReply` up to the point where the request is known. -/
def addReply (s : State) (msg : Reply) : State :=
  match s.request with
  | none => s
  | some k =>
      match s.requests[k]? with
      | none => s
      | some r =>
          if r.msg.sequence ≠ msg.sequence then s
          else { s with replies := s.replies ++ [(msg, k)] }

def resume (s : State) (i : ℕ) (c : Call) : State :=
  { s with calls := s.calls.set i { c with phase := .adding } }

namespace Req

/-- One step of `replySet.supplyReplies`; `none` if it is blocked. -/
def supply (r : Req) : Option Req :=
  match r.supplier with
  | .looping next =>
      some { r with supplier := .sending r.replySet.msgs.length (r.replySet.msgs.drop next) }
  | .sending next [] => some { r with supplier := .waiting next }
  | .sending next (msg :: msgs) =>
      match r.replyChannel with
      | none => some { r with
          supplier := .sending next msgs
          replyChannel := some msg
          emitted := r.emitted ++ [msg] }
      | some _ => none
  | .waiting next =>
      if r.replySet.newAdded then
        some { r with supplier := .looping next, replySet := { r.replySet with newAdded := false } }
      else none
  | .done => none

/-- The goroutine that waits for the request to be removed or canceled ends. -/
def finish (canceled : Bool) (r : Req) : Option Req :=
  if r.removed || canceled then some { r with done := true } else none

def close (r : Req) : Option Req :=
  if r.done then
    match r.supplier with
    | .sending _ (_ :: _) => some { r with supplier := .done }
    | .waiting _ => some { r with supplier := .done }
    | _ => none
  else none

end Req

def Stream.advance (s : State) (t : Stream) : Choice → Option Stream
  | .proceed =>
      match t.phase with
      | .starting => some { t with phase := .looping }
      | .looping =>
          match s.request with
          | none => some { t with phase := .waiting }
          | some k => do
              let r ← s.requests[k]?
              return { t with phase := if r.msg.sequence > t.lastSeq then .sending k else .waiting }
      | .sending k => do
          let r ← s.requests[k]?
          return { t with
            phase := .waiting
            lastSeq := r.msg.sequence
            emitted := t.emitted ++ [r.msg] }
      | .waiting =>
          if t.newAdded then some { t with phase := .looping, newAdded := false } else none
      | .returned => none
  | .removed =>
      match t.phase with
      | .sending k =>
          if (s.requests[k]?).any Req.removed then some { t with phase := .waiting } else none
      | _ => none
  | .cancel =>
      if t.canceled then
        match t.phase with
        | .sending _ => some { t with phase := .returned }
        | .waiting => some { t with phase := .returned }
        | _ => none
      else none

def updateReq (s : State) (k : ℕ) (f : Req → Option Req) : Option State := do
  let r ← s.requests[k]?
  let r' ← f r
  return { s with requests := s.requests.set k r' }

def updateStream (s : State) (i : ℕ) (f : Stream → Option Stream) : Option State := do
  let t ← s.streams[i]?
  let t' ← f t
  return { s with streams := s.streams.set i t' }

def step (s : State) : Label → Option State
  | .addRequest msg => some { s with calls := s.calls ++ [⟨msg, false, .adding⟩] }
  | .add i => do
      let c ← s.calls[i]?
      match c.phase with
      | .adding => return addRequest s i c
      | _ => none
  | .wake i => do
      let c ← s.calls[i]?
      match c.phase with
      | .waiting _ k => if (s.requests[k]?).any Req.removed then return resume s i c else none
      | _ => none
  | .giveUp i => do
      let c ← s.calls[i]?
      match c.phase with
      | .waiting seq _ => if c.canceled then return removeRequest (resume s i c) seq else none
      | _ => none
  | .cancel i => do
      let c ← s.calls[i]?
      return { s with calls := s.calls.set i { c with canceled := true } }
  | .removeRequest seq => some (removeRequest s seq)
  | .addReply msg => some (addReply s msg)
  | .insert i => do
      let (msg, k) ← s.replies[i]?
      updateReq { s with replies := s.replies.eraseIdx i } k fun r =>
        some { r with replySet := r.replySet.addReply msg }
  | .supply k => updateReq s k Req.supply
  | .receive k => updateReq s k fun r => some { r with replyChannel := none }
  | .finish k => updateReq s k fun r => r.finish ((s.calls[r.call]?).any Call.canceled)
  | .close k => updateReq s k Req.close
  | .requestStream =>
      some { s with streams := s.streams ++ [⟨.starting, 0, false, false, []⟩] }
  | .advance i choice => updateStream s i fun t => t.advance s choice
  | .cancelStream i => updateStream s i fun t => some { t with canceled := true }

abbrev Reachable : State → Prop := Machine.Reachable step init fun _ _ => True

/-! ## The replies of a request -/

/-- How far the replies of a request have been emitted. Those added since have left a
notification. -/
def Req.Supplies (r : Req) : Prop :=
  match r.supplier with
  | .looping next => Reads r.replySet.msgs r.emitted [] next
  | .sending next msgs => Reads r.replySet.msgs r.emitted msgs next ∧
      (r.replySet.newAdded = false → next = r.replySet.msgs.length)
  | .waiting next => Reads r.replySet.msgs r.emitted [] next ∧
      (r.replySet.newAdded = false → next = r.replySet.msgs.length)
  | .done => r.emitted <+: r.replySet.msgs

structure Req.Invariant (r : Req) : Prop where
  sequence : ∀ msg ∈ r.replySet.msgs, msg.sequence = r.msg.sequence
  replicas : ∀ msg ∈ r.replySet.msgs, msg.replicaID ∈ r.replySet.replicas
  nodup : (r.replySet.msgs.map (·.replicaID)).Nodup
  supplies : r.Supplies

variable {r r' : Req}

theorem Req.Supplies.isPrefix (h : r.Supplies) : r.emitted <+: r.replySet.msgs := by
  unfold Req.Supplies at h
  split at h
  · exact h.isPrefix
  · exact h.1.isPrefix
  · exact h.1.isPrefix
  · exact h

theorem invariant_newRequest (msg : Request) (call : ℕ) : (newRequest msg call).Invariant :=
  ⟨fun _ h => absurd h List.not_mem_nil, fun _ h => absurd h List.not_mem_nil, List.nodup_nil,
    reads_zero []⟩

theorem Req.Supplies.insert (h : r.Supplies) (msg : Reply) (replicas : List UInt32) :
    Req.Supplies { r with replySet := ⟨replicas, r.replySet.msgs ++ [msg], true⟩ } := by
  obtain ⟨m, call, removed, replySet, done, supplier, replyChannel, emitted⟩ := r
  cases supplier with
  | looping next => exact Reads.append h [msg]
  | sending next msgs => exact ⟨Reads.append h.1 [msg], fun hfalse => nomatch hfalse⟩
  | waiting next => exact ⟨Reads.append h.1 [msg], fun hfalse => nomatch hfalse⟩
  | done => exact h.trans (List.prefix_append _ _)

theorem Req.Invariant.insert {msg : Reply} (h : r.Invariant)
    (hseq : r.msg.sequence = msg.sequence) :
    Req.Invariant { r with replySet := r.replySet.addReply msg } := by
  unfold ReplySet.addReply
  split_ifs with hmem
  · exact h
  · refine ⟨fun m hm => ?_, fun m hm => ?_, ?_, h.supplies.insert msg _⟩
    · rcases List.mem_append.mp hm with hm | hm
      · exact h.sequence m hm
      · cases List.mem_singleton.mp hm
        exact hseq.symm
    · rcases List.mem_append.mp hm with hm | hm
      · exact List.mem_cons_of_mem _ (h.replicas m hm)
      · cases List.mem_singleton.mp hm
        exact List.mem_cons_self
    · rw [List.map_append, List.map_singleton, ← List.concat_eq_append, List.nodup_concat]
      refine ⟨fun hin => hmem ?_, h.nodup⟩
      obtain ⟨m, hm, heq⟩ := List.mem_map.mp hin
      rw [← heq, List.contains_iff_mem]
      exact h.replicas m hm

structure Req.Follows (r r' : Req) : Prop where
  msg : r'.msg = r.msg
  removed : r'.removed = r.removed
  msgs : r'.replySet.msgs = r.replySet.msgs
  replicas : r'.replySet.replicas = r.replySet.replicas
  supplies : r.Supplies → r'.Supplies

theorem Req.Follows.invariant (hf : r.Follows r') (h : r.Invariant) : r'.Invariant := by
  refine ⟨?_, ?_, ?_, hf.supplies h.supplies⟩
  · rw [hf.msgs, hf.msg]
    exact h.sequence
  · rw [hf.msgs, hf.replicas]
    exact h.replicas
  · rw [hf.msgs]
    exact h.nodup

theorem Req.supply_follows (h : r.supply = some r') : r.Follows r' := by
  obtain ⟨m, call, removed, replySet, done, supplier, replyChannel, emitted⟩ := r
  cases supplier with
  | looping next =>
      cases h
      exact ⟨rfl, rfl, rfl, rfl, fun h => ⟨Reads.look h, fun _ => rfl⟩⟩
  | sending next msgs =>
      cases msgs with
      | nil =>
          cases h
          exact ⟨rfl, rfl, rfl, rfl, fun h => h⟩
      | cons msg msgs =>
          cases replyChannel with
          | none =>
              cases h
              exact ⟨rfl, rfl, rfl, rfl, fun h => ⟨h.1.emit, h.2⟩⟩
          | some _ => cases h
  | waiting next =>
      simp only [Req.supply] at h
      split_ifs at h
      cases h
      exact ⟨rfl, rfl, rfl, rfl, fun h => h.1⟩
  | done => cases h

theorem Req.finish_follows {canceled : Bool} (h : r.finish canceled = some r') :
    r.Follows r' := by
  unfold Req.finish at h
  split_ifs at h
  cases h
  exact ⟨rfl, rfl, rfl, rfl, fun h => h⟩

theorem Req.close_follows (h : r.close = some r') : r.Follows r' := by
  unfold Req.close at h
  split_ifs at h
  split at h <;> cases h <;> exact ⟨rfl, rfl, rfl, rfl, Req.Supplies.isPrefix⟩

/-! ## The requests of a stream -/

/-- What a stream has emitted of the requests `msgs`, while the one at index `request` is in the
buffer. If that is not the one that it has last looked at, there is a notification. -/
structure Stream.Invariant (msgs : List Request) (request : Option ℕ) (t : Stream) : Prop where
  accepted : ∀ msg ∈ t.emitted, msg ∈ msgs
  increasing : (t.emitted.map (·.sequence)).Pairwise (· < ·)
  emitted_le : ∀ msg ∈ t.emitted, msg.sequence ≤ t.lastSeq
  last : t.lastSeq = 0 ∨ ∃ msg ∈ t.emitted, msg.sequence = t.lastSeq
  sending : ∀ k, t.phase = .sending k → (∃ msg, msgs[k]? = some msg ∧ t.lastSeq < msg.sequence) ∧
    (t.newAdded = false → ∀ k', request = some k' → k' = k)
  waiting : t.phase = .waiting → t.newAdded = false → ∀ k, request = some k →
    ∃ msg, msgs[k]? = some msg ∧ msg ∈ t.emitted

variable {msgs : List Request} {request : Option ℕ} {t t' : Stream}

theorem Stream.Invariant.removed (h : t.Invariant msgs request) : t.Invariant msgs none :=
  ⟨h.accepted, h.increasing, h.emitted_le, h.last,
    fun k hk => ⟨(h.sending k hk).1, fun _ _ hnone => nomatch hnone⟩,
    fun _ _ _ hnone => nomatch hnone⟩

/-- A request is put into the buffer. -/
theorem Stream.Invariant.notify (h : t.Invariant msgs none) (msg : Request) (request : Option ℕ) :
    t.notify.Invariant (msgs ++ [msg]) request := by
  have haccepted : ∀ m ∈ t.emitted, m ∈ msgs ++ [msg] :=
    fun m hm => List.mem_append_left _ (h.accepted m hm)
  have hsending : ∀ k, t.phase = .sending k →
      ∃ m, (msgs ++ [msg])[k]? = some m ∧ t.lastSeq < m.sequence := by
    intro k hk
    obtain ⟨m, hm, hlt⟩ := (h.sending k hk).1
    exact ⟨m, List.getElem?_append_left (List.getElem?_eq_some_iff.mp hm).1 ▸ hm, hlt⟩
  obtain ⟨phase, lastSeq, newAdded, canceled, emitted⟩ := t
  cases phase with
  | starting =>
      exact ⟨haccepted, h.increasing, h.emitted_le, h.last, (fun _ hk => nomatch hk),
        fun hw => nomatch hw⟩
  | _ =>
      exact ⟨haccepted, h.increasing, h.emitted_le, h.last,
        fun k hk => ⟨hsending k hk, fun hfalse => nomatch hfalse⟩, fun _ hfalse => nomatch hfalse⟩

theorem Stream.Invariant.cancel (h : t.Invariant msgs request) :
    Stream.Invariant msgs request { t with canceled := true } :=
  ⟨h.accepted, h.increasing, h.emitted_le, h.last, h.sending, h.waiting⟩

/-- The requests that have been put into the buffer. Only the last one may still be in it. -/
structure Buffered (lastSeq : UInt64) (request : Option ℕ) (requests : List Req) : Prop where
  increasing : (requests.map (·.msg.sequence)).Pairwise (· < ·)
  pos : ∀ r ∈ requests, 0 < r.msg.sequence
  le : ∀ r ∈ requests, r.msg.sequence ≤ lastSeq
  current : ∀ k, request = some k →
    ∃ r, requests[k]? = some r ∧ r.removed = false ∧ r.msg.sequence = lastSeq
  only : ∀ (k : ℕ) r, requests[k]? = some r → r.removed = false → request = some k

variable {s s' : State}

theorem getElem?_msg {requests : List Req} {k : ℕ} (h : requests[k]? = some r) :
    (requests.map (·.msg))[k]? = some r.msg := by
  rw [List.getElem?_map, h, Option.map_some]

/-- No two requests have the same sequence number. -/
theorem Buffered.msg_eq_of_sequence_eq {lastSeq : UInt64} {requests : List Req}
    (h : Buffered lastSeq request requests) {r₁ r₂ : Req} (h₁ : r₁ ∈ requests)
    (h₂ : r₂ ∈ requests) (heq : r₁.msg.sequence = r₂.msg.sequence) : r₁.msg = r₂.msg := by
  have hnodup : (requests.map (·.msg.sequence)).Nodup := h.increasing.imp UInt64.ne_of_lt
  rw [List.inj_on_of_nodup_map hnodup h₁ h₂ heq]

/-- A stream that has seen a sequence number as high as that of the request in the buffer has
emitted that request. -/
theorem Stream.Invariant.mem_emitted {k : ℕ} (h : t.Invariant (s.requests.map (·.msg)) request)
    (hbuf : Buffered s.lastSeq (some k) s.requests) (hr : s.requests[k]? = some r)
    (hle : r.msg.sequence ≤ t.lastSeq) : r.msg ∈ t.emitted := by
  have hmem := List.mem_of_getElem? hr
  rcases h.last with hzero | ⟨m, hm, hseq⟩
  · have hpos := hbuf.pos r hmem
    rw [hzero] at hle
    exact absurd hpos (UInt64.not_lt.mpr hle)
  · obtain ⟨r₂, hr₂, rfl⟩ := List.mem_map.mp (h.accepted m hm)
    obtain ⟨r₁, hr₁, -, hlast⟩ := hbuf.current k rfl
    cases hr₁.symm.trans hr
    have hge : r₂.msg.sequence ≤ r.msg.sequence := hlast ▸ hbuf.le r₂ hr₂
    have heq : r.msg.sequence = r₂.msg.sequence := UInt64.le_antisymm (hseq ▸ hle) hge
    rwa [hbuf.msg_eq_of_sequence_eq hmem hr₂ heq]

/-- The consumer receives the request. -/
theorem Stream.Invariant.emit {k : ℕ} {msg : Request} (h : t.Invariant msgs request)
    (hphase : t.phase = .sending k) (hmsg : msgs[k]? = some msg) :
    Stream.Invariant msgs request
      { t with phase := .waiting, lastSeq := msg.sequence, emitted := t.emitted ++ [msg] } := by
  obtain ⟨⟨_, hmsg', hlt⟩, hcur⟩ := h.sending k hphase
  cases hmsg.symm.trans hmsg'
  refine ⟨fun m hm => ?_, ?_, fun m hm => ?_, .inr ⟨msg, by simp, rfl⟩, (fun _ hk => nomatch hk),
    fun _ hfalse k' hk' => ?_⟩
  · rcases List.mem_append.mp hm with hm | hm
    · exact h.accepted m hm
    · cases List.mem_singleton.mp hm
      exact List.mem_of_getElem? hmsg
  · rw [List.map_append, List.map_singleton, List.pairwise_append]
    refine ⟨h.increasing, List.pairwise_singleton _ _, fun a ha b hb => ?_⟩
    obtain ⟨m, hm, rfl⟩ := List.mem_map.mp ha
    cases List.mem_singleton.mp hb
    exact UInt64.lt_of_le_of_lt (h.emitted_le m hm) hlt
  · rcases List.mem_append.mp hm with hm | hm
    · exact UInt64.le_of_lt (UInt64.lt_of_le_of_lt (h.emitted_le m hm) hlt)
    · cases List.mem_singleton.mp hm
      exact UInt64.le_refl _
  · cases hcur hfalse k' hk'
    exact ⟨msg, hmsg, by simp⟩

theorem Stream.Invariant.advance {choice : Choice}
    (h : t.Invariant (s.requests.map (·.msg)) s.request)
    (hbuf : Buffered s.lastSeq s.request s.requests) (hstep : t.advance s choice = some t') :
    t'.Invariant (s.requests.map (·.msg)) s.request := by
  obtain ⟨phase, lastSeq, newAdded, canceled, emitted⟩ := t
  cases choice with
  | proceed =>
      cases phase with
      | starting =>
          cases hstep
          exact ⟨h.accepted, h.increasing, h.emitted_le, h.last, (fun _ hk => nomatch hk),
            fun hw => nomatch hw⟩
      | looping =>
          simp only [Stream.advance] at hstep
          split at hstep
          · next hnone =>
              cases hstep
              exact ⟨h.accepted, h.increasing, h.emitted_le, h.last, (fun _ hk => nomatch hk),
                fun _ _ k hk => nomatch hnone.symm.trans hk⟩
          · next k hsome =>
              obtain ⟨r, hr, hstep⟩ := Option.bind_eq_some_iff.mp hstep
              cases hstep
              refine ⟨h.accepted, h.increasing, h.emitted_le, h.last, fun k' hk' => ?_,
                fun hw _ k' hk' => ?_⟩
              · dsimp only at hk'
                split_ifs at hk' with hlt
                cases hk'
                refine ⟨⟨r.msg, getElem?_msg hr, hlt⟩, fun _ k' hk' => ?_⟩
                exact (Option.some.inj (hsome.symm.trans hk')).symm
              · dsimp only at hw
                split_ifs at hw with hlt
                cases Option.some.inj (hsome.symm.trans hk')
                exact ⟨r.msg, getElem?_msg hr,
                  h.mem_emitted (hsome ▸ hbuf) hr (UInt64.not_lt.mp hlt)⟩
      | sending k =>
          obtain ⟨r, hr, hstep⟩ := Option.bind_eq_some_iff.mp hstep
          cases hstep
          exact h.emit rfl (getElem?_msg hr)
      | waiting =>
          simp only [Stream.advance] at hstep
          split_ifs at hstep
          cases hstep
          exact ⟨h.accepted, h.increasing, h.emitted_le, h.last, (fun _ hk => nomatch hk),
            fun hw => nomatch hw⟩
      | returned => cases hstep
  | removed =>
      cases phase with
      | sending k =>
          simp only [Stream.advance] at hstep
          split_ifs at hstep with hremoved
          cases hstep
          refine ⟨h.accepted, h.increasing, h.emitted_le, h.last, (fun _ hk => nomatch hk),
            fun _ hfalse k' hk' => ?_⟩
          -- the request in the buffer would be the removed one
          cases (h.sending k rfl).2 hfalse k' hk'
          obtain ⟨r, hr, hr'⟩ := (Option.any_eq_true _ _).mp hremoved
          obtain ⟨r₁, hr₁, hnot, -⟩ := hbuf.current k hk'
          cases hr₁.symm.trans hr
          exact absurd hr' (by rw [hnot]; exact Bool.false_ne_true)
      | _ => cases hstep
  | cancel =>
      simp only [Stream.advance] at hstep
      split_ifs at hstep
      split at hstep <;> cases hstep <;>
        exact ⟨h.accepted, h.increasing, h.emitted_le, h.last, (fun _ hk => nomatch hk),
          fun hw => nomatch hw⟩

/-! ## The whole buffer -/

structure Consistent (s : State) : Prop where
  buffered : Buffered s.lastSeq s.request s.requests
  requests : ∀ r ∈ s.requests, r.Invariant
  streams : ∀ t ∈ s.streams, t.Invariant (s.requests.map (·.msg)) s.request
  replies : ∀ msg k, (msg, k) ∈ s.replies →
    ∃ r, s.requests[k]? = some r ∧ r.msg.sequence = msg.sequence

theorem consistent_init : Consistent init := by
  refine ⟨⟨List.Pairwise.nil, ?_, ?_, (fun _ h => nomatch h), fun _ _ h => nomatch h⟩,
    ?_, ?_, ?_⟩ <;> exact fun _ => by simp [init]

theorem exists_getElem?_set {requests : List Req} {k i : ℕ} {a : Req} (r' : Req)
    (hr : requests[k]? = some r) (ha : requests[i]? = some a) :
    ∃ a', (requests.set k r')[i]? = some a' ∧ (a' = a ∨ i = k ∧ a = r ∧ a' = r') := by
  rw [List.getElem?_set]
  split_ifs with hi hlt
  · subst hi
    cases hr.symm.trans ha
    exact ⟨r', rfl, .inr ⟨rfl, rfl, rfl⟩⟩
  · subst hi
    exact absurd (List.getElem?_eq_some_iff.mp hr).1 hlt
  · exact ⟨a, ha, .inl rfl⟩

theorem Buffered.set {lastSeq : UInt64} {requests : List Req} {k : ℕ}
    (h : Buffered lastSeq request requests) (hr : requests[k]? = some r)
    (hmsg : r'.msg = r.msg) (hremoved : r'.removed = r.removed) :
    Buffered lastSeq request (requests.set k r') := by
  have hmem := List.mem_of_getElem? hr
  refine ⟨?_, fun a ha => ?_, fun a ha => ?_, fun i hi => ?_, fun i a ha hnot => ?_⟩
  · rw [List.map_set_of_eq hr (congrArg Request.sequence hmsg)]
    exact h.increasing
  · rcases List.mem_or_eq_of_mem_set ha with ha | rfl
    · exact h.pos a ha
    · rw [hmsg]
      exact h.pos r hmem
  · rcases List.mem_or_eq_of_mem_set ha with ha | rfl
    · exact h.le a ha
    · rw [hmsg]
      exact h.le r hmem
  · obtain ⟨a, ha, hnot, hlast⟩ := h.current i hi
    obtain ⟨a', ha', rfl | ⟨-, rfl, rfl⟩⟩ := exists_getElem?_set r' hr ha
    · exact ⟨a', ha', hnot, hlast⟩
    · exact ⟨a', ha', hremoved ▸ hnot, hmsg ▸ hlast⟩
  · rw [List.getElem?_set] at ha
    split_ifs at ha with hi hlt
    · cases ha
      subst hi
      exact h.only k r hr (hremoved ▸ hnot)
    · exact h.only i a ha hnot

theorem Buffered.removed {lastSeq : UInt64} {requests : List Req} {k : ℕ}
    (h : Buffered lastSeq (some k) requests) (hr : requests[k]? = some r) :
    Buffered lastSeq none (requests.set k { r with removed := true }) := by
  have hmem := List.mem_of_getElem? hr
  refine ⟨?_, fun a ha => ?_, fun a ha => ?_, (fun i hi => nomatch hi), fun i a ha hnot => ?_⟩
  · rw [List.map_set_of_eq (b := { r with removed := true }) hr rfl]
    exact h.increasing
  · rcases List.mem_or_eq_of_mem_set ha with ha | rfl
    · exact h.pos a ha
    · exact h.pos r hmem
  · rcases List.mem_or_eq_of_mem_set ha with ha | rfl
    · exact h.le a ha
    · exact h.le r hmem
  · rw [List.getElem?_set] at ha
    split_ifs at ha with hi hlt
    · cases ha
      cases hnot
    · exact absurd (Option.some.inj (h.only i a ha hnot)) hi

/-- A new request is put into the empty buffer. -/
theorem Buffered.append {lastSeq : UInt64} {requests : List Req} (r : Req)
    (h : Buffered lastSeq none requests) (hnot : r.removed = false)
    (hlt : lastSeq < r.msg.sequence) :
    Buffered r.msg.sequence (some requests.length) (requests ++ [r]) := by
  refine ⟨?_, fun a ha => ?_, fun a ha => ?_, fun i hi => ?_, fun i a ha hnot => ?_⟩
  · rw [List.map_append, List.map_singleton, List.pairwise_append]
    refine ⟨h.increasing, List.pairwise_singleton _ _, fun a ha b hb => ?_⟩
    obtain ⟨a, hmem, rfl⟩ := List.mem_map.mp ha
    cases List.mem_singleton.mp hb
    exact UInt64.lt_of_le_of_lt (h.le a hmem) hlt
  · rcases List.mem_append.mp ha with ha | ha
    · exact h.pos a ha
    · cases List.mem_singleton.mp ha
      exact UInt64.lt_of_le_of_lt UInt64.zero_le hlt
  · rcases List.mem_append.mp ha with ha | ha
    · exact UInt64.le_of_lt (UInt64.lt_of_le_of_lt (h.le a ha) hlt)
    · cases List.mem_singleton.mp ha
      exact UInt64.le_refl _
  · cases hi
    exact ⟨r, List.getElem?_concat_length, hnot, rfl⟩
  · rcases Nat.lt_or_ge i requests.length with hi | hi
    · rw [List.getElem?_append_left hi] at ha
      cases h.only i a ha hnot
    · have hlen := (List.getElem?_eq_some_iff.mp ha).1
      rw [List.length_append, List.length_singleton] at hlen
      rw [Nat.le_antisymm (Nat.lt_succ_iff.mp hlen) hi]

theorem Consistent.set {k : ℕ} (h : Consistent s) (hr : s.requests[k]? = some r)
    (hinv : r'.Invariant) (hmsg : r'.msg = r.msg) (hremoved : r'.removed = r.removed) :
    Consistent { s with requests := s.requests.set k r' } := by
  refine ⟨h.buffered.set hr hmsg hremoved, fun a ha => ?_, fun t ht => ?_, fun msg i hi => ?_⟩
  · rcases List.mem_or_eq_of_mem_set ha with ha | rfl
    · exact h.requests a ha
    · exact hinv
  · rw [List.map_set_of_eq hr hmsg]
    exact h.streams t ht
  · obtain ⟨a, ha, hseq⟩ := h.replies msg i hi
    obtain ⟨a', ha', rfl | ⟨-, rfl, rfl⟩⟩ := exists_getElem?_set r' hr ha
    · exact ⟨a', ha', hseq⟩
    · exact ⟨a', ha', hmsg ▸ hseq⟩

theorem Consistent.updateReq {k : ℕ} {f : Req → Option Req} (h : Consistent s)
    (hf : ∀ r r', f r = some r' → r.Follows r') (hstep : updateReq s k f = some s') :
    Consistent s' := by
  obtain ⟨r, hr, hstep⟩ := Option.bind_eq_some_iff.mp hstep
  obtain ⟨r', hr', hstep⟩ := Option.bind_eq_some_iff.mp hstep
  cases hstep
  have hfollows := hf r r' hr'
  exact h.set hr (hfollows.invariant (h.requests r (List.mem_of_getElem? hr))) hfollows.msg
    hfollows.removed

theorem Consistent.updateStream {i : ℕ} {f : Stream → Option Stream} (h : Consistent s)
    (hf : ∀ t t', t.Invariant (s.requests.map (·.msg)) s.request → f t = some t' →
      t'.Invariant (s.requests.map (·.msg)) s.request)
    (hstep : updateStream s i f = some s') : Consistent s' := by
  obtain ⟨t, ht, hstep⟩ := Option.bind_eq_some_iff.mp hstep
  obtain ⟨t', ht', hstep⟩ := Option.bind_eq_some_iff.mp hstep
  cases hstep
  refine ⟨h.buffered, h.requests, fun x hx => ?_, h.replies⟩
  rcases List.mem_or_eq_of_mem_set hx with hx | rfl
  · exact h.streams x hx
  · exact hf t x (h.streams t (List.mem_of_getElem? ht)) ht'

/-- What a call does apart from its own progress is all that matters. -/
theorem Consistent.calls (h : Consistent s) (calls : List Call) :
    Consistent { s with calls } := ⟨h.buffered, h.requests, h.streams, h.replies⟩

theorem Consistent.removeRequest (h : Consistent s) (seq : UInt64) :
    Consistent (removeRequest s seq) := by
  unfold RequestBuffer.removeRequest
  split
  · exact h
  · next k hk =>
      split
      · exact h
      · next r hr =>
          split_ifs with hne
          · exact h
          · refine ⟨Buffered.removed (hk ▸ h.buffered) hr, fun a ha => ?_, fun t ht => ?_,
              fun msg i hi => ?_⟩
            · rcases List.mem_or_eq_of_mem_set ha with ha | rfl
              · exact h.requests a ha
              · have hinv := h.requests r (List.mem_of_getElem? hr)
                exact ⟨hinv.sequence, hinv.replicas, hinv.nodup, hinv.supplies⟩
            · rw [List.map_set_of_eq (b := { r with removed := true }) hr rfl]
              exact (h.streams t ht).removed
            · obtain ⟨a, ha, hseq⟩ := h.replies msg i hi
              obtain ⟨a', ha', rfl | ⟨-, rfl, rfl⟩⟩ :=
                exists_getElem?_set { r with removed := true } hr ha
              · exact ⟨a', ha', hseq⟩
              · exact ⟨_, ha', hseq⟩

theorem Consistent.addRequest (h : Consistent s) (i : ℕ) (c : Call) :
    Consistent (addRequest s i c) := by
  unfold RequestBuffer.addRequest
  split
  · exact h.calls _
  · next hnone =>
      split_ifs with hle
      · exact h.calls _
      · refine ⟨Buffered.append (newRequest c.msg i) (hnone ▸ h.buffered) rfl
          (UInt64.not_le.mp hle), fun a ha => ?_, fun t ht => ?_, fun msg k hk => ?_⟩
        · rcases List.mem_append.mp ha with ha | ha
          · exact h.requests a ha
          · cases List.mem_singleton.mp ha
            exact invariant_newRequest c.msg i
        · obtain ⟨t, hmem, rfl⟩ := List.mem_map.mp ht
          rw [List.map_append]
          exact (hnone ▸ h.streams t hmem).notify c.msg _
        · obtain ⟨a, ha, hseq⟩ := h.replies msg k hk
          exact ⟨a, (List.getElem?_append_left (List.getElem?_eq_some_iff.mp ha).1).trans ha, hseq⟩

theorem Consistent.addReply (h : Consistent s) (msg : Reply) : Consistent (addReply s msg) := by
  unfold RequestBuffer.addReply
  split
  · exact h
  · split
    · exact h
    · next k _ _ r hr =>
        split_ifs with hne
        · exact h
        · refine ⟨h.buffered, h.requests, h.streams, fun m i hi => ?_⟩
          rcases List.mem_append.mp hi with hi | hi
          · exact h.replies m i hi
          · cases List.mem_singleton.mp hi
            exact ⟨r, hr, not_not.mp hne⟩

theorem Consistent.insert {i k : ℕ} {msg : Reply} (h : Consistent s)
    (hreply : s.replies[i]? = some (msg, k)) (hr : s.requests[k]? = some r) :
    Consistent { s with
      replies := s.replies.eraseIdx i
      requests := s.requests.set k { r with replySet := r.replySet.addReply msg } } := by
  obtain ⟨r₁, hr₁, hseq⟩ := h.replies msg k (List.mem_of_getElem? hreply)
  cases hr₁.symm.trans hr
  have hset := h.set hr ((h.requests r (List.mem_of_getElem? hr)).insert hseq) rfl rfl
  exact ⟨hset.buffered, hset.requests, hset.streams,
    fun m j hj => hset.replies m j (List.mem_of_mem_eraseIdx hj)⟩

theorem Consistent.step {l : Label} (h : Consistent s) (hstep : step s l = some s') :
    Consistent s' := by
  cases l with
  | addRequest msg =>
      cases hstep
      exact h.calls _
  | add i =>
      obtain ⟨c, hc, hstep⟩ := Option.bind_eq_some_iff.mp hstep
      split at hstep <;> cases hstep
      exact h.addRequest i c
  | wake i =>
      obtain ⟨c, hc, hstep⟩ := Option.bind_eq_some_iff.mp hstep
      split at hstep
      · split_ifs at hstep
        cases hstep
        exact h.calls _
      · cases hstep
  | giveUp i =>
      obtain ⟨c, hc, hstep⟩ := Option.bind_eq_some_iff.mp hstep
      split at hstep
      · split_ifs at hstep
        cases hstep
        exact (h.calls _).removeRequest _
      · cases hstep
  | cancel i =>
      obtain ⟨c, hc, hstep⟩ := Option.bind_eq_some_iff.mp hstep
      cases hstep
      exact h.calls _
  | removeRequest seq =>
      cases hstep
      exact h.removeRequest seq
  | addReply msg =>
      cases hstep
      exact h.addReply msg
  | insert i =>
      obtain ⟨⟨msg, k⟩, hreply, hstep⟩ := Option.bind_eq_some_iff.mp hstep
      obtain ⟨r, hr, hstep⟩ := Option.bind_eq_some_iff.mp hstep
      cases hstep
      exact h.insert hreply hr
  | supply k => exact h.updateReq (fun _ _ => Req.supply_follows) hstep
  | receive k =>
      refine h.updateReq (fun r r' hr => ?_) hstep
      cases hr
      exact ⟨rfl, rfl, rfl, rfl, fun h => h⟩
  | finish k => exact h.updateReq (fun _ _ => Req.finish_follows) hstep
  | close k => exact h.updateReq (fun _ _ => Req.close_follows) hstep
  | requestStream =>
      cases hstep
      refine ⟨h.buffered, h.requests, fun t ht => ?_, h.replies⟩
      rcases List.mem_append.mp ht with ht | ht
      · exact h.streams t ht
      · cases List.mem_singleton.mp ht
        exact ⟨fun _ hm => absurd hm List.not_mem_nil, List.Pairwise.nil,
          fun _ hm => absurd hm List.not_mem_nil, .inl rfl, (fun _ hk => nomatch hk),
          fun hw => nomatch hw⟩
  | advance i choice =>
      exact h.updateStream (fun _ _ hinv => hinv.advance h.buffered) hstep
  | cancelStream i =>
      refine h.updateStream (fun t t' hinv ht => ?_) hstep
      cases ht
      exact hinv.cancel

theorem consistent_of_reachable (h : Reachable s) : Consistent s :=
  h.invariant consistent_init fun _ _ _ hcons _ hstep => hcons.step hstep

/-! ## What callers and consumers can rely on -/

structure Stream.Served (s : State) (t : Stream) : Prop where
  increasing : (t.emitted.map (·.sequence)).Pairwise (· < ·)
  accepted : ∀ msg ∈ t.emitted, msg ∈ s.requests.map (·.msg)
  /-- No wake-up is lost. -/
  upToDate : t.phase = .waiting → t.newAdded = false → ∀ k, s.request = some k →
    ∃ r, s.requests[k]? = some r ∧ r.msg ∈ t.emitted

structure Req.Served (r : Req) : Prop where
  inOrder : r.emitted <+: r.replySet.msgs
  sequence : ∀ msg ∈ r.replySet.msgs, msg.sequence = r.msg.sequence
  oneEach : (r.emitted.map (·.replicaID)).Nodup
  /-- No wake-up is lost. -/
  upToDate : ∀ next, r.supplier = .waiting next → r.replySet.newAdded = false →
    r.emitted = r.replySet.msgs

structure Orderly (s : State) : Prop where
  increasing : (s.requests.map (·.msg.sequence)).Pairwise (· < ·)
  /-- The request in the buffer is the only one that has not been removed. -/
  one : ∀ (k : ℕ) r, s.requests[k]? = some r → (r.removed = false ↔ s.request = some k)
  streams : ∀ t ∈ s.streams, t.Served s
  replies : ∀ r ∈ s.requests, r.Served

theorem Req.Invariant.served (h : r.Invariant) : r.Served := by
  have hpre := h.supplies.isPrefix
  refine ⟨hpre, h.sequence, (hpre.map _).sublist.nodup h.nodup, fun next hwait hfalse => ?_⟩
  have hsupplies := h.supplies
  unfold Req.Supplies at hsupplies
  rw [hwait] at hsupplies
  obtain ⟨hreads, hall⟩ := hsupplies
  rw [hall hfalse] at hreads
  exact hreads.drained

theorem Stream.Invariant.served (h : t.Invariant (s.requests.map (·.msg)) s.request) :
    t.Served s := by
  refine ⟨h.increasing, h.accepted, fun hwait hfalse k hk => ?_⟩
  obtain ⟨msg, hmsg, hmem⟩ := h.waiting hwait hfalse k hk
  rw [List.getElem?_map] at hmsg
  obtain ⟨r, hr, rfl⟩ := Option.map_eq_some_iff.mp hmsg
  exact ⟨r, hr, hmem⟩

/-- In whatever order the calls, the goroutines and their consumers make their steps, requests and
replies reach those that wait for them. -/
theorem orderly (h : Reachable s) : Orderly s := by
  have hcons := consistent_of_reachable h
  refine ⟨hcons.buffered.increasing, fun k r hr => ⟨hcons.buffered.only k r hr, fun hk => ?_⟩,
    fun t ht => (hcons.streams t ht).served, fun r hr => (hcons.requests r hr).served⟩
  obtain ⟨r₁, hr₁, hnot, -⟩ := hcons.buffered.current k hk
  cases hr₁.symm.trans hr
  exact hnot

end RequestBuffer

namespace Concrete

open RequestBuffer

def bufferedRequest (seq : UInt64) : Request := ⟨0, seq, [], []⟩

def bufferedReply (replicaID : UInt32) (seq : UInt64) : Reply := ⟨replicaID, 0, seq, [], []⟩

/-- The stream is about to send the first request when that is removed and replaced, and misses it.
A reply to the first request is added after its removal. -/
def replacedRequest : List Label :=
  [.requestStream, .advance 0 .proceed, .addRequest (bufferedRequest 1), .add 0,
    .advance 0 .proceed, .addReply (bufferedReply 0 1), .addReply (bufferedReply 1 1), .insert 0,
    .supply 0, .supply 0, .supply 0, .removeRequest 1, .insert 0, .addRequest (bufferedRequest 2),
    .add 1, .advance 0 .removed, .advance 0 .proceed, .advance 0 .proceed, .advance 0 .proceed]

theorem orderly_replacedRequest : ∃ s, Reachable s ∧
    (s.streams.any (·.emitted == [bufferedRequest 2]) &&
      s.requests.any (·.replySet.msgs == [bufferedReply 0 1, bufferedReply 1 1])) = true ∧
    Orderly s := by
  have h : (Machine.exec step (fun _ _ => true) init replacedRequest).any
      (fun s => s.streams.any (·.emitted == [bufferedRequest 2]) &&
        s.requests.any (·.replySet.msgs == [bufferedReply 0 1, bufferedReply 1 1])) = true := by
    decide +kernel
  obtain ⟨s, hreach, hs⟩ := Machine.exists_reachable (fun _ _ _ _ => trivial) h
  exact ⟨s, hreach, hs, orderly hreach⟩

end Concrete

end MinBFT
