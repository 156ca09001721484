import MinBFT.Lib.Machine
import MinBFT.Lib.Sums
import MinBFT.Validation

/-!
# The client

Package `client`: how the result of a request is collected. A call of `Request` puts its Request
into a buffer that holds one at a time. Replies that arrive are authenticated and added to the
request they belong to, one for each replica; a goroutine supplies them in that order to another
one, which counts equal results and yields the first that more than `f` replicas agree on.

A step is what a goroutine does under a lock or with a channel. Any number of calls and of replies
may be under way at the same time, and every request ever put into the buffer keeps its goroutines,
whether or not it has been removed.
-/

namespace MinBFT

namespace Client

structure Params where
  clientID : UInt32
  f : UInt32
  crypto : Crypto
  /-- The authenticator's tag for the bytes of a Request. -/
  requestSignature : Bytes → Bytes

/-! ## The request buffer -/

structure ReplySet where
  replicas : List UInt32
  msgs : List Reply
  /-- The buffered notification. -/
  newAdded : Bool

def newReplySet : ReplySet := ⟨[], [], false⟩

def ReplySet.addReply (rs : ReplySet) (msg : Reply) : ReplySet :=
  if rs.replicas.contains msg.replicaID then rs
  else ⟨msg.replicaID :: rs.replicas, rs.msgs ++ [msg], true⟩

inductive Supplier where
  | looping (next : ℕ)
  | sending (next : ℕ) (msgs : List Reply)
  | waiting (next : ℕ)
  | done

inductive Collector where
  | receiving (matchingResults : Bytes → UInt32)
  | removing (reply : Reply)
  | sending (result : Bytes)
  | done

/-- A request with its goroutines and channels. The channel of replies buffers one, and of the
channel of results we keep all that has been sent. -/
structure Req where
  msg : Request
  removed : Bool
  replySet : ReplySet
  supplier : Supplier
  replyChannel : Option Reply
  collector : Collector
  resultChan : List Bytes

def newReq (msg : Request) : Req :=
  ⟨msg, false, newReplySet, .looping 0, none, .receiving fun _ => 0, []⟩

namespace Req

/-- One step of `replySet.supplyReplies`; `none` if it is blocked. -/
def supply (r : Req) : Option Req :=
  match r.supplier with
  | .looping next =>
      some { r with supplier := .sending r.replySet.msgs.length (r.replySet.msgs.drop next) }
  | .sending next [] => some { r with supplier := .waiting next }
  | .sending next (msg :: msgs) =>
      match r.replyChannel with
      | none => some { r with supplier := .sending next msgs, replyChannel := some msg }
      | some _ => none
  | .waiting next =>
      if r.replySet.newAdded then
        some { r with supplier := .looping next, replySet := { r.replySet with newAdded := false } }
      else none
  | .done => none

def cancel (r : Req) (stopped : Bool) : Option Req :=
  if r.removed || stopped then
    match r.supplier with
    | .sending _ (_ :: _) => some { r with supplier := .done }
    | .waiting _ => some { r with supplier := .done }
    | _ => none
  else none

def suppliesNoMore (r : Req) : Bool :=
  match r.supplier with
  | .done => true
  | _ => false

/-- The Reply that has settled the result, while its request is still to be removed. -/
def removing (r : Req) : Option Reply :=
  match r.collector with
  | .removing reply => some reply
  | _ => none

/-- One step of `collectReplies` other than the removal of the request. -/
def collect (p : Params) (r : Req) : Option Req :=
  match r.collector with
  | .receiving matchingResults =>
      match r.replyChannel with
      | some reply =>
          let hash := p.crypto.sha256 reply.result
          let matchingResults := Function.update matchingResults hash (matchingResults hash + 1)
          if matchingResults hash > p.f then
            some { r with replyChannel := none, collector := .removing reply }
          else some { r with replyChannel := none, collector := .receiving matchingResults }
      | none => if r.suppliesNoMore then some { r with collector := .done } else none
  | .removing _ => none
  | .sending result =>
      some { r with collector := .done, resultChan := r.resultChan ++ [result] }
  | .done => none

end Req

/-! ## The state machine -/

/-- Where a call of `Request` is: at the head of the loop in `AddRequest`, waiting for the request
in the buffer, or past it. -/
inductive Phase where
  | adding
  | waiting (seq : UInt64) (request : ℕ)
  | added (request : ℕ)

structure Call where
  operation : Bytes
  msg : Request
  phase : Phase

structure State where
  nextSeq : UInt64
  lastSeq : UInt64
  /-- The request in the buffer, as an index. -/
  request : Option ℕ
  /-- All requests ever put into the buffer. -/
  requests : List Req
  calls : List Call
  /-- All Replies that have come in. -/
  arrived : List Reply
  /-- Replies on the way to the request that was in the buffer when `AddReply` looked. -/
  replies : List (Reply × ℕ)
  stopped : Bool
  panicked : Bool

def init (startSeq : UInt64) : State := ⟨startSeq, 0, none, [], [], [], [], false, false⟩

inductive Label where
  | call (operation : Bytes)
  | add (i : ℕ)
  | wake (i : ℕ)
  | giveUp (i : ℕ)
  | reply (msg : Reply)
  | addReply (i : ℕ)
  | supply (request : ℕ)
  | cancel (request : ℕ)
  | collect (request : ℕ)
  | remove (request : ℕ)
  | terminate

def prepareRequest (p : Params) (seq : UInt64) (operation : Bytes) : Request :=
  let request : Request := ⟨p.clientID, seq, operation, []⟩
  { request with signature := p.requestSignature (request.authenBytes p.crypto.sha256) }

def removeRequest (s : State) (seq : UInt64) : State :=
  match s.request with
  | none => s
  | some k =>
      match s.requests[k]? with
      | none => s
      | some r =>
          if r.msg.sequence ≠ seq then s
          else { s with requests := s.requests.set k { r with removed := true }, request := none }

/-- The replica that signed a Reply is the one it names, and the Reply is for this client. -/
def authenticateReply (p : Params) (reply : Reply) : Bool :=
  reply.clientID == p.clientID &&
    p.crypto.verifyMessageAuthenTag .replicaAuthen reply.replicaID
      (reply.authenBytes p.crypto.sha256) reply.signature

/-- A Reply has come in on some connection. The first part of `AddReply` finds the request in the
buffer. -/
def handleReply (p : Params) (s : State) (reply : Reply) : State :=
  let s := { s with arrived := s.arrived ++ [reply] }
  if authenticateReply p reply then
    match s.request with
    | none => s
    | some k =>
        match s.requests[k]? with
        | none => s
        | some r =>
            if r.msg.sequence ≠ reply.sequence then s
            else { s with replies := s.replies ++ [(reply, k)] }
  else s

def handleRequest (p : Params) (s : State) (operation : Bytes) : State :=
  { s with
    nextSeq := s.nextSeq + 1,
    calls := s.calls ++ [⟨operation, prepareRequest p s.nextSeq operation, .adding⟩] }

/-- `AddRequest` while it holds the lock; a request that is rejected makes the client panic. -/
def addRequest (s : State) (i : ℕ) (c : Call) : State :=
  match s.request with
  | some k => { s with calls := s.calls.set i { c with phase := .waiting s.lastSeq k } }
  | none =>
      if c.msg.sequence ≤ s.lastSeq then { s with panicked := true }
      else
        { s with
          lastSeq := c.msg.sequence,
          request := some s.requests.length,
          requests := s.requests ++ [newReq c.msg],
          calls := s.calls.set i { c with phase := .added s.requests.length } }

def updateReq (s : State) (k : ℕ) (f : Req → Option Req) : Option State := do
  let r ← s.requests[k]?
  let r' ← f r
  return { s with requests := s.requests.set k r' }

/-- A call that waited for the request in the buffer is back at the head of the loop. -/
def resume (s : State) (i : ℕ) (c : Call) : State :=
  { s with calls := s.calls.set i { c with phase := .adding } }

def act (p : Params) (s : State) : Label → Option State
  | .call operation => some (handleRequest p s operation)
  | .add i => do
      let c ← s.calls[i]?
      match c.phase with
      | .adding => return addRequest s i c
      | _ => none
  | .wake i => do
      let c ← s.calls[i]?
      match c.phase with
      | .waiting _ k => if (s.requests[k]?).any Req.removed then return resume s i c else none
      | _ => none
  | .giveUp i => do
      let c ← s.calls[i]?
      match c.phase with
      | .waiting seq _ => if s.stopped then return removeRequest (resume s i c) seq else none
      | _ => none
  | .reply msg => some (handleReply p s msg)
  | .addReply i => do
      let (msg, k) ← s.replies[i]?
      let r ← s.requests[k]?
      return { s with
        replies := s.replies.eraseIdx i,
        requests := s.requests.set k { r with replySet := r.replySet.addReply msg } }
  | .supply k => updateReq s k Req.supply
  | .cancel k => updateReq s k fun r => r.cancel s.stopped
  | .collect k => updateReq s k fun r => r.collect p
  | .remove k => do
      let r ← s.requests[k]?
      let reply ← r.removing
      let r' := { r with collector := .sending reply.result }
      return removeRequest { s with requests := s.requests.set k r' } reply.sequence
  | .terminate => some { s with stopped := true }

def step (p : Params) (s : State) (label : Label) : Option State :=
  if s.panicked then none else act p s label

def Reachable (p : Params) (s : State) : Prop :=
  ∃ startSeq, Machine.Reachable (step p) (init startSeq) (fun _ _ => True) s

/-! ## What a request has collected -/

def Accepted (p : Params) (arrived : List Reply) (reply : Reply) : Prop :=
  reply ∈ arrived ∧ authenticateReply p reply = true

/-- More than `f` of the Replies have a result with the hash of this one. -/
def Enough (p : Params) (replies : List Reply) (result : Bytes) : Prop :=
  p.f.toNat < replies.countP fun m => p.crypto.sha256 m.result == p.crypto.sha256 result

instance (p : Params) (replies : List Reply) (result : Bytes) :
    Decidable (Enough p replies result) :=
  inferInstanceAs (Decidable (_ < _))

structure ReplySet.Sound (p : Params) (arrived : List Reply) (seq : UInt64) (rs : ReplySet) :
    Prop where
  accepted : ∀ m ∈ rs.msgs, Accepted p arrived m ∧ m.sequence = seq
  replicas : rs.replicas = (rs.msgs.map Reply.replicaID).reverse
  nodup : rs.replicas.Nodup

def Supplier.batch : Supplier → List Reply
  | sending _ msgs => msgs
  | _ => []

def Supplier.next : Supplier → Option ℕ
  | looping next => some next
  | sending next _ => some next
  | waiting next => some next
  | done => none

/-- The Replies counted, in the channel and about to be sent are the first of the set. -/
structure Supplied (counted : List Reply) (replyChannel : Option Reply) (supplier : Supplier)
    (msgs : List Reply) : Prop where
  first : counted ++ replyChannel.toList ++ supplier.batch <+: msgs
  next : ∀ n, supplier.next = some n →
    (counted ++ replyChannel.toList ++ supplier.batch).length = n

/-- No hash is counted more often than there are Replies with it, nor less often as long as a count
of `f + 1` is a number of 32 bits. -/
structure Tallied (p : Params) (counted : List Reply) (matchingResults : Bytes → UInt32) :
    Prop where
  le : ∀ hash, (matchingResults hash).toNat ≤
    counted.countP fun m => p.crypto.sha256 m.result == hash
  exact : p.f.toNat + 1 < 2 ^ 32 → ∀ hash, matchingResults hash ≤ p.f ∧
    (counted.countP fun m => p.crypto.sha256 m.result == hash) = (matchingResults hash).toNat

def Collected (p : Params) (counted : List Reply) (resultChan : List Bytes) : Collector → Prop
  | .receiving matchingResults => resultChan = [] ∧ Tallied p counted matchingResults
  | .removing reply => resultChan = [] ∧ reply ∈ counted ∧ Enough p counted reply.result
  | .sending result => resultChan = [] ∧ Enough p counted result
  | .done => resultChan.length ≤ 1 ∧ ∀ result ∈ resultChan, Enough p counted result

structure Req.Sound (p : Params) (arrived : List Reply) (r : Req) : Prop where
  replySet : r.replySet.Sound p arrived r.msg.sequence
  collected : ∃ counted, Supplied counted r.replyChannel r.supplier r.replySet.msgs ∧
    Collected p counted r.resultChan r.collector

section Request

variable {p : Params} {arrived : List Reply} {r r' : Req}

theorem sound_newReq (msg : Request) : (newReq msg).Sound p arrived where
  replySet := ⟨(fun _ h => nomatch h), rfl, List.nodup_nil⟩
  collected := ⟨[], ⟨List.nil_prefix, fun _ h => Option.some.inj h⟩, rfl,
    fun _ => Nat.zero_le _, fun _ _ => ⟨UInt32.zero_le, rfl⟩⟩

theorem Accepted.mono {reply m : Reply} (h : Accepted p arrived m) :
    Accepted p (arrived ++ [reply]) m :=
  ⟨List.mem_append_left _ h.1, h.2⟩

theorem Req.Sound.mono {reply : Reply} (h : r.Sound p arrived) :
    r.Sound p (arrived ++ [reply]) where
  replySet :=
    ⟨fun m hm => ⟨(h.replySet.accepted m hm).1.mono, (h.replySet.accepted m hm).2⟩,
      h.replySet.replicas, h.replySet.nodup⟩
  collected := h.collected

theorem ReplySet.Sound.addReply {rs : ReplySet} {seq : UInt64} (h : rs.Sound p arrived seq)
    {msg : Reply} (hmsg : Accepted p arrived msg) (hseq : msg.sequence = seq) :
    (rs.addReply msg).Sound p arrived seq := by
  unfold ReplySet.addReply
  split_ifs with hmem
  · exact h
  · refine ⟨fun m hm => ?_, ?_, ?_⟩
    · rcases List.mem_append.mp hm with hm | hm
      · exact h.accepted m hm
      · cases List.mem_singleton.mp hm
        exact ⟨hmsg, hseq⟩
    · simp [h.replicas]
    · exact List.nodup_cons.mpr ⟨by simpa using hmem, h.nodup⟩

theorem ReplySet.msgs_addReply (rs : ReplySet) (msg : Reply) :
    rs.msgs <+: (rs.addReply msg).msgs := by
  unfold ReplySet.addReply
  split_ifs
  · exact List.prefix_rfl
  · exact List.prefix_append _ _

theorem Req.Sound.addReply (h : r.Sound p arrived) {msg : Reply} (hmsg : Accepted p arrived msg)
    (hseq : msg.sequence = r.msg.sequence) :
    Req.Sound p arrived { r with replySet := r.replySet.addReply msg } := by
  obtain ⟨counted, hsupplied, hcollected⟩ := h.collected
  exact ⟨h.replySet.addReply hmsg hseq, counted,
    ⟨hsupplied.first.trans (r.replySet.msgs_addReply msg), hsupplied.next⟩, hcollected⟩

theorem Req.Sound.supply (h : r.Sound p arrived) (hr' : r.supply = some r') :
    r'.Sound p arrived ∧ r'.msg = r.msg := by
  obtain ⟨counted, hsupplied, hcollected⟩ := h.collected
  have hfirst := hsupplied.first
  have hnext := hsupplied.next
  unfold Req.supply at hr'
  split at hr'
  · next next hs =>
      -- everything added since is taken
      cases hr'
      rw [hs] at hfirst hnext
      obtain ⟨rest, hrest⟩ := hfirst
      have hall : counted ++ r.replyChannel.toList ++ r.replySet.msgs.drop next =
          r.replySet.msgs := by
        rw [← hrest, List.drop_left' (hnext next rfl)]
        simp [Supplier.batch]
      refine ⟨⟨h.replySet, counted, ⟨⟨[], (List.append_nil _).trans hall⟩, ?_⟩, hcollected⟩, rfl⟩
      rintro n ⟨⟩
      exact congrArg List.length hall
  · next next hs =>
      cases hr'
      rw [hs] at hfirst hnext
      exact ⟨⟨h.replySet, counted, ⟨hfirst, hnext⟩, hcollected⟩, rfl⟩
  · next next msg msgs hs =>
      split at hr'
      · next hchan =>
          cases hr'
          rw [hs, hchan] at hfirst hnext
          have heq : counted ++ (some msg).toList ++ msgs = counted ++ [] ++ (msg :: msgs) := by
            simp
          refine ⟨⟨h.replySet, counted, ⟨?_, ?_⟩, hcollected⟩, rfl⟩
          · exact heq ▸ hfirst
          · exact fun n hn => (congrArg List.length heq).trans (hnext n hn)
      · cases hr'
  · next next hs =>
      split_ifs at hr'
      cases hr'
      rw [hs] at hfirst hnext
      exact ⟨⟨⟨h.replySet.accepted, h.replySet.replicas, h.replySet.nodup⟩, counted,
        ⟨hfirst, hnext⟩, hcollected⟩, rfl⟩
  · cases hr'

theorem Req.Sound.done (h : r.Sound p arrived) :
    Req.Sound p arrived { r with supplier := .done } := by
  obtain ⟨counted, hsupplied, hcollected⟩ := h.collected
  refine ⟨h.replySet, counted, ⟨?_, fun _ hn => nomatch hn⟩, hcollected⟩
  have hpre : counted ++ r.replyChannel.toList ++ [] <+:
      counted ++ r.replyChannel.toList ++ r.supplier.batch := by simp
  exact hpre.trans hsupplied.first

theorem Req.Sound.cancel {stopped : Bool} (h : r.Sound p arrived)
    (hr' : r.cancel stopped = some r') : r'.Sound p arrived ∧ r'.msg = r.msg := by
  unfold Req.cancel at hr'
  split_ifs at hr'
  split at hr'
  · cases hr'
    exact ⟨h.done, rfl⟩
  · cases hr'
    exact ⟨h.done, rfl⟩
  · cases hr'

section Tally

variable {counted : List Reply} {matchingResults : Bytes → UInt32}

/-- One more Reply is counted for its result. -/
theorem Tallied.toNat_update_le (h : Tallied p counted matchingResults) (reply : Reply)
    (hash : Bytes) :
    (Function.update matchingResults (p.crypto.sha256 reply.result)
      (matchingResults (p.crypto.sha256 reply.result) + 1) hash).toNat ≤
      (counted ++ [reply]).countP fun m => p.crypto.sha256 m.result == hash := by
  rw [List.countP_append, List.countP_singleton]
  by_cases heq : hash = p.crypto.sha256 reply.result
  · subst heq
    have hone := h.le (p.crypto.sha256 reply.result)
    have hadd : (matchingResults (p.crypto.sha256 reply.result) + 1).toNat ≤
        (matchingResults (p.crypto.sha256 reply.result)).toNat + 1 := by
      rw [UInt32.toNat_add]
      exact Nat.mod_le _ _
    rw [Function.update_self, if_pos (beq_self_eq_true _)]
    omega
  · rw [Function.update_of_ne heq, if_neg (by simpa using Ne.symm heq)]
    exact h.le hash

/-- The result is not settled by one more Reply. -/
theorem Tallied.update (h : Tallied p counted matchingResults) {reply : Reply}
    (hle : ¬ matchingResults (p.crypto.sha256 reply.result) + 1 > p.f) :
    Tallied p (counted ++ [reply]) (Function.update matchingResults
      (p.crypto.sha256 reply.result) (matchingResults (p.crypto.sha256 reply.result) + 1)) := by
  refine ⟨h.toNat_update_le reply, fun hf hash => ?_⟩
  rw [List.countP_append, List.countP_singleton]
  by_cases heq : hash = p.crypto.sha256 reply.result
  · subst heq
    obtain ⟨hfew, hcount⟩ := h.exact hf (p.crypto.sha256 reply.result)
    have hlt := UInt32.le_iff_toNat_le.mp hfew
    rw [Function.update_self, if_pos (beq_self_eq_true _), hcount, UInt32.toNat_add]
    exact ⟨UInt32.not_lt.mp hle, (Nat.mod_eq_of_lt (by simp; omega)).symm⟩
  · rw [Function.update_of_ne heq, if_neg (by simpa using Ne.symm heq)]
    exact h.exact hf hash

end Tally

theorem Req.Sound.collect (h : r.Sound p arrived) (hr' : r.collect p = some r') :
    r'.Sound p arrived ∧ r'.msg = r.msg := by
  obtain ⟨counted, hsupplied, hcollected⟩ := h.collected
  have hfirst := hsupplied.first
  have hnext := hsupplied.next
  unfold Req.collect at hr'
  split at hr'
  · next matchingResults hc =>
      rw [hc] at hcollected
      obtain ⟨hempty, htallied⟩ := hcollected
      split at hr'
      · next reply hchan =>
          rw [hchan] at hfirst hnext
          -- the Reply moves from the channel to those counted
          have heq : counted ++ [reply] ++ [] ++ r.supplier.batch =
              counted ++ (some reply).toList ++ r.supplier.batch := by simp
          dsimp only at hr'
          split_ifs at hr' with hgt
          · cases hr'
            refine ⟨⟨h.replySet, counted ++ [reply], ⟨heq ▸ hfirst, fun n hn => ?_⟩, hempty,
              List.mem_concat_self, ?_⟩, rfl⟩
            · exact (congrArg List.length heq).trans (hnext n hn)
            · exact (UInt32.lt_iff_toNat_lt.mp hgt).trans_le (htallied.toNat_update_le reply _)
          · cases hr'
            rw [Function.update_self] at hgt
            refine ⟨⟨h.replySet, counted ++ [reply], ⟨heq ▸ hfirst, fun n hn => ?_⟩, hempty,
              htallied.update hgt⟩, rfl⟩
            exact (congrArg List.length heq).trans (hnext n hn)
      · split_ifs at hr'
        cases hr'
        refine ⟨⟨h.replySet, counted, hsupplied, ?_⟩, rfl⟩
        rw [hempty]
        exact ⟨Nat.zero_le 1, fun _ hx => nomatch hx⟩
  · cases hr'
  · next result hc =>
      cases hr'
      rw [hc] at hcollected
      obtain ⟨hempty, henough⟩ := hcollected
      refine ⟨⟨h.replySet, counted, hsupplied, ?_⟩, rfl⟩
      rw [hempty]
      refine ⟨le_rfl, fun x hx => ?_⟩
      cases List.mem_singleton.mp hx
      exact henough
  · cases hr'

theorem Req.Sound.remove (h : r.Sound p arrived) :
    Req.Sound p arrived { r with removed := true } :=
  ⟨h.replySet, h.collected⟩

theorem Req.Sound.send (h : r.Sound p arrived) {reply : Reply} (hr : r.removing = some reply) :
    Req.Sound p arrived { r with collector := .sending reply.result } := by
  obtain ⟨counted, hsupplied, hcollected⟩ := h.collected
  unfold Req.removing at hr
  split at hr
  · next hc =>
      cases hr
      rw [hc] at hcollected
      exact ⟨h.replySet, counted, hsupplied, hcollected.1, hcollected.2.2⟩
  · cases hr

end Request

/-! ## What holds in every reachable state -/

def State.sent (s : State) (k : ℕ) : Option Request := (s.requests[k]?).map Req.msg

def Call.request (c : Call) : Option ℕ :=
  match c.phase with
  | .added k => some k
  | _ => none

def State.requestOf (s : State) (i : ℕ) : Option ℕ := (s.calls[i]?).bind Call.request

structure Invariant (p : Params) (s : State) : Prop where
  requests : ∀ r ∈ s.requests, r.Sound p s.arrived
  increasing : (s.requests.map fun r => r.msg.sequence).Pairwise (· < ·)
  last : ∀ r ∈ s.requests, r.msg.sequence ≤ s.lastSeq
  replies : ∀ x ∈ s.replies, Accepted p s.arrived x.1 ∧
    ∃ msg, s.sent x.2 = some msg ∧ x.1.sequence = msg.sequence
  calls : ∀ c ∈ s.calls, c.msg.operation = c.operation ∧ c.msg.clientID = p.clientID
  added : ∀ c ∈ s.calls, ∀ k, c.request = some k → s.sent k = some c.msg
  distinct : ∀ i j k, s.requestOf i = some k → s.requestOf j = some k → i = j

section State

variable {p : Params} {s s' : State}

theorem invariant_init (startSeq : UInt64) : Invariant p (init startSeq) where
  requests := fun _ h => nomatch h
  increasing := List.Pairwise.nil
  last := fun _ h => nomatch h
  replies := fun _ h => nomatch h
  calls := fun _ h => nomatch h
  added := fun _ h => nomatch h
  distinct := fun _ _ _ h => nomatch h

theorem sent_set {k : ℕ} {r r' : Req} (hk : s.requests[k]? = some r) (hmsg : r'.msg = r.msg) :
    State.sent { s with requests := s.requests.set k r' } = s.sent := by
  funext i
  have hmap : (s.requests.set k r').map Req.msg = s.requests.map Req.msg :=
    List.map_set_of_eq hk hmsg
  simpa only [State.sent, List.getElem?_map] using congrArg (·[i]?) hmap

/-- A goroutine of one request changes that request only. -/
theorem Invariant.set {k : ℕ} {r r' : Req} (h : Invariant p s) (hk : s.requests[k]? = some r)
    (hr' : r'.Sound p s.arrived) (hmsg : r'.msg = r.msg) :
    Invariant p { s with requests := s.requests.set k r' } := by
  have hseq : (s.requests.set k r').map (fun r => r.msg.sequence) =
      s.requests.map fun r => r.msg.sequence :=
    List.map_set_of_eq hk (congrArg Request.sequence hmsg)
  have hsent := sent_set hk hmsg
  refine ⟨fun x hx => ?_, hseq ▸ h.increasing, fun x hx => ?_, ?_, h.calls, ?_, h.distinct⟩
  · rcases List.mem_or_eq_of_mem_set hx with hx | rfl
    · exact h.requests x hx
    · exact hr'
  · rcases List.mem_or_eq_of_mem_set hx with hx | rfl
    · exact h.last x hx
    · rw [hmsg]
      exact h.last r (List.mem_of_getElem? hk)
  · rw [hsent]
    exact h.replies
  · rw [hsent]
    exact h.added

/-- The request in the buffer is removed if it has this sequence number. -/
theorem removeRequest_cases (s : State) (seq : UInt64) :
    removeRequest s seq = s ∨ ∃ k r, s.requests[k]? = some r ∧ r.msg.sequence = seq ∧
      removeRequest s seq = { s with
        requests := s.requests.set k { r with removed := true }
        request := none } := by
  unfold removeRequest
  split
  · exact .inl rfl
  · split
    · exact .inl rfl
    · next k _ _ r hr =>
        split_ifs with hne
        · exact .inl rfl
        · exact .inr ⟨k, r, hr, not_not.mp hne, rfl⟩

theorem Invariant.removeRequest (h : Invariant p s) (seq : UInt64) :
    Invariant p (removeRequest s seq) := by
  rcases removeRequest_cases s seq with heq | ⟨k, r, hr, -, heq⟩
  · rwa [heq]
  · rw [heq]
    have hset := h.set hr (h.requests r (List.mem_of_getElem? hr)).remove rfl
    exact ⟨hset.requests, hset.increasing, hset.last, hset.replies, hset.calls, hset.added,
      hset.distinct⟩

theorem requestOf_set {i : ℕ} {c c' : Call} (hi : s.calls[i]? = some c) (j : ℕ) :
    State.requestOf { s with calls := s.calls.set i c' } j =
      if i = j then c'.request else s.requestOf j := by
  have hlt := (List.getElem?_eq_some_iff.mp hi).1
  unfold State.requestOf
  rw [List.getElem?_set]
  split_ifs
  · rfl
  · rfl

/-- A call goes on without being past `AddRequest`. -/
theorem Invariant.setCall {i : ℕ} {c c' : Call} (h : Invariant p s) (hi : s.calls[i]? = some c)
    (hoperation : c'.operation = c.operation) (hmsg : c'.msg = c.msg)
    (hrequest : c'.request = none) :
    Invariant p { s with calls := s.calls.set i c' } := by
  refine ⟨h.requests, h.increasing, h.last, h.replies, fun x hx => ?_, fun x hx k hk => ?_, ?_⟩
  · rcases List.mem_or_eq_of_mem_set hx with hx | rfl
    · exact h.calls x hx
    · rw [hoperation, hmsg]
      exact h.calls c (List.mem_of_getElem? hi)
  · rcases List.mem_or_eq_of_mem_set hx with hx | rfl
    · exact h.added x hx k hk
    · rw [hrequest] at hk
      cases hk
  · intro a b k ha hb
    rw [requestOf_set hi, hrequest] at ha hb
    split_ifs at ha hb
    exact h.distinct a b k ha hb

theorem Invariant.handleReply (h : Invariant p s) (reply : Reply) :
    Invariant p (handleReply p s reply) := by
  have harrived : Invariant p { s with arrived := s.arrived ++ [reply] } :=
    ⟨fun r hr => (h.requests r hr).mono, h.increasing, h.last,
      fun x hx => ⟨(h.replies x hx).1.mono, (h.replies x hx).2⟩, h.calls, h.added, h.distinct⟩
  unfold Client.handleReply
  dsimp only
  split_ifs with hauth
  · split
    · exact harrived
    · split
      · exact harrived
      · next k _ _ r hr =>
          split_ifs with hseq
          · exact harrived
          · refine ⟨harrived.requests, harrived.increasing, harrived.last, fun x hx => ?_,
              harrived.calls, harrived.added, harrived.distinct⟩
            rcases List.mem_append.mp hx with hx | hx
            · exact harrived.replies x hx
            · cases List.mem_singleton.mp hx
              have hsent : s.sent k = some r.msg := by rw [State.sent, hr, Option.map_some]
              exact ⟨⟨List.mem_append_right _ (List.mem_singleton.mpr rfl), hauth⟩, r.msg, hsent,
                (not_not.mp hseq).symm⟩
  · exact harrived

theorem Invariant.handleRequest (h : Invariant p s) (operation : Bytes) :
    Invariant p (handleRequest p s operation) := by
  have hrequest : ∀ j k, (Client.handleRequest p s operation).requestOf j = some k →
      s.requestOf j = some k := by
    intro j k hj
    unfold State.requestOf Client.handleRequest at hj
    rw [List.getElem?_append] at hj
    split_ifs at hj with hlt
    · exact hj
    · rw [List.getElem?_singleton] at hj
      split_ifs at hj
      · cases hj
      · cases hj
  refine ⟨h.requests, h.increasing, h.last, h.replies, fun x hx => ?_, fun x hx k hk => ?_,
    fun i j k hi hj => h.distinct i j k (hrequest i k hi) (hrequest j k hj)⟩
  · rcases List.mem_append.mp hx with hx | hx
    · exact h.calls x hx
    · cases List.mem_singleton.mp hx
      exact ⟨rfl, rfl⟩
  · rcases List.mem_append.mp hx with hx | hx
    · exact h.added x hx k hk
    · cases List.mem_singleton.mp hx
      cases hk

theorem sent_append {r : Req} {k : ℕ} {msg : Request} (h : s.sent k = some msg) :
    (((s.requests ++ [r])[k]?).map Req.msg) = some msg := by
  unfold State.sent at h
  rw [List.getElem?_append]
  split_ifs with hlt
  · exact h
  · rw [List.getElem?_eq_none (Nat.le_of_not_lt hlt)] at h
    cases h

theorem Invariant.addRequest {i : ℕ} {c : Call} (h : Invariant p s) (hi : s.calls[i]? = some c) :
    Invariant p (addRequest s i c) := by
  unfold Client.addRequest
  split
  · exact h.setCall hi rfl rfl rfl
  · split_ifs with hle
    · exact ⟨h.requests, h.increasing, h.last, h.replies, h.calls, h.added, h.distinct⟩
    · have hlt : s.lastSeq < c.msg.sequence := UInt64.not_le.mp hle
      refine ⟨fun x hx => ?_, ?_, fun x hx => ?_, fun x hx => ?_, fun x hx => ?_,
        fun x hx k hk => ?_, fun a b k ha hb => ?_⟩
      · rcases List.mem_append.mp hx with hx | hx
        · exact h.requests x hx
        · cases List.mem_singleton.mp hx
          exact sound_newReq c.msg
      · rw [List.map_append, List.map_singleton, List.pairwise_append]
        refine ⟨h.increasing, List.pairwise_singleton _ _, fun seq hseq seq' hseq' => ?_⟩
        obtain ⟨r, hr, rfl⟩ := List.mem_map.mp hseq
        cases List.mem_singleton.mp hseq'
        exact UInt64.lt_of_le_of_lt (h.last r hr) hlt
      · rcases List.mem_append.mp hx with hx | hx
        · exact UInt64.le_of_lt (UInt64.lt_of_le_of_lt (h.last x hx) hlt)
        · cases List.mem_singleton.mp hx
          exact UInt64.le_refl _
      · obtain ⟨haccepted, msg, hsent, hseq⟩ := h.replies x hx
        exact ⟨haccepted, msg, sent_append hsent, hseq⟩
      · rcases List.mem_or_eq_of_mem_set hx with hx | rfl
        · exact h.calls x hx
        · exact h.calls c (List.mem_of_getElem? hi)
      · rcases List.mem_or_eq_of_mem_set hx with hx | rfl
        · exact sent_append (h.added x hx k hk)
        · cases hk
          simp [State.sent, newReq]
      · -- no earlier call has got the new request
        have hold : ∀ j, s.requestOf j ≠ some s.requests.length := by
          intro j hj
          obtain ⟨x, hx, hxj⟩ := Option.bind_eq_some_iff.mp hj
          have := h.added x (List.mem_of_getElem? hx) _ hxj
          simp [State.sent] at this
        have hset : ∀ j, State.requestOf { s with
            calls := s.calls.set i { c with phase := .added s.requests.length } } j =
              if i = j then some s.requests.length else s.requestOf j :=
          fun j => requestOf_set hi j
        have ha' := (hset a).symm.trans ha
        have hb' := (hset b).symm.trans hb
        split_ifs at ha' hb' with hia hib hib
        · exact hia.symm.trans hib
        · exact absurd (hb'.trans ha'.symm) (hold b)
        · exact absurd (ha'.trans hb'.symm) (hold a)
        · exact h.distinct a b k ha' hb'

theorem Invariant.resume {i : ℕ} {c : Call} (h : Invariant p s) (hi : s.calls[i]? = some c) :
    Invariant p (resume s i c) :=
  h.setCall hi rfl rfl rfl

theorem Invariant.updateReq {k : ℕ} {f : Req → Option Req} (h : Invariant p s)
    (hf : ∀ r r', r.Sound p s.arrived → f r = some r' → r'.Sound p s.arrived ∧ r'.msg = r.msg)
    (hstep : updateReq s k f = some s') : Invariant p s' := by
  obtain ⟨r, hr, hstep⟩ := Option.bind_eq_some_iff.mp hstep
  obtain ⟨r', hr', hstep⟩ := Option.bind_eq_some_iff.mp hstep
  cases hstep
  obtain ⟨hsound, hmsg⟩ := hf r r' (h.requests r (List.mem_of_getElem? hr)) hr'
  exact h.set hr hsound hmsg

theorem Invariant.act {label : Label} (h : Invariant p s) (hstep : act p s label = some s') :
    Invariant p s' := by
  cases label with
  | call operation =>
      cases hstep
      exact h.handleRequest operation
  | add i =>
      obtain ⟨c, hi, hstep⟩ := Option.bind_eq_some_iff.mp hstep
      split at hstep
      · cases hstep
        exact h.addRequest hi
      · cases hstep
  | wake i =>
      obtain ⟨c, hi, hstep⟩ := Option.bind_eq_some_iff.mp hstep
      split at hstep
      · split_ifs at hstep
        cases hstep
        exact h.resume hi
      · cases hstep
  | giveUp i =>
      obtain ⟨c, hi, hstep⟩ := Option.bind_eq_some_iff.mp hstep
      split at hstep
      · split_ifs at hstep
        cases hstep
        exact (h.resume hi).removeRequest _
      · cases hstep
  | reply msg =>
      cases hstep
      exact h.handleReply msg
  | addReply i =>
      obtain ⟨⟨msg, k⟩, hmsg, hstep⟩ := Option.bind_eq_some_iff.mp hstep
      obtain ⟨r, hr, hstep⟩ := Option.bind_eq_some_iff.mp hstep
      cases hstep
      obtain ⟨haccepted, m, hsent, hseq⟩ := h.replies _ (List.mem_of_getElem? hmsg)
      have hm : r.msg = m := by
        rw [State.sent, hr, Option.map_some] at hsent
        exact Option.some.inj hsent
      have hset := h.set hr
        ((h.requests r (List.mem_of_getElem? hr)).addReply haccepted (hm ▸ hseq)) rfl
      exact ⟨hset.requests, hset.increasing, hset.last,
        fun x hx => hset.replies x (List.mem_of_mem_eraseIdx hx), hset.calls, hset.added,
        hset.distinct⟩
  | supply k => exact h.updateReq (fun _ _ hr hr' => hr.supply hr') hstep
  | cancel k => exact h.updateReq (fun _ _ hr hr' => hr.cancel hr') hstep
  | collect k => exact h.updateReq (fun _ _ hr hr' => hr.collect hr') hstep
  | remove k =>
      obtain ⟨r, hr, hstep⟩ := Option.bind_eq_some_iff.mp hstep
      obtain ⟨reply, hreply, hstep⟩ := Option.bind_eq_some_iff.mp hstep
      cases hstep
      have hsound := (h.requests r (List.mem_of_getElem? hr)).send hreply
      exact (h.set hr hsound rfl).removeRequest reply.sequence
  | terminate =>
      cases hstep
      exact ⟨h.requests, h.increasing, h.last, h.replies, h.calls, h.added, h.distinct⟩

/-- Requests have sequence numbers of their own. -/
theorem Invariant.index_eq (h : Invariant p s) {i j : ℕ} {r r' : Req}
    (hr : s.requests[i]? = some r) (hr' : s.requests[j]? = some r')
    (hseq : r.msg.sequence = r'.msg.sequence) : i = j := by
  have hnodup : (s.requests.map fun r => r.msg.sequence).Nodup :=
    h.increasing.imp UInt64.ne_of_lt
  have hlt : i < (s.requests.map fun r => r.msg.sequence).length := by
    rw [List.length_map]
    exact (List.getElem?_eq_some_iff.mp hr).1
  refine (List.getElem?_inj hlt hnodup).mp ?_
  rw [List.getElem?_map, List.getElem?_map, hr, hr', Option.map_some, Option.map_some, hseq]

theorem act_of_step {label : Label} (h : step p s label = some s') :
    s.panicked = false ∧ act p s label = some s' := by
  unfold step at h
  split_ifs at h with hpanicked
  exact ⟨Bool.eq_false_iff.mpr hpanicked, h⟩

theorem Reachable.step {label : Label} (h : Reachable p s) (hstep : step p s label = some s') :
    Reachable p s' := by
  obtain ⟨startSeq, h⟩ := h
  exact ⟨startSeq, h.step trivial hstep⟩

theorem Reachable.invariant (h : Reachable p s) : Invariant p s := by
  obtain ⟨startSeq, h⟩ := h
  exact h.invariant (invariant_init startSeq) fun _ _ _ hs _ hstep => hs.act (act_of_step hstep).2

end State

/-! ## Results -/

/-- Replies that justify a result: accepted ones to the request `msg`, from more than `f` replicas,
and equal to it in the hash of the result. -/
structure Justifies (p : Params) (s : State) (msg : Request) (result : Bytes)
    (replies : List Reply) : Prop where
  nodup : (replies.map Reply.replicaID).Nodup
  length : p.f.toNat + 1 ≤ replies.length
  arrived : ∀ m ∈ replies, m ∈ s.arrived
  clientID : ∀ m ∈ replies, m.clientID = p.clientID
  authentic : ∀ m ∈ replies, p.crypto.verifyMessageAuthenTag .replicaAuthen m.replicaID
    (m.authenBytes p.crypto.sha256) m.signature = true
  sequence : ∀ m ∈ replies, m.sequence = msg.sequence
  result : ∀ m ∈ replies, p.crypto.sha256 m.result = p.crypto.sha256 result

theorem Req.Sound.justified {p : Params} {s : State} {r : Req} (h : r.Sound p s.arrived)
    {result : Bytes} (hresult : result ∈ r.resultChan) :
    r.resultChan.length ≤ 1 ∧ ∃ replies, Justifies p s r.msg result replies := by
  obtain ⟨counted, hsupplied, hcollected⟩ := h.collected
  obtain ⟨hone, henough⟩ : r.resultChan.length ≤ 1 ∧
      ∀ result ∈ r.resultChan, Enough p counted result := by
    cases hc : r.collector with
    | done =>
        rw [hc] at hcollected
        exact hcollected
    | _ =>
        rw [hc] at hcollected
        rw [hcollected.1] at hresult
        cases hresult
  have hsub : (counted.filter fun m => p.crypto.sha256 m.result == p.crypto.sha256 result).Sublist
      r.replySet.msgs := by
    have hpre : counted <+: counted ++ r.replyChannel.toList ++ r.supplier.batch := by
      rw [List.append_assoc]
      exact List.prefix_append _ _
    exact List.filter_sublist.trans (hpre.trans hsupplied.first).sublist
  have hmem := fun m hm => h.replySet.accepted m (hsub.subset hm)
  have hauth : ∀ m ∈ counted.filter fun m => p.crypto.sha256 m.result == p.crypto.sha256 result,
      m.clientID = p.clientID ∧ p.crypto.verifyMessageAuthenTag .replicaAuthen m.replicaID
        (m.authenBytes p.crypto.sha256) m.signature = true := by
    intro m hm
    have := (hmem m hm).1.2
    rwa [authenticateReply, Bool.and_eq_true, beq_iff_eq] at this
  have hnodup : (r.replySet.msgs.map Reply.replicaID).Nodup := by
    rw [← List.nodup_reverse, ← h.replySet.replicas]
    exact h.replySet.nodup
  refine ⟨hone, _, hnodup.sublist (hsub.map _), ?_, fun m hm => (hmem m hm).1.1,
    fun m hm => (hauth m hm).1, fun m hm => (hauth m hm).2, fun m hm => (hmem m hm).2,
    fun m hm => beq_iff_eq.mp (List.mem_filter.mp hm).2⟩
  rw [← List.countP_eq_length_filter]
  exact henough result hresult

/-- What the channel returned by a call of `Request` yields: at most one result, justified by
Replies to the Request generated in this call. Other calls return other channels, of Requests with
other sequence numbers. -/
theorem resultChan_sound {p : Params} {s : State} (hs : Reachable p s) {i k : ℕ} {c : Call}
    (hi : s.calls[i]? = some c) (hk : c.request = some k) :
    ∃ r, s.requests[k]? = some r ∧ r.msg.operation = c.operation ∧ r.msg.clientID = p.clientID ∧
      r.resultChan.length ≤ 1 ∧
      (∀ result ∈ r.resultChan, ∃ replies, Justifies p s r.msg result replies) ∧
      (∀ j, s.requestOf j = some k → j = i) ∧
      ∀ k' r', s.requests[k']? = some r' → r'.msg.sequence = r.msg.sequence → k' = k := by
  have hinv := hs.invariant
  have hc := List.mem_of_getElem? hi
  obtain ⟨hoperation, hclientID⟩ := hinv.calls c hc
  obtain ⟨r, hr, hmsg⟩ := Option.map_eq_some_iff.mp (hinv.added c hc k hk)
  have hsound := hinv.requests r (List.mem_of_getElem? hr)
  have hof : s.requestOf i = some k := by rw [State.requestOf, hi, Option.bind_some, hk]
  refine ⟨r, hr, hmsg ▸ hoperation, hmsg ▸ hclientID, ?_,
    fun result hresult => (hsound.justified hresult).2,
    fun j hj => hinv.distinct j i k hj hof, fun k' r' hr' hseq => hinv.index_eq hr' hr hseq⟩
  cases hres : r.resultChan with
  | nil => exact Nat.zero_le 1
  | cons result rest =>
      rw [← hres]
      exact (hsound.justified (hres ▸ List.mem_cons_self)).1

end Client

namespace Concrete

open Client

def trustingClient : Client.Params :=
  ⟨3, 1, ⟨id, fun _ _ _ _ => true, fun _ _ _ => [], fun _ _ => []⟩, fun _ => []⟩

/-- Replica 0 replies twice and replica 2 to another request; replica 1 settles the result. -/
def settlingReplies : List Client.Label :=
  [.call [5], .add 0, .reply ⟨0, 3, 10, [7], []⟩, .addReply 0, .supply 0, .supply 0, .collect 0,
    .reply ⟨0, 3, 10, [7], []⟩, .addReply 0, .reply ⟨2, 3, 9, [7], []⟩, .supply 0,
    .reply ⟨1, 3, 10, [7], []⟩, .addReply 0, .supply 0, .supply 0, .supply 0, .collect 0, .remove 0,
    .collect 0]

def settled (s : Client.State) : Bool :=
  (s.calls[0]?).any (fun c => c.request == some 0) &&
    (s.requests[0]?).any fun r => r.resultChan == [[7]]

theorem settled_by_two :
    ∃ s r, Reachable trustingClient s ∧ s.requests[0]? = some r ∧ r.resultChan = [[7]] ∧
      ∃ replies, Justifies trustingClient s r.msg [7] replies := by
  have hrun : (Machine.exec (step trustingClient) (fun _ _ => true) (init 10) settlingReplies).any
      settled = true := by
    decide +kernel
  obtain ⟨s, hs, hsettled⟩ := Machine.exists_reachable (fun _ _ _ _ => trivial) hrun
  obtain ⟨hcall, hreq⟩ := (Bool.and_eq_true _ _).mp hsettled
  obtain ⟨c, hi, hk⟩ := (Option.any_eq_true _ _).mp hcall
  obtain ⟨r', hr', hresult⟩ := (Option.any_eq_true _ _).mp hreq
  have hreach : Reachable trustingClient s := ⟨10, hs⟩
  obtain ⟨r, hr, -, -, -, hjustified, -⟩ := resultChan_sound hreach hi (beq_iff_eq.mp hk)
  obtain rfl := Option.some.inj (hr'.symm.trans hr)
  have hseven := beq_iff_eq.mp hresult
  exact ⟨s, r', hreach, hr, hseven, hjustified [7] (hseven ▸ List.mem_singleton.mpr rfl)⟩

end Concrete

end MinBFT
