import Mathlib.Data.Finset.Max
import MinBFT.Agreement
import MinBFT.Client
import MinBFT.Consuming
import MinBFT.Integrity
import MinBFT.Lib.Machine
import MinBFT.Lib.Sequential

/-!
# The replicated service

Replicas with their consumers, and the clients that call them. `makeRequestExecutor` delivers the
operation of a request to the consumer and starts a goroutine that waits for the result, makes a
Reply of it, and signs it; the goroutines of several requests finish in any order. A consumer takes
the operations in the order of delivery. A Reply counts as sent once it is signed, whichever client
stream it then leaves the replica on, and it may get to its client late, often or never.

Beside the replicas there are the clients that keep to package `client`. Nobody else signs in their
name, so that a Request whose signature is accepted has been put into the buffer of its client.
-/

namespace MinBFT

/-! ## What is authenticated -/

theorem Request.content_of_authenBytes_eq {sha256 : Bytes → Bytes}
    (hsha : Function.Injective sha256) {r r' : Request} (hid : r.clientID = r'.clientID)
    (h : r.authenBytes sha256 = r'.authenBytes sha256) : r.content = r'.content := by
  obtain ⟨hseq, hop⟩ := Request.writeAuthenBytes_inj hsha (List.append_cancel_left h)
  rw [Request.content, Request.content, hid, hseq, hop]

theorem Reply.authenBytes_inj {sha256 : Bytes → Bytes} (hsha : Function.Injective sha256)
    {m m' : Reply} (h : m.authenBytes sha256 = m'.authenBytes sha256) :
    m.clientID = m'.clientID ∧ m.sequence = m'.sequence ∧ m.result = m'.result := by
  obtain ⟨hclient, h⟩ := BigEndian.uint32_append_inj (List.append_cancel_left h)
  obtain ⟨hseq, h⟩ := BigEndian.uint64_append_inj h
  exact ⟨hclient, hseq, hsha h⟩

/-! ## What does not change any more -/

theorem Requests.Steps.delivered_mono {s s' : Requests} (h : Requests.Steps s s') :
    s.delivered <+: s'.delivered := by
  induction h with
  | refl => exact List.prefix_rfl
  | tail _ hstep ih =>
      cases hstep with
      | prepared => exact ih
      | delivered => exact ih.trans (List.prefix_append _ _)

theorem Replica.Transition.delivered_mono {p : Params} {order : List Request} {m : Message}
    {s s' : Replica} (h : Transition p order m s s') :
    s.execution.requests.delivered <+: s'.execution.requests.delivered := by
  rcases h.requests_cases with ⟨r, -, hcap⟩ | hsteps | ⟨-, heq⟩
  · rw [(Requests.captureReq_frame hcap).1]
  · exact hsteps.delivered_mono
  · rw [heq, (Requests.unprepared_unprepareReqs _).delivered]

namespace Node

variable {p : Params} {s s' : Node} {l : Label}

theorem Stepped.delivered_mono (h : Stepped p s l s') :
    s.replica.execution.requests.delivered <+: s'.replica.execution.requests.delivered := by
  rcases h.replica_cases with heq | ⟨view, -, heq⟩ | ⟨m, order, -, heq, -⟩
  · rw [heq]
  · rw [heq, Replica.execution_requestViewChange]
  · rw [heq]
    exact (@Replica.processMessage_transition p order m s.replica).delivered_mono

end Node

namespace Client

variable {p : Params} {s s' : State} {label : Label}

theorem requests_removeRequest (s : State) (seq : UInt64) :
    (removeRequest s seq).requests.map Req.msg = s.requests.map Req.msg := by
  rcases removeRequest_cases s seq with heq | ⟨k, r, hr, -, heq⟩
  · rw [heq]
  · rw [heq]
    exact List.map_set_of_eq hr rfl

theorem arrived_removeRequest (s : State) (seq : UInt64) :
    (removeRequest s seq).arrived = s.arrived := by
  rcases removeRequest_cases s seq with heq | ⟨k, r, -, -, heq⟩ <;> rw [heq]

theorem msg_supply {r r' : Req} (h : r.supply = some r') : r'.msg = r.msg := by
  unfold Req.supply at h
  split at h
  · cases h; rfl
  · cases h; rfl
  · split at h
    · cases h; rfl
    · cases h
  · split_ifs at h
    cases h; rfl
  · cases h

theorem msg_cancel {r r' : Req} {stopped : Bool} (h : r.cancel stopped = some r') :
    r'.msg = r.msg := by
  unfold Req.cancel at h
  split_ifs at h
  split at h
  · cases h; rfl
  · cases h; rfl
  · cases h

theorem msg_collect {r r' : Req} (h : r.collect p = some r') : r'.msg = r.msg := by
  unfold Req.collect at h
  split at h
  · split at h
    · dsimp only at h
      split_ifs at h <;> (cases h; rfl)
    · split_ifs at h
      cases h; rfl
  · cases h
  · cases h; rfl
  · cases h

theorem updateReq_frame {k : ℕ} {f : Req → Option Req}
    (hf : ∀ r r', f r = some r' → r'.msg = r.msg) (h : updateReq s k f = some s') :
    s'.requests.map Req.msg = s.requests.map Req.msg ∧ s'.arrived = s.arrived := by
  obtain ⟨r, hr, h⟩ := Option.bind_eq_some_iff.mp h
  obtain ⟨r', hr', h⟩ := Option.bind_eq_some_iff.mp h
  cases h
  exact ⟨List.map_set_of_eq hr (hf r r' hr'), rfl⟩

structure Grown (s s' : State) (label : Label) : Prop where
  requests : s'.requests.map Req.msg = s.requests.map Req.msg ∨
    ∃ c ∈ s.calls, s'.requests.map Req.msg = s.requests.map Req.msg ++ [c.msg]
  arrived : ∀ m ∈ s'.arrived, m ∈ s.arrived ∨ label = .reply m

theorem Grown.of_eq (hreqs : s'.requests.map Req.msg = s.requests.map Req.msg)
    (harrived : s'.arrived = s.arrived) : Grown s s' label :=
  ⟨.inl hreqs, fun _ hm => .inl (harrived ▸ hm)⟩

theorem Grown.requests_mono (h : Grown s s' label) :
    s.requests.map Req.msg <+: s'.requests.map Req.msg := by
  rcases h.requests with heq | ⟨c, -, heq⟩
  · rw [heq]
  · rw [heq]
    exact List.prefix_append _ _

theorem handleReply_grown (s : State) (reply : Reply) :
    Grown s (handleReply p s reply) (.reply reply) := by
  have hgrown : ∀ s' : State, s'.requests = s.requests → s'.arrived = s.arrived ++ [reply] →
      Grown s s' (.reply reply) := by
    intro s' hreqs harrived
    refine ⟨.inl (congrArg _ hreqs), fun m hm => ?_⟩
    rw [harrived] at hm
    rcases List.mem_append.mp hm with hm | hm
    · exact .inl hm
    · rw [List.mem_singleton.mp hm]
      exact .inr rfl
  unfold handleReply
  dsimp only
  split_ifs
  · split
    · exact hgrown _ rfl rfl
    · split
      · exact hgrown _ rfl rfl
      · split_ifs <;> exact hgrown _ rfl rfl
  · exact hgrown _ rfl rfl

theorem addRequest_grown {i : ℕ} {c : Call} (hi : s.calls[i]? = some c) :
    Grown s (addRequest s i c) label := by
  unfold addRequest
  split
  · exact .of_eq rfl rfl
  · split_ifs
    · exact .of_eq rfl rfl
    · refine ⟨.inr ⟨c, List.mem_of_getElem? hi, ?_⟩, fun m hm => .inl hm⟩
      rw [List.map_append]
      rfl

theorem step_grown (h : step p s label = some s') : Grown s s' label := by
  unfold step at h
  split_ifs at h
  cases label with
  | call operation =>
      cases h
      exact .of_eq rfl rfl
  | add i =>
      obtain ⟨c, hi, h⟩ := Option.bind_eq_some_iff.mp h
      split at h
      · cases h
        exact addRequest_grown hi
      · cases h
  | wake i =>
      obtain ⟨c, -, h⟩ := Option.bind_eq_some_iff.mp h
      split at h
      · split_ifs at h
        cases h
        exact .of_eq rfl rfl
      · cases h
  | giveUp i =>
      obtain ⟨c, -, h⟩ := Option.bind_eq_some_iff.mp h
      split at h
      · split_ifs at h
        cases h
        exact .of_eq (requests_removeRequest _ _) (arrived_removeRequest _ _)
      · cases h
  | reply msg =>
      cases h
      exact handleReply_grown s msg
  | addReply i =>
      obtain ⟨⟨msg, k⟩, -, h⟩ := Option.bind_eq_some_iff.mp h
      obtain ⟨r, hr, h⟩ := Option.bind_eq_some_iff.mp h
      cases h
      exact .of_eq (List.map_set_of_eq hr rfl) rfl
  | supply k =>
      have hframe := updateReq_frame (fun _ _ => msg_supply) h
      exact .of_eq hframe.1 hframe.2
  | cancel k =>
      have hframe := updateReq_frame (fun _ _ => msg_cancel) h
      exact .of_eq hframe.1 hframe.2
  | collect k =>
      have hframe := updateReq_frame (fun _ _ => msg_collect) h
      exact .of_eq hframe.1 hframe.2
  | remove k =>
      obtain ⟨r, hr, h⟩ := Option.bind_eq_some_iff.mp h
      obtain ⟨reply, -, h⟩ := Option.bind_eq_some_iff.mp h
      cases h
      exact .of_eq ((requests_removeRequest _ _).trans (List.map_set_of_eq hr rfl))
        (arrived_removeRequest _ _)
  | terminate =>
      cases h
      exact .of_eq rfl rfl

/-- The client puts only Requests of its own into its buffer. -/
theorem Reachable.clientID (h : Reachable p s) :
    ∀ msg ∈ s.requests.map Req.msg, msg.clientID = p.clientID := by
  obtain ⟨startSeq, h⟩ := h
  induction h with
  | start => exact fun _ hmsg => absurd hmsg List.not_mem_nil
  | step h _ hstep ih =>
      intro msg hmsg
      rcases (step_grown hstep).requests with heq | ⟨c, hc, heq⟩
      · rw [heq] at hmsg
        exact ih msg hmsg
      · rw [heq] at hmsg
        rcases List.mem_append.mp hmsg with hmsg | hmsg
        · exact ih msg hmsg
        · rw [List.mem_singleton.mp hmsg]
          exact ((Reachable.invariant ⟨startSeq, h⟩).calls c hc).2

/-- Its Requests have sequence numbers of their own. -/
theorem Reachable.eq_of_sequence_eq (h : Reachable p s) {r r' : Req} (hr : r ∈ s.requests)
    (hr' : r' ∈ s.requests) (hseq : r.msg.sequence = r'.msg.sequence) : r = r' := by
  obtain ⟨i, hi⟩ := List.mem_iff_getElem?.mp hr
  obtain ⟨j, hj⟩ := List.mem_iff_getElem?.mp hr'
  obtain rfl := h.invariant.index_eq hi hj hseq
  exact Option.some.inj (hi.symm.trans hj)

end Client

/-! ## The state machine -/

/-- What is set up: the replicas, the consumer each of them has one of, and the correct clients. -/
structure Deployment (σ : Type) extends Network where
  consumer : Sequential.Object σ Bytes Bytes
  clients : Finset UInt32
  requestSignature : UInt32 → Bytes → Bytes
  startSeq : UInt32 → UInt64

namespace Deployment

variable {σ : Type} (d : Deployment σ)

def client (id : UInt32) : Client.Params := ⟨id, d.config.f, d.crypto, d.requestSignature id⟩

/-- Besides what is assumed of the replicas, only they have keys that Replies are verified with. -/
structure Admissible : Prop where
  network : d.toNetwork.Admissible
  known : ∀ id authenBytes tag,
    d.crypto.verifyMessageAuthenTag .replicaAuthen id authenBytes tag = true → id < d.config.n

def object : Sequential.Object σ Content Bytes := d.consumer.comap (·.2.2)

def reply (i : UInt32) (r : Request) (result : Bytes) : Reply :=
  let reply : Reply := ⟨i, r.clientID, r.sequence, result, []⟩
  { reply with signature := d.crypto.replicaSignature i (reply.authenBytes d.crypto.sha256) }

end Deployment

structure Service where
  system : System
  /-- The Replies a replica has signed, with the place of the request among those delivered. -/
  replies : UInt32 → List (ℕ × Reply)
  clients : UInt32 → Client.State

namespace Service

inductive Label where
  | replica (i : UInt32) (l : MinBFT.Label)
  /-- The goroutine of the request delivered at this place gets the result. -/
  | answer (i : UInt32) (k : ℕ)
  | client (id : UInt32) (l : Client.Label)

def delivered (sv : Service) (i : UInt32) : List Request :=
  (sv.system.nodes i).replica.execution.requests.delivered

def history (sv : Service) (i : UInt32) : List Content := (sv.delivered i).map Request.content

def addReply (sv : Service) (i : UInt32) (k : ℕ) (reply : Reply) : Service :=
  { sv with replies := Function.update sv.replies i (sv.replies i ++ [(k, reply)]) }

def setClient (sv : Service) (id : UInt32) (s : Client.State) : Service :=
  { sv with clients := Function.update sv.clients id s }

section Frame

variable (sv : Service) {i j : UInt32} (k : ℕ) (reply : Reply) (s : Client.State)

theorem replies_addReply_self : (sv.addReply i k reply).replies i = sv.replies i ++ [(k, reply)] :=
  Function.update_self ..

theorem replies_addReply_of_ne (h : j ≠ i) : (sv.addReply i k reply).replies j = sv.replies j :=
  Function.update_of_ne h ..

theorem clients_setClient_self : (sv.setClient i s).clients i = s := Function.update_self ..

theorem clients_setClient_of_ne (h : j ≠ i) : (sv.setClient i s).clients j = sv.clients j :=
  Function.update_of_ne h ..

end Frame

section Steps

variable {σ : Type} (d : Deployment σ)

def init : Service := ⟨.init d.toNetwork, fun _ => [], fun id => Client.init (d.startSeq id)⟩

def hasIssued (sv : Service) (r : Request) : Bool :=
  (sv.clients r.clientID).requests.any fun x =>
    x.msg.authenBytes d.crypto.sha256 == r.authenBytes d.crypto.sha256

def authenticRequest (sv : Service) (r : Request) : Bool :=
  decide (r.clientID ∉ d.clients) ||
    !d.crypto.verifyMessageAuthenTag .clientAuthen r.clientID (r.authenBytes d.crypto.sha256)
      r.signature || sv.hasIssued d r

def admitsProcessing (sv : Service) : Option Message → Bool
  | some (.request r) => sv.authenticRequest d r
  | _ => true

def authenticReply (sv : Service) (m : Reply) : Bool :=
  decide (m.replicaID ∉ d.correct) ||
    !d.crypto.verifyMessageAuthenTag .replicaAuthen m.replicaID (m.authenBytes d.crypto.sha256)
      m.signature ||
    (sv.replies m.replicaID).any fun x =>
      x.2.authenBytes d.crypto.sha256 == m.authenBytes d.crypto.sha256

def admitsArrival (sv : Service) : Client.Label → Bool
  | .reply m => sv.authenticReply d m
  | _ => true

/-- The result, if the consumer returns one and the goroutine still waits for it. -/
def answer (sv : Service) (i : UInt32) (k : ℕ) : Option Reply :=
  if k ∈ (sv.replies i).map (·.1) then none
  else (sv.delivered i)[k]?.bind fun r =>
    (d.consumer.result ((sv.delivered i).map (·.operation)) k).map (d.reply i r)

def step (sv : Service) : Label → Option Service
  | .replica i l =>
      if sv.admitsProcessing d ((sv.system.nodes i).processing l) then
        (sv.system.step d.toNetwork i l).map fun system => { sv with system }
      else none
  | .answer i k =>
      if i ∈ d.correct ∧ (sv.system.nodes i).crashed.isNone then
        (sv.answer d i k).map (sv.addReply i k)
      else none
  | .client id l =>
      if id ∈ d.clients ∧ sv.admitsArrival d l then
        (Client.step (d.client id) (sv.clients id) l).map (sv.setClient id)
      else none

/-- The message a replica processes in the step, if it does, is processed under the condition. -/
def Meets (C : UInt32 → Replica → Message → Prop) (sv : Service) : Label → Prop
  | .replica i l => ∀ m, (sv.system.nodes i).processing l = some m →
      C i (sv.system.nodes i).replica m
  | _ => True

abbrev Steps (C : UInt32 → Replica → Message → Prop) (sv : Service) : Service → Prop :=
  Machine.Reachable (step d) sv (Meets C)

abbrev Reachable (C : UInt32 → Replica → Message → Prop) : Service → Prop :=
  Steps d C (init d)

end Steps

section Cases

variable {σ : Type} {d : Deployment σ} {sv sv' : Service}

inductive Stepped (d : Deployment σ) (sv : Service) : Label → Service → Prop where
  | replica {i : UInt32} {l : MinBFT.Label} {system : System}
      (hadmits : sv.admitsProcessing d ((sv.system.nodes i).processing l) = true)
      (hstep : sv.system.step d.toNetwork i l = some system) :
      Stepped d sv (.replica i l) { sv with system }
  | answered {i : UInt32} {k : ℕ} {r : Request} {result : Bytes} (hi : i ∈ d.correct)
      (hnew : k ∉ (sv.replies i).map (·.1)) (hr : (sv.delivered i)[k]? = some r)
      (hresult : d.consumer.result ((sv.delivered i).map (·.operation)) k = some result) :
      Stepped d sv (.answer i k) (sv.addReply i k (d.reply i r result))
  | client {id : UInt32} {l : Client.Label} {s : Client.State} (hid : id ∈ d.clients)
      (hadmits : sv.admitsArrival d l = true)
      (hstep : Client.step (d.client id) (sv.clients id) l = some s) :
      Stepped d sv (.client id l) (sv.setClient id s)

theorem stepped {l : Label} (h : sv.step d l = some sv') : Stepped d sv l sv' := by
  cases l with
  | replica i l =>
      simp only [step] at h
      split_ifs at h with hadmits
      obtain ⟨system, hstep, rfl⟩ := Option.map_eq_some_iff.mp h
      exact .replica hadmits hstep
  | answer i k =>
      simp only [step] at h
      split_ifs at h with hi
      obtain ⟨reply, hreply, rfl⟩ := Option.map_eq_some_iff.mp h
      unfold answer at hreply
      split_ifs at hreply with hnew
      obtain ⟨r, hr, hreply⟩ := Option.bind_eq_some_iff.mp hreply
      obtain ⟨result, hresult, rfl⟩ := Option.map_eq_some_iff.mp hreply
      exact .answered hi.1 hnew hr hresult
  | client id l =>
      simp only [step] at h
      split_ifs at h with hid
      obtain ⟨s, hstep, rfl⟩ := Option.map_eq_some_iff.mp h
      exact .client hid.1 hid.2 hstep

end Cases

/-! ## What holds in every reachable state -/

section Invariant

variable {σ : Type} {d : Deployment σ} {C : UInt32 → Replica → Message → Prop} {sv sv' : Service}

theorem system_reachable (h : Reachable d C sv) : System.Reachable d.toNetwork C sv.system := by
  induction h with
  | start => exact .init
  | step _ hmeets hstep ih =>
      cases stepped hstep with
      | replica _ hsystem => exact .step ih hsystem hmeets
      | _ => exact ih

theorem client_reachable (h : Reachable d C sv) (id : UInt32) :
    Client.Reachable (d.client id) (sv.clients id) := by
  induction h with
  | start => exact ⟨d.startSeq id, .start⟩
  | step _ _ hstep ih =>
      cases stepped hstep with
      | @client c l s _ _ hclient =>
          by_cases hc : id = c
          · subst hc
            rw [clients_setClient_self]
            exact ih.step hclient
          · rw [clients_setClient_of_ne _ _ hc]
            exact ih
      | _ => exact ih

structure Later (d : Deployment σ) (sv sv' : Service) : Prop where
  delivered : ∀ i, sv.delivered i <+: sv'.delivered i
  replies : ∀ i, sv.replies i <+: sv'.replies i
  requests : ∀ id, (sv.clients id).requests.map Client.Req.msg <+:
    (sv'.clients id).requests.map Client.Req.msg
  expectedView : ∀ i, (sv.system.nodes i).replica.expectedView ≤
    (sv'.system.nodes i).replica.expectedView

theorem Later.refl : Later d sv sv :=
  ⟨fun _ => List.prefix_rfl, fun _ => List.prefix_rfl, fun _ => List.prefix_rfl,
    fun _ => UInt64.le_refl _⟩

theorem Later.trans {sv'' : Service} (h : Later d sv sv') (h' : Later d sv' sv'') :
    Later d sv sv'' :=
  ⟨fun i => (h.delivered i).trans (h'.delivered i), fun i => (h.replies i).trans (h'.replies i),
    fun id => (h.requests id).trans (h'.requests id),
    fun i => UInt64.le_trans (h.expectedView i) (h'.expectedView i)⟩

theorem Stepped.later {l : Label} (h : Stepped d sv l sv') : Later d sv sv' := by
  cases h with
  | @replica i l system _ hstep =>
      obtain ⟨-, -, s, hs, hnodes⟩ := System.step_cases hstep
      have hstepped := (Node.step_cases hs).2.1
      refine ⟨fun j => ?_, fun _ => List.prefix_rfl, fun _ => List.prefix_rfl, fun j => ?_⟩
      · unfold delivered
        rw [hnodes]
        by_cases hj : j = i
        · subst hj
          rw [Function.update_self]
          exact hstepped.delivered_mono
        · rw [Function.update_of_ne hj]
      · dsimp only
        rw [hnodes]
        by_cases hj : j = i
        · subst hj
          rw [Function.update_self]
          exact hstepped.expectedView_le
        · rw [Function.update_of_ne hj]
          exact UInt64.le_refl _
  | @answered i k r result =>
      refine ⟨fun _ => List.prefix_rfl, fun j => ?_, fun _ => List.prefix_rfl,
        fun _ => UInt64.le_refl _⟩
      by_cases hj : j = i
      · subst hj
        rw [replies_addReply_self]
        exact List.prefix_append _ _
      · rw [replies_addReply_of_ne _ _ _ hj]
  | @client id l s _ _ hstep =>
      refine ⟨fun _ => List.prefix_rfl, fun _ => List.prefix_rfl, fun c => ?_,
        fun _ => UInt64.le_refl _⟩
      by_cases hc : c = id
      · subst hc
        rw [clients_setClient_self]
        exact (Client.step_grown hstep).requests_mono
      · rw [clients_setClient_of_ne _ _ hc]

theorem later_of_steps (h : Steps d C sv sv') : Later d sv sv' := by
  induction h with
  | start => exact .refl
  | step _ _ hstep ih => exact ih.trans (stepped hstep).later

theorem Later.hasIssued {r : Request} (h : Later d sv sv') (hr : sv.hasIssued d r = true) :
    sv'.hasIssued d r = true := by
  obtain ⟨x, hx, heq⟩ := List.any_eq_true.mp hr
  have hmem := (h.requests r.clientID).subset (List.mem_map.mpr ⟨x, hx, rfl⟩)
  obtain ⟨x', hx', hmsg⟩ := List.mem_map.mp hmem
  apply List.any_eq_true.mpr
  exact ⟨x', hx', by rw [hmsg]; exact heq⟩

theorem Later.authenticReply {m : Reply} (h : Later d sv sv')
    (hm : sv.authenticReply d m = true) : sv'.authenticReply d m = true := by
  unfold Service.authenticReply at hm ⊢
  rw [Bool.or_eq_true] at hm ⊢
  apply hm.imp_right
  intro hany
  obtain ⟨x, hx, heq⟩ := List.any_eq_true.mp hany
  exact List.any_eq_true.mpr ⟨x, (h.replies m.replicaID).subset hx, heq⟩

/-- The Reply is what the consumer has returned for the request delivered at this place. -/
def Answers (d : Deployment σ) (sv : Service) (i : UInt32) (k : ℕ) (reply : Reply) : Prop :=
  ∃ r result, (sv.delivered i)[k]? = some r ∧
    d.consumer.result ((sv.delivered i).map (·.operation)) k = some result ∧
    reply = d.reply i r result

theorem Later.answers {i : UInt32} {k : ℕ} {reply : Reply} (h : Later d sv sv')
    (hreply : Answers d sv i k reply) : Answers d sv' i k reply := by
  obtain ⟨r, result, hr, hresult, rfl⟩ := hreply
  have hpre := h.delivered i
  refine ⟨r, result, ?_, Sequential.Object.result_of_prefix (hpre.map _) hresult, rfl⟩
  obtain ⟨rest, hrest⟩ := hpre
  rw [← hrest, List.getElem?_append_left (List.getElem?_eq_some_iff.mp hr).1]
  exact hr

structure Invariant (d : Deployment σ) (sv : Service) : Prop where
  /-- A replica replies to what it has delivered with what its consumer has returned. -/
  replies : ∀ i, ∀ x ∈ sv.replies i, Answers d sv i x.1 x.2
  /-- It replies to no request twice. -/
  once : ∀ i, ((sv.replies i).map (·.1)).Nodup
  issued : ∀ i r, .request r ∈ (sv.system.nodes i).replica.handled → r.clientID ∈ d.clients →
    sv.hasIssued d r = true
  arrived : ∀ id, ∀ m ∈ (sv.clients id).arrived, sv.authenticReply d m = true

theorem invariant_init : Invariant d (init d) where
  replies := fun _ _ hx => absurd hx List.not_mem_nil
  once := fun _ => List.nodup_nil
  issued := fun _ _ hr => absurd hr List.not_mem_nil
  arrived := fun _ _ hm => absurd hm List.not_mem_nil

theorem issued_of_verified {r : Request}
    (hauth : sv.authenticRequest d r = true) (hverified : r.Verified d.crypto)
    (hid : r.clientID ∈ d.clients) : sv.hasIssued d r = true := by
  unfold authenticRequest at hauth
  rw [show d.crypto.verifyMessageAuthenTag _ _ _ _ = true from hverified] at hauth
  simpa [hid] using hauth

theorem signed_of_verified {m : Reply} (hauth : sv.authenticReply d m = true)
    (hverified : d.crypto.verifyMessageAuthenTag .replicaAuthen m.replicaID
      (m.authenBytes d.crypto.sha256) m.signature = true) (hid : m.replicaID ∈ d.correct) :
    ∃ x ∈ sv.replies m.replicaID,
      x.2.authenBytes d.crypto.sha256 = m.authenBytes d.crypto.sha256 := by
  unfold authenticReply at hauth
  rw [hverified] at hauth
  simpa [hid] using hauth

theorem Invariant.step {l : Label} (h : Invariant d sv) (hreach : Reachable d C sv)
    (hstep : Stepped d sv l sv') : Invariant d sv' := by
  have hlater := hstep.later
  cases hstep with
  | @replica i l system hadmits hstep =>
      refine ⟨fun j x hx => hlater.answers (h.replies j x hx), h.once, fun j r hr hid => ?_,
        fun id m hm => hlater.authenticReply (h.arrived id m hm)⟩
      obtain ⟨-, -, s, hs, hnodes⟩ := System.step_cases hstep
      apply hlater.hasIssued
      dsimp only at hr
      rw [hnodes] at hr
      by_cases hj : j = i
      · subst hj
        rw [Function.update_self] at hr
        rcases (Node.step_cases hs).2.1.handled_cases hr with hr | hproc
        · exact h.issued j r hr hid
        · rw [hproc] at hadmits
          have hlinked := ((system_reachable hreach).node j).linked
          have hverified := hlinked.1.verified_of_admits (hlinked.2.admits hproc)
          exact issued_of_verified hadmits hverified hid
      · rw [Function.update_of_ne hj] at hr
        exact h.issued j r hr hid
  | @answered i k r result _ hnew hr hresult =>
      refine ⟨fun j x hx => ?_, fun j => ?_, h.issued,
        fun id m hm => hlater.authenticReply (h.arrived id m hm)⟩
      · by_cases hj : j = i
        · subst hj
          rw [replies_addReply_self] at hx
          rcases List.mem_append.mp hx with hx | hx
          · exact h.replies j x hx
          · rw [List.mem_singleton.mp hx]
            exact ⟨r, result, hr, hresult, rfl⟩
        · rw [replies_addReply_of_ne _ _ _ hj] at hx
          exact h.replies j x hx
      · by_cases hj : j = i
        · subst hj
          rw [replies_addReply_self, List.map_append, List.map_singleton]
          apply List.nodup_append.mpr
          refine ⟨h.once j, List.nodup_singleton k, fun a ha b hb heq => hnew ?_⟩
          rw [List.mem_singleton.mp hb] at heq
          exact (show a = k from heq) ▸ ha
        · rw [replies_addReply_of_ne _ _ _ hj]
          exact h.once j
  | @client id l s hid hadmits hstep =>
      have hgrown := Client.step_grown hstep
      refine ⟨h.replies, h.once, fun j r hr hc => hlater.hasIssued (h.issued j r hr hc),
        fun c m hm => hlater.authenticReply ?_⟩
      by_cases hc : c = id
      · subst hc
        rw [clients_setClient_self] at hm
        rcases hgrown.arrived m hm with hm | rfl
        · exact h.arrived c m hm
        · exact hadmits
      · rw [clients_setClient_of_ne _ _ hc] at hm
        exact h.arrived c m hm

theorem invariant_of_reachable (h : Reachable d C sv) : Invariant d sv := by
  induction h with
  | start => exact invariant_init
  | step hreach _ hstep ih => exact ih.step hreach (stepped hstep)

end Invariant

/-! ## One history -/

/-- What clients know. Of those who do not keep to the protocol we know nothing. -/
def calls {σ : Type} (d : Deployment σ) (sv : Service) : Sequential.Calls Content Bytes where
  invoked c := c.1 ∈ d.clients → ∃ x ∈ (sv.clients c.1).requests, x.msg.content = c
  returned c result := c.1 ∈ d.clients ∧
    ∃ x ∈ (sv.clients c.1).requests, x.msg.content = c ∧ result ∈ x.resultChan

structure Executed {σ : Type} (d : Deployment σ) (sv : Service) (ops : List Content) : Prop where
  all : ∀ i ∈ d.correct, sv.history i <+: ops
  some : ∃ i ∈ d.correct, sv.history i = ops

section History

variable {σ : Type} {d : Deployment σ} {C : UInt32 → Replica → Message → Prop} {sv sv' : Service}
  {ops ops' : List Content}

theorem history_comparable (hd : d.Admissible)
    (h : Reachable d (fun _ => Replica.Conforms ∅) sv) {i j : UInt32} (hi : i ∈ d.correct)
    (hj : j ∈ d.correct) : sv.history i <+: sv.history j ∨ sv.history j <+: sv.history i := by
  have hnet := hd.network
  have hnode := (system_reachable h).node
  have hclosed {k : UInt32} (hk : k ∈ d.correct) := (hnode k).run.closed (hnet.lt hk)
    hnet.tolerant hnet.sha256 hnet.uniqueUI
  have hcarried {k : UInt32} (hk : k ∈ d.correct) := (hnode k).carried (hnet.lt hk)
    hnet.tolerant hnet.sha256 hnet.uniqueUI
  exact Execution.Carried.comparable hnet.sha256 hnet.uniqueUI hnet.tolerant (hclosed hi)
    (hclosed hj) (hcarried hi) (hcarried hj)

theorem history_comparable_initially (hd : d.Admissible) (h : Reachable d C sv) {i j : UInt32}
    (hi : i ∈ d.correct) (hj : j ∈ d.correct)
    (hvi : (sv.system.nodes i).replica.expectedView = 0)
    (hvj : (sv.system.nodes j).replica.expectedView = 0) :
    sv.history i <+: sv.history j ∨ sv.history j <+: sv.history i := by
  have hnet := hd.network
  have hordered : ∀ k ∈ d.correct, (sv.system.nodes k).replica.expectedView = 0 →
      ∃ ps, (sv.system.nodes k).replica.DeliveredInOrder (d.toNetwork.params k) ps := by
    intro k hk hview
    have hrun := ((system_reachable h).node k).run
    obtain ⟨ps, m, hinit⟩ := hrun.inInitialView (hnet.lt hk) hnet.tolerant hnet.sha256
      hnet.uniqueUI hview
    exact ⟨_, hinit.deliveredInOrder (hrun.accepted_wellFormed (hnet.lt hk) hnet.tolerant)⟩
  obtain ⟨ps, hps⟩ := hordered i hi hvi
  obtain ⟨ps', hps'⟩ := hordered j hj hvj
  unfold history delivered
  rw [hps.delivered, hps'.delivered]
  rcases Nat.le_total ps.length ps'.length with hle | hle
  · exact .inl (hps.contents_prefix hps' rfl hnet.sha256 hnet.uniqueUI hle)
  · exact .inr (hps'.contents_prefix hps rfl hnet.sha256 hnet.uniqueUI hle)

theorem exists_executed (hd : d.Admissible) (hcomp : ∀ i ∈ d.correct, ∀ j ∈ d.correct,
    sv.history i <+: sv.history j ∨ sv.history j <+: sv.history i) : ∃ ops, Executed d sv ops := by
  obtain ⟨i, hi, hmax⟩ := Finset.exists_max_image d.correct (fun i => (sv.history i).length)
    hd.network.nonempty
  refine ⟨sv.history i, fun j hj => ?_, i, hi, rfl⟩
  rcases hcomp j hj i hi with hpre | hpre
  · exact hpre
  · rw [hpre.eq_of_length_le (hmax j hj)]

/-- What has been executed stays at the beginning of what is. -/
theorem Executed.mono (hlater : Later d sv sv') (h : Executed d sv ops)
    (h' : Executed d sv' ops') : ops <+: ops' := by
  obtain ⟨i, hi, rfl⟩ := h.some
  exact ((hlater.delivered i).map _).trans (h'.all i hi)

/-- A delivered request of a correct client has been put into its buffer. -/
theorem issued_of_delivered (hd : d.Admissible) (h : Reachable d C sv) {i : UInt32}
    (hi : i ∈ d.correct) {r : Request} (hr : r ∈ sv.delivered i) (hid : r.clientID ∈ d.clients) :
    ∃ x ∈ (sv.clients r.clientID).requests, x.msg.content = r.content := by
  have hrun := ((system_reachable h).node i).run
  have hhandled := (hrun.kept_handled (hd.network.lt hi)).delivered r hr
  obtain ⟨x, hx, heq⟩ := List.any_eq_true.mp ((invariant_of_reachable h).issued i r hhandled hid)
  have hclient := (client_reachable h r.clientID).clientID x.msg (List.mem_map.mpr ⟨x, hx, rfl⟩)
  exact ⟨x, hx,
    Request.content_of_authenBytes_eq hd.network.sha256 hclient (beq_iff_eq.mp heq)⟩

/-- A result comes from a correct replica, which has delivered the request. -/
theorem delivered_of_returned (hd : d.Admissible) (h : Reachable d C sv) {c : Content}
    {result : Bytes} (hret : (calls d sv).returned c result) : ∃ i ∈ d.correct, ∃ k,
      (sv.history i)[k]? = some c ∧ d.object.result (sv.history i) k = some result := by
  obtain ⟨hid, x, hx, rfl, hresult⟩ := hret
  have hclient := client_reachable h x.msg.clientID
  obtain ⟨-, replies, hjust⟩ := (hclient.invariant.requests x hx).justified hresult
  -- one of the replicas that agree on the result is correct
  obtain ⟨i, hi, hcorrect⟩ := hd.network.exists_correct hjust.nodup
    (fun id hid => by
      obtain ⟨m, hm, rfl⟩ := List.mem_map.mp hid
      exact hd.known _ _ _ (hjust.authentic m hm))
    (by rw [List.length_map]; exact hjust.length)
  obtain ⟨m, hm, rfl⟩ := List.mem_map.mp hi
  have hinv := invariant_of_reachable h
  obtain ⟨⟨k, reply⟩, hy, hbytes⟩ := signed_of_verified
    (hinv.arrived x.msg.clientID m (hjust.arrived m hm)) (hjust.authentic m hm) hcorrect
  obtain ⟨r, res, hr, hres, rfl⟩ := hinv.replies m.replicaID _ hy
  obtain ⟨hclientID, hseq, hres'⟩ := Reply.authenBytes_inj hd.network.sha256 hbytes
  replace hclientID : r.clientID = x.msg.clientID := hclientID.trans (hjust.clientID m hm)
  replace hseq : r.sequence = x.msg.sequence := hseq.trans (hjust.sequence m hm)
  obtain rfl : res = result := hres'.trans (hd.network.sha256 (hjust.result m hm))
  -- its client has issued no other request with this sequence number
  obtain ⟨x', hx', hcontent⟩ := issued_of_delivered hd h hcorrect (List.mem_of_getElem? hr)
    (hclientID ▸ hid)
  have hsame : x' = x := by
    rw [hclientID] at hx'
    apply hclient.eq_of_sequence_eq hx' hx
    exact (congrArg (·.2.1) hcontent).trans hseq
  subst hsame
  refine ⟨m.replicaID, hcorrect, k, ?_, ?_⟩
  · rw [history, List.getElem?_map, hr, Option.map_some, hcontent]
  · rw [Deployment.object, Sequential.Object.result_comap, history, List.map_map]
    exact hres

/-- Correct replicas execute operations in one order, which explains what clients know. -/
theorem Executed.linearization (hd : d.Admissible) (h : Reachable d C sv)
    (hops : Executed d sv ops) : Sequential.Linearization d.object (calls d sv) ops where
  nodup := by
    obtain ⟨i, -, rfl⟩ := hops.some
    apply List.pairwise_map.mpr
    refine ((system_reachable h).node i).run.increasing.pairwise.imp fun hlt heq => ?_
    have hseq := congrArg (·.2.1) heq
    exact UInt64.ne_of_lt (hlt (congrArg (·.1) heq)) hseq
  invoked := by
    obtain ⟨i, hi, rfl⟩ := hops.some
    intro c hc hid
    obtain ⟨r, hr, rfl⟩ := List.mem_map.mp hc
    exact issued_of_delivered hd h hi hr hid
  returned := by
    intro c result hret
    obtain ⟨i, hi, k, hk, hresult⟩ := delivered_of_returned hd h hret
    obtain ⟨hlt, -⟩ := List.getElem?_eq_some_iff.mp hk
    have hpre := hops.all i hi
    refine ⟨k, ?_, Sequential.Object.result_of_prefix hpre hresult⟩
    obtain ⟨rest, rfl⟩ := hpre
    rw [List.getElem?_append_left hlt]
    exact hk

/-- The earlier state and the later one are explained by one order of operations, that of the former
being the beginning of that of the latter. What had returned by the earlier one comes before what
had not been invoked by then. -/
def Linearized (d : Deployment σ) (sv sv' : Service) : Prop :=
  ∃ ops ops', Executed d sv ops ∧ Executed d sv' ops' ∧ ops <+: ops' ∧
    Sequential.Linearization d.object (calls d sv) ops ∧
    Sequential.Linearization d.object (calls d sv') ops' ∧
    ∀ c c' result (i j : ℕ), (calls d sv).returned c result → ¬ (calls d sv).invoked c' →
      ops'[i]? = some c → ops'[j]? = some c' → i < j

theorem linearized_of_comparable (hd : d.Admissible) (h : Reachable d C sv)
    (hsteps : Steps d C sv sv')
    (hcomp : ∀ s, Reachable d C s → Steps d C s sv' → ∀ i ∈ d.correct, ∀ j ∈ d.correct,
      s.history i <+: s.history j ∨ s.history j <+: s.history i) : Linearized d sv sv' := by
  have h' := h.trans hsteps
  obtain ⟨ops, hops⟩ := exists_executed hd (hcomp sv h hsteps)
  obtain ⟨ops', hops'⟩ := exists_executed hd (hcomp sv' h' .start)
  have hpre := hops.mono (later_of_steps hsteps) hops'
  have hlin := hops.linearization hd h
  have hlin' := hops'.linearization hd h'
  refine ⟨ops, ops', hops, hops', hpre, hlin, hlin', ?_⟩
  intro c c' result i j hret hinv hi hj
  exact hlin.lt_of_returned hlin' hpre hret hinv hi hj

/-- As long as messages follow on from one another, clients are served as by one consumer that takes
their operations one after the other, each once it has been invoked and before its result is
returned. -/
theorem linearizable (hd : d.Admissible) (h : Reachable d (fun _ => Replica.Conforms ∅) sv)
    (hsteps : Steps d (fun _ => Replica.Conforms ∅) sv sv') : Linearized d sv sv' := by
  apply linearized_of_comparable hd h hsteps
  intro s hs _ i hi j hj
  exact history_comparable hd hs hi hj

/-- Whatever the faulty replicas do, clients are served as by one consumer as long as no correct
replica leaves the initial view. -/
theorem linearizable_initially (hd : d.Admissible) (h : Reachable d (fun _ _ _ => True) sv)
    (hsteps : Steps d (fun _ _ _ => True) sv sv')
    (hview : ∀ i ∈ d.correct, (sv'.system.nodes i).replica.expectedView = 0) :
    Linearized d sv sv' := by
  apply linearized_of_comparable hd h hsteps
  intro s hs hrest i hi j hj
  have hzero : ∀ k ∈ d.correct, (s.system.nodes k).replica.expectedView = 0 := by
    intro k hk
    have hle := (later_of_steps hrest).expectedView k
    rw [hview k hk] at hle
    exact UInt64.le_antisymm hle UInt64.zero_le
  exact history_comparable_initially hd hs hi hj (hzero i hi) (hzero j hj)

end History

end Service

namespace Concrete

def servingCrypto (ledger : List CertifiedMessage) : Crypto :=
  { ledgerCrypto ledger with
    verifyMessageAuthenTag := fun role id authenBytes tag =>
      match role with
      | .replicaAuthen => decide (id < 3)
      | _ => (ledgerCrypto ledger).verifyMessageAuthenTag role id authenBytes tag }

def servedPrepare : CertifiedMessage := .prepare (prepare 0 0 (request 7 1) 1)

def serving : Deployment SimpleLedger where
  config := ⟨3, 1⟩
  crypto := servingCrypto [servedPrepare, commit 1 servedPrepare 1]
  correct := {0, 1}
  consumer := SimpleLedger.consumer trailingHash bareResult
  clients := {7}
  requestSignature := fun _ _ => []
  startSeq := fun _ => 1

theorem serving_admissible : serving.Admissible where
  network :=
    { tolerant := by
        unfold Config.Tolerant
        decide
      sha256 := Function.injective_id
      uniqueUI := by
        have huniq : UniqueUI (ledgerCrypto [servedPrepare, commit 1 servedPrepare 1]) :=
          uniqueUI_ledgerCrypto (by decide +kernel)
        exact huniq
      replicas := by decide +kernel
      faulty := by decide +kernel }
  known := fun _ _ _ h => of_decide_eq_true h

/-- Both correct replicas execute the request of the client, which then gets their replies. -/
def servingRun : List Service.Label := List.flatten
  [[.client 7 (.call [1]), .client 7 (.add 0)],
    (handling 0 (.request (request 7 1))).map (.replica 0),
    (ownHandling (.certified servedPrepare)).map (.replica 0),
    (handling 0 (.certified servedPrepare)).map (.replica 1),
    (ownHandling (.certified (commit 1 servedPrepare 1))).map (.replica 1),
    (handling 1 (.certified (commit 1 servedPrepare 1))).map (.replica 0),
    [.answer 1 0, .answer 0 0],
    [Client.Label.reply ⟨0, 7, 1, [1], []⟩, .addReply 0, .supply 0, .supply 0, .collect 0,
      .reply ⟨1, 7, 1, [1], []⟩, .addReply 0, .supply 0, .supply 0, .supply 0, .supply 0,
      .collect 0, .remove 0, .collect 0].map (.client 7)]

def conforming (sv : Service) : Service.Label → Bool
  | .replica i l => ((sv.system.nodes i).processing l).all fun m =>
      decide ((sv.system.nodes i).replica.Conforms ∅ m)
  | _ => true

theorem exists_served {C : UInt32 → Replica → Message → Prop}
    (hC : ∀ i r m, Replica.Conforms ∅ r m → C i r m) :
    ∃ sv, Service.Reachable serving C sv ∧
      (Service.calls serving sv).returned (7, 1, [1]) [1] ∧
      ∀ i ∈ serving.correct, (sv.system.nodes i).replica.expectedView = 0 := by
  have hrun : (Machine.exec (Service.step serving) conforming (Service.init serving)
      servingRun).any (fun sv => ((sv.clients 7).requests.any fun x =>
          decide (x.msg.content = (7, 1, [1]) ∧ [1] ∈ x.resultChan)) &&
        decide ((sv.system.nodes 0).replica.expectedView = 0 ∧
          (sv.system.nodes 1).replica.expectedView = 0)) = true := by
    decide +kernel
  have hconforming : ∀ sv l, conforming sv l = true → Service.Meets C sv l := by
    intro sv l hl
    cases l with
    | replica i l =>
        intro m hm
        rw [conforming, hm] at hl
        exact hC i _ m (of_decide_eq_true hl)
    | _ => trivial
  obtain ⟨sv, hreach, hsv⟩ := Machine.exists_reachable (fun s l _ => hconforming s l) hrun
  obtain ⟨hreturned, hviews⟩ := (Bool.and_eq_true _ _).mp hsv
  obtain ⟨x, hx, hresult⟩ := List.any_eq_true.mp hreturned
  obtain ⟨hcontent, hresult⟩ := of_decide_eq_true hresult
  obtain ⟨hzero, hone⟩ := of_decide_eq_true hviews
  refine ⟨sv, hreach, ⟨by decide, x, hx, hcontent, hresult⟩, ?_⟩
  simp only [serving, Finset.forall_mem_insert, Finset.mem_singleton, forall_eq]
  exact ⟨hzero, hone⟩

theorem linearizable_of_serving : ∃ sv,
    Service.Reachable serving (fun _ => Replica.Conforms ∅) sv ∧
      (Service.calls serving sv).returned (7, 1, [1]) [1] ∧ Service.Linearized serving sv sv := by
  obtain ⟨sv, hreach, hreturned, -⟩ := exists_served fun _ _ _ hm => hm
  exact ⟨sv, hreach, hreturned, Service.linearizable serving_admissible hreach .start⟩

theorem linearizable_initially_of_serving : ∃ sv,
    Service.Reachable serving (fun _ _ _ => True) sv ∧
      (Service.calls serving sv).returned (7, 1, [1]) [1] ∧ Service.Linearized serving sv sv := by
  obtain ⟨sv, hreach, hreturned, hviews⟩ := exists_served fun _ _ _ _ => trivial
  exact ⟨sv, hreach, hreturned,
    Service.linearizable_initially serving_admissible hreach .start hviews⟩

end Concrete

end MinBFT
