import MinBFT.Handling
import MinBFT.Lib.Sums
import MinBFT.Replying

/-!
# The process of a replica

A node, the handlers of messages from clients, and the goroutines that make Replies and wait for
them. `handleClientMessage` has the node validate and process a Request, and then receives the Reply
from the channel that `replyRequest` returns.

There are two panics that a node alone does not know of. `assignUI` and `sign` panic when the
authenticator returns an error instead of a tag. The goroutine behind `ReplyChannel` looks at a
Reply that is nil when the sequence number is zero and the client has got no Reply so far.

A process that has died does nothing more, and of the step it died in only the panic is kept.
Messages generated earlier in that step may have left the replica.
-/

namespace MinBFT

namespace Process

inductive Phase where
  /-- This goroutine of the node validates and processes the Request. -/
  | handling (thread : ℕ)
  | processed (new : Bool)
  /-- The call receives from the channel of this goroutine. -/
  | receiving (new : Bool) (waiter : ℕ)
  | returned (result : Except Error (Option Reply × Bool))

structure Call where
  message : Message
  phase : Phase

end Process

structure Process where
  node : Node
  replies : UInt32 → Replying.State
  calls : List Process.Call
  /-- The executed requests for which there has been a result, by their places. -/
  answered : List ℕ
  died : Option Panic

namespace Process

inductive Label where
  /-- A step of the node. The authenticator returns a tag or an error, for one message generated
  after the other. -/
  | node (l : MinBFT.Label) (tags : ℕ → Bool)
  /-- A message arrives from a client. -/
  | client (m : Message)
  | await (call : ℕ)
  | wait (clientID : UInt32) (waiter : ℕ)
  | receive (call : ℕ)
  /-- The consumer has executed the request delivered at this place. -/
  | answer (k : ℕ) (result : Bytes) (tag : Bool)

variable (p : Params)

def init : Process := ⟨.init p, fun _ => Replying.init, [], [], none⟩

/-- The messages that need tags when the node goes from one state to the other. -/
def generatedBy (node node' : Node) : List Message :=
  node'.replica.output.generated.drop node.replica.output.generated.length

/-- What `processRequest` returns. -/
def isNew (r : Request) (s : Replica) : Bool :=
  match Replica.processRequest p r s with
  | .ok new _ => new
  | .error _ _ => false

def Call.resume (before after : Node) (c : Call) : Call :=
  match c.message, c.phase with
  | .request r, .handling i =>
      match after.threads[i]? with
      | some ⟨_, [], none⟩ => { c with phase := .processed (isNew p r before.replica) }
      | some ⟨_, _, some e⟩ => { c with phase := .returned (.error (.invalidRequest e)) }
      | _ => c
  | _, _ => c

def stepNode (l : MinBFT.Label) (tags : ℕ → Bool) (s : Process) : Option Process :=
  (s.node.act p l).bind fun node =>
    if (List.range (generatedBy s.node node).length).all tags then
      (s.node.step p l).map fun node => { s with
        node
        calls := s.calls.map (·.resume p s.node node)
        died := node.crashed }
    else some { s with died := some .tagGeneration }

/-- `handleClientMessage`, until the node takes over. -/
def handleClientMessage (s : Process) : Message → Option Process
  | .request r => (s.node.step p (.receive (.request r))).map fun node => { s with
      node
      calls := s.calls ++ [⟨.request r, .handling s.node.threads.length⟩] }
  | m => some { s with
      calls := s.calls ++ [⟨m, .returned (.error .unexpectedMessageType)⟩] }

def setReplies (clientID : UInt32) (replies : Replying.State) (s : Process) : Process :=
  { s with replies := Function.update s.replies clientID replies }

def setPhase (i : ℕ) (c : Call) (phase : Phase) (s : Process) : Process :=
  { s with calls := s.calls.set i { c with phase } }

def replyRequest (i : ℕ) (s : Process) : Option Process :=
  s.calls[i]?.bind fun c =>
    match c.message, c.phase with
    | .request r, .processed new =>
        (Replying.step (s.replies r.clientID) (.replyChannel r.sequence)).map fun replies =>
          (s.setReplies r.clientID replies).setPhase i c
            (.receiving new (s.replies r.clientID).waiters.length)
    | _, _ => none

/-- The goroutine that `ReplyChannel` has started. -/
def runWaiter (clientID : UInt32) (i : ℕ) (s : Process) : Option Process :=
  (Replying.step (s.replies clientID) (.run i)).map fun replies =>
    { s.setReplies clientID replies with
      died := if (replies.waiters[i]?).any (·.phase == .panicked) then some .nilReply else none }

/-- The rest of `handleClientMessage`. -/
def receiveReply (i : ℕ) (s : Process) : Option Process :=
  s.calls[i]?.bind fun c =>
    match c.message, c.phase with
    | .request r, .receiving new waiter =>
        (s.replies r.clientID).waiters[waiter]?.bind fun w =>
          if w.phase = .closed then some (s.setPhase i c (.returned (.ok (w.out.head?, new))))
          else none
    | _, _ => none

def reply (r : Request) (result : Bytes) : Reply :=
  let reply : Reply := ⟨p.id, r.clientID, r.sequence, result, []⟩
  { reply with signature := p.crypto.replicaSignature p.id (reply.authenBytes p.crypto.sha256) }

/-- The end of the goroutine started by `executeRequest`, once for each request delivered. -/
def answer (k : ℕ) (result : Bytes) (tag : Bool) (s : Process) : Option Process :=
  if k ∈ s.answered then none
  else s.node.replica.execution.requests.delivered[k]?.map fun r =>
    if tag then
      { s.setReplies r.clientID (Replying.addReply (s.replies r.clientID) (reply p r result)) with
        answered := k :: s.answered }
    else { s with died := some .tagGeneration }

def step (s : Process) (l : Label) : Option Process :=
  if s.died.isSome then none
  else match l with
    | .node l tags => s.stepNode p l tags
    | .client m => s.handleClientMessage p m
    | .await i => s.replyRequest i
    | .wait clientID i => s.runWaiter clientID i
    | .receive i => s.receiveReply i
    | .answer k result tag => s.answer p k result tag

def processing (s : Process) : Label → Option Message
  | .node l _ => s.node.processing l
  | _ => none

abbrev Reachable (C : Replica → Message → Prop) : Process → Prop :=
  Machine.Reachable (step p) (init p) fun s l => ∀ m, s.processing l = some m → C s.node.replica m

inductive Stepped (s : Process) : Label → Process → Prop where
  | node {l : MinBFT.Label} {tags : ℕ → Bool} {n : Node} (hstep : s.node.step p l = some n) :
      Stepped s (.node l tags) { s with
        node := n
        calls := s.calls.map (·.resume p s.node n)
        died := n.crashed }
  | untagged {l : MinBFT.Label} {tags : ℕ → Bool} {k : ℕ} (htag : tags k = false) :
      Stepped s (.node l tags) { s with died := some .tagGeneration }
  | handled {r : Request} {n : Node} (hstep : s.node.step p (.receive (.request r)) = some n) :
      Stepped s (.client (.request r)) { s with
        node := n
        calls := s.calls ++ [⟨.request r, .handling s.node.threads.length⟩] }
  | refused {m : Message} : Stepped s (.client m) { s with
      calls := s.calls ++ [⟨m, .returned (.error .unexpectedMessageType)⟩] }
  | awaited {i : ℕ} {r : Request} {c : Call} {phase : Phase} {replies : Replying.State}
      (hc : s.calls[i]? = some c) (hr : c.message = .request r)
      (hstep : Replying.step (s.replies r.clientID) (.replyChannel r.sequence) = some replies) :
      Stepped s (.await i) ((s.setReplies r.clientID replies).setPhase i c phase)
  | waited {clientID : UInt32} {i : ℕ} {replies : Replying.State}
      (hstep : Replying.step (s.replies clientID) (.run i) = some replies) :
      Stepped s (.wait clientID i) { s.setReplies clientID replies with
        died := if (replies.waiters[i]?).any (·.phase == .panicked) then some .nilReply else none }
  | received {i : ℕ} {c : Call} {phase : Phase} (hc : s.calls[i]? = some c) :
      Stepped s (.receive i) (s.setPhase i c phase)
  | answered {k : ℕ} {r : Request} {result : Bytes} {replies : Replying.State}
      (hstep : Replying.step (s.replies r.clientID) (.addReply (reply p r result)) =
        some replies) :
      Stepped s (.answer k result true) { s.setReplies r.clientID replies with
        answered := k :: s.answered }
  | unsigned {k : ℕ} {result : Bytes} :
      Stepped s (.answer k result false) { s with died := some .tagGeneration }

variable {p} {C : Replica → Message → Prop} {s s' : Process} {l : Label}

theorem stepNode_stepped {l : MinBFT.Label} {tags : ℕ → Bool} (h : s.stepNode p l tags = some s') :
    Stepped p s (.node l tags) s' := by
  obtain ⟨n, -, h⟩ := Option.bind_eq_some_iff.mp h
  split_ifs at h with htags
  · obtain ⟨n, hstep, rfl⟩ := Option.map_eq_some_iff.mp h
    exact .node hstep
  · cases h
    rw [List.all_eq_true] at htags
    push Not at htags
    obtain ⟨k, -, hk⟩ := htags
    exact .untagged (Bool.eq_false_iff.mpr hk)

theorem replyRequest_stepped {i : ℕ} (h : s.replyRequest i = some s') :
    Stepped p s (.await i) s' := by
  obtain ⟨c, hc, h⟩ := Option.bind_eq_some_iff.mp h
  split at h
  · next r new hr hphase =>
      obtain ⟨replies, hstep, rfl⟩ := Option.map_eq_some_iff.mp h
      exact .awaited hc hr hstep
  · cases h

theorem receiveReply_stepped {i : ℕ} (h : s.receiveReply i = some s') :
    Stepped p s (.receive i) s' := by
  obtain ⟨c, hc, h⟩ := Option.bind_eq_some_iff.mp h
  split at h
  · obtain ⟨w, -, h⟩ := Option.bind_eq_some_iff.mp h
    split_ifs at h
    cases h
    exact .received hc
  · cases h

theorem answer_stepped {k : ℕ} {result : Bytes} {tag : Bool}
    (h : s.answer p k result tag = some s') : Stepped p s (.answer k result tag) s' := by
  unfold answer at h
  by_cases hk : k ∈ s.answered
  · rw [if_pos hk] at h
    cases h
  · rw [if_neg hk] at h
    obtain ⟨r, -, rfl⟩ := Option.map_eq_some_iff.mp h
    cases tag with
    | true => exact .answered rfl
    | false => exact .unsigned

theorem step_stepped (h : s.step p l = some s') : s.died = none ∧ Stepped p s l s' := by
  unfold step at h
  split_ifs at h with hdied
  refine ⟨by simpa using hdied, ?_⟩
  cases l with
  | node l tags => exact stepNode_stepped h
  | client m =>
      cases m with
      | request r =>
          obtain ⟨n, hstep, rfl⟩ := Option.map_eq_some_iff.mp h
          exact .handled hstep
      | _ =>
          cases h
          exact .refused
  | await i => exact replyRequest_stepped h
  | wait clientID i =>
      obtain ⟨replies, hstep, rfl⟩ := Option.map_eq_some_iff.mp h
      exact .waited hstep
  | receive i => exact receiveReply_stepped h
  | answer k result tag => exact answer_stepped h

/-- The node goes through a run. -/
theorem Reachable.node (h : Reachable p C s) : s.node.Reachable p C := by
  induction h with
  | start => exact .init
  | step _ hcond hstep ih =>
      cases (step_stepped hstep).2 with
      | node hn => exact .step ih hn hcond
      | handled hn => exact .step ih hn fun m hm => nomatch hm
      | _ => exact ih

theorem message_resume (before after : Node) (c : Call) :
    (c.resume p before after).message = c.message := by
  unfold Call.resume
  split
  · split <;> rfl
  · rfl

theorem messages_setPhase {i : ℕ} {c : Call} (hc : s.calls[i]? = some c) (phase : Phase) :
    (s.setPhase i c phase).calls.map Call.message = s.calls.map Call.message :=
  List.map_set_of_eq hc rfl

/-- The messages that have come from clients are kept. -/
theorem Stepped.messages (h : Stepped p s l s') :
    s.calls.map Call.message <+: s'.calls.map Call.message := by
  cases h with
  | @node _ _ n _ =>
      have hsame : Call.message ∘ (·.resume p s.node n) = Call.message :=
        funext (message_resume s.node n)
      rw [List.map_map, hsame]
  | handled =>
      rw [List.map_append]
      exact List.prefix_append _ _
  | refused =>
      rw [List.map_append]
      exact List.prefix_append _ _
  | @awaited i r c phase replies hc _ _ =>
      exact (messages_setPhase (s := s.setReplies r.clientID replies) hc phase).symm ▸
        List.prefix_refl _
  | received hc => exact (messages_setPhase hc _).symm ▸ List.prefix_refl _
  | _ => exact List.prefix_refl _

def Sent (s : Process) (id : UInt32) (seq : UInt64) : Prop :=
  ∃ r, .request r ∈ s.calls.map Call.message ∧ r.clientID = id ∧ r.sequence = seq

theorem Stepped.sent (h : Stepped p s l s') {id : UInt32} {seq : UInt64} (hsent : s.Sent id seq) :
    s'.Sent id seq := by
  obtain ⟨r, hr, hrest⟩ := hsent
  exact ⟨r, h.messages.subset hr, hrest⟩

/-- A step takes a step of the Replies to one client, or none. `ReplyChannel` is called for what the
client has sent. -/
theorem Stepped.replies (h : Stepped p s l s') (id : UInt32) : s'.replies id = s.replies id ∨
    ∃ l', Replying.step (s.replies id) l' = some (s'.replies id) ∧
      ∀ seq, l' = .replyChannel seq → s.Sent id seq := by
  have hset {id' : UInt32} {replies : Replying.State} {l' : Replying.Label}
      (hstep : Replying.step (s.replies id') l' = some replies)
      (hsent : ∀ seq, l' = .replyChannel seq → s.Sent id' seq) :
      Function.update s.replies id' replies id = s.replies id ∨
        ∃ l', Replying.step (s.replies id) l' = some (Function.update s.replies id' replies id) ∧
          ∀ seq, l' = .replyChannel seq → s.Sent id seq := by
    by_cases hid : id = id'
    · subst hid
      rw [Function.update_self]
      exact .inr ⟨l', hstep, hsent⟩
    · exact .inl (Function.update_of_ne hid ..)
  cases h with
  | @awaited i r c _ _ hc hr hstep =>
      refine hset hstep fun seq hseq => ?_
      cases hseq
      exact ⟨r, hr ▸ List.mem_map_of_mem (List.mem_of_getElem? hc), rfl, rfl⟩
  | waited hstep => exact hset hstep nofun
  | answered hstep => exact hset hstep nofun
  | _ => exact .inl rfl

/-- The Replies to a client go through a run. -/
theorem Reachable.replies (h : Reachable p C s) (id : UInt32) :
    Replying.Reachable (fun _ _ => True) (s.replies id) := by
  induction h with
  | start => exact .start
  | step _ _ hstep ih =>
      rcases (step_stepped hstep).2.replies id with heq | ⟨l', hstep, -⟩
      · exact heq ▸ ih
      · exact ih.step trivial hstep

theorem Reachable.kept (h : Reachable p C s) (id : UInt32) : Replying.Kept (s.replies id) :=
  (h.replies id).invariant Replying.kept_init fun _ _ _ hk _ hstep => Replying.kept_step hk hstep

/-- Whoever waits for a Reply does so for a Request that the client has sent. -/
theorem Reachable.sent (h : Reachable p C s) {id : UInt32} {w : Replying.Waiter}
    (hw : w ∈ (s.replies id).waiters) : s.Sent id w.seq := by
  induction h generalizing w with
  | start => cases hw
  | @step s s' l _ _ hstep ih =>
      have hstepped := (step_stepped hstep).2
      rcases hstepped.replies id with heq | ⟨l', hreplies, hsent⟩
      · exact hstepped.sent (ih (heq ▸ hw))
      · rcases Replying.seq_of_step hreplies hw with ⟨w₀, hw₀, hseq⟩ | hl
        · exact hseq ▸ hstepped.sent (ih hw₀)
        · exact hstepped.sent (hsent _ hl)

/-! ## Messages from the network -/

/-- The step of a handler of a message from the network, or of a goroutine that one has started. -/
def Label.Network : Label → Prop
  | .node (.run _ _) _ => True
  | .node _ _ => False
  | _ => True

/-- The authenticator returns all tags it is asked for. -/
def Label.Tagged : Label → Prop
  | .node _ tags => ∀ k, tags k = true
  | .answer _ _ tag => tag = true
  | _ => True

/-- Clients that have sent a Request with sequence number zero have got a Reply. -/
def Answerable (s : Process) : Prop :=
  ∀ r, .request r ∈ s.calls.map Call.message → r.sequence = 0 →
    (s.replies r.clientID).reply ≠ none

/-- What a process dies of. -/
theorem Stepped.died {q : Panic} (h : Stepped p s l s') (hlive : s.died = none)
    (hkept : ∀ id, Replying.Kept (s.replies id)) (hq : s'.died = some q) :
    (∃ l' tags n, l = .node l' tags ∧ s.node.step p l' = some n ∧ n.crashed = some q) ∨
      q = .tagGeneration ∧ ¬ l.Tagged ∨
      q = .nilReply ∧ ∃ id, ∃ w ∈ (s.replies id).waiters, w.seq = 0 ∧
        (s.replies id).reply = none := by
  have hlives {P : Prop} (hq : s.died = some q) : P := by
    rw [hlive] at hq
    cases hq
  cases h with
  | node hstep => exact .inl ⟨_, _, _, rfl, hstep, hq⟩
  | untagged htag =>
      refine .inr (.inl ⟨(Option.some.inj hq).symm, fun htags => ?_⟩)
      rw [htags] at htag
      cases htag
  | unsigned => exact .inr (.inl ⟨(Option.some.inj hq).symm, nofun⟩)
  | @waited id i replies hstep =>
      have hq : (if (replies.waiters[i]?).any (·.phase == .panicked) then some Panic.nilReply
        else none) = some q := hq
      split_ifs at hq with hpanic
      cases hq
      exact .inr (.inr ⟨rfl, id, Replying.panicked_of_run (hkept id) hstep hpanic⟩)
  | handled => exact hlives hq
  | refused => exact hlives hq
  | awaited => exact hlives hq
  | received => exact hlives hq
  | answered => exact hlives hq

/-- With nothing unknown in the messages received, none of the handlers for messages from the
network reaches the panic of a type switch. They do not panic at all as long as the authenticator
returns the tags it is asked for, Requests with sequence number zero come from clients that have got
a Reply, UIs are unique, no NewView is processed ahead of the expected view and commitments to
NewViews agree. -/
theorem network_survived (hid : p.id < p.config.n) (h : Reachable p C s)
    (hknown : ∀ t ∈ s.node.threads, Hereditarily Message.Known t.message) :
    (∀ l s', l.Network → s.step p l = some s' →
      (∀ q, s'.died = some q → q = .requestNotPrepared ∨ q = .tagGeneration ∧ ¬ l.Tagged ∨
        q = .nilReply ∧ ¬ s.Answerable) ∧
      (p.config.Tolerant → Function.Injective p.crypto.sha256 → UniqueUI p.crypto →
        (∀ r m, C r m → r.Timely m ∧ r.Unequivocal m) →
        (∀ m, s.processing l = some m → C s.node.replica m) →
        l.Tagged → s.Answerable → s'.died = none)) ∧
    ∀ m, Panicless (handleHello p m) := by
  refine ⟨fun l s' hl hstep => ?_, handleHello_panicless p⟩
  obtain ⟨hlive, hstepped⟩ := step_stepped hstep
  have hanswerable {id : UInt32} {w : Replying.Waiter} (hw : w ∈ (s.replies id).waiters)
      (hseq : w.seq = 0) (hnone : (s.replies id).reply = none) : ¬ s.Answerable := by
    obtain ⟨r, hr, rfl, hr'⟩ := h.sent hw
    exact fun hans => hans r hr (hr'.trans hseq) hnone
  constructor
  · intro q hq
    rcases hstepped.died hlive h.kept hq with ⟨l', tags, n, rfl, hn, hcrashed⟩ | htag |
      ⟨rfl, id, w, hw, hseq, hnone⟩
    · cases l' with
      | run i order => exact .inl (h.node.panic_of_known hid hknown hn hcrashed).1
      | _ => exact hl.elim
    · exact .inr (.inl htag)
    · exact .inr (.inr ⟨rfl, hanswerable hw hseq hnone⟩)
  · intro htol hsha huniq hC hcond htagged hans
    cases hq : s'.died with
    | none => rfl
    | some q =>
        rcases hstepped.died hlive h.kept hq with ⟨l', tags, n, rfl, hn, hcrashed⟩ | ⟨-, htag⟩ |
          ⟨-, id, w, hw, hseq, hnone⟩
        · cases l' with
          | run i order =>
              obtain ⟨-, m, r, hproc, hpanic⟩ := h.node.panic_of_known hid hknown hn hcrashed
              exact absurd hpanic (h.node.processMessage_ne_panic hid htol hsha huniq hC
                (Node.step_cases hn).1 hproc (hcond m hproc))
          | _ => exact hl.elim
        · exact absurd htagged htag
        · exact absurd hans (hanswerable hw hseq hnone)

end Process

namespace Concrete

def tagged (ls : List Label) : List Process.Label := ls.map (.node · fun _ => true)

def timely (s : Process) (l : Process.Label) : Bool :=
  (s.processing l).all fun m => decide (s.node.replica.Timely m ∧ s.node.replica.Unequivocal m)

theorem timely_spec {s : Process} {l : Process.Label} (h : timely s l = true) {m : Message}
    (hm : s.processing l = some m) : s.node.replica.Timely m ∧ s.node.replica.Unequivocal m := by
  rw [timely, hm] at h
  exact of_decide_eq_true h

def continues (p : Params) (l : Process.Label) (s : Process) : Bool :=
  s.node.threads.all (fun t => t.message.nested.all fun x => decide x.Known) &&
    s.calls.all (fun c => match c.message with
      | .request r => r.sequence != 0
      | _ => true) &&
    timely s l && (s.step p l).isSome

def awaited : List Process.Label :=
  .client (.request (request 0 1)) :: tagged [.run 0 [], .run 0 []] ++ [.await 0, .wait 0 0] ++
    tagged (handling 1 (.certified proposal)) ++
    tagged (handling 2 (.certified (commit 2 proposal 1))).dropLast

theorem commit_survived : ∃ s s' : Process,
    Process.Reachable backupParams (fun r m => r.Timely m ∧ r.Unequivocal m) s ∧
      s.calls.length = 1 ∧ (∀ t ∈ s.node.threads, Hereditarily Message.Known t.message) ∧
      s.step backupParams (.node (.run 2 []) fun _ => true) = some s' ∧ s'.died = none := by
  have h : (Machine.exec (Process.step backupParams) timely (.init backupParams) awaited).any
      (fun s => s.calls.length == 1 &&
        continues backupParams (.node (.run 2 []) fun _ => true) s) = true := by
    decide +kernel
  obtain ⟨s, hreach, hs⟩ : ∃ s, Process.Reachable backupParams
      (fun r m => r.Timely m ∧ r.Unequivocal m) s ∧ _ :=
    Machine.exists_reachable (fun s l _ hl m hm => timely_spec hl hm) h
  unfold continues at hs
  simp only [Bool.and_eq_true, List.all_eq_true] at hs
  obtain ⟨hlen, ⟨⟨hknown, hseq⟩, htimely⟩, hstep⟩ := hs
  obtain ⟨s', hstep⟩ := Option.isSome_iff_exists.mp hstep
  have hknown' : ∀ t ∈ s.node.threads, Hereditarily Message.Known t.message := fun t ht =>
    hereditarily_iff.mpr fun x hx => of_decide_eq_true (hknown t ht x hx)
  have hanswerable : s.Answerable := by
    intro r hr hzero
    obtain ⟨c, hc, hcr⟩ := List.mem_map.mp hr
    have hne := hseq c hc
    rw [hcr] at hne
    exact absurd hzero (bne_iff_ne.mp hne)
  refine ⟨s, s', hreach, of_decide_eq_true hlen, hknown', hstep, ?_⟩
  exact ((Process.network_survived (by decide) hreach hknown').1 (.node (.run 2 []) fun _ => true)
    s' trivial hstep).2
    (by unfold Config.Tolerant; decide) (injective_sha256_ledgerCrypto _)
    (uniqueUI_ledgerCrypto (by decide +kernel)) (fun _ _ hc => hc)
    (fun m hm => timely_spec htimely hm) (fun _ => rfl) hanswerable

/-- A Commit to a Commit, as the second backup can send it. -/
def commitToCommit : CertifiedMessage := commit 2 (commit 0 proposal 1) 1

def chainedParams : Params := ⟨1, ⟨3, 1⟩, ledgerCrypto [commitToCommit]⟩

def primaryParams : Params := ⟨0, ⟨3, 1⟩, ledgerCrypto []⟩

def Dies (p : Params) (ls : List Process.Label) (q : Panic) : Prop :=
  ∃ s, Machine.Run (Process.step p) (Process.init p) ls s ∧ s.died = some q

theorem dies_of_exec {p : Params} {ls : List Process.Label} {q : Panic}
    (h : (Machine.exec (Process.step p) (fun _ _ => true) (Process.init p) ls).bind
      (·.died) = some q) : Dies p ls q := by
  obtain ⟨s, hs, hdied⟩ := Option.bind_eq_some_iff.mp h
  exact ⟨s, Machine.Run.nil.exec hs, hdied⟩

/-- What takes a replica down from its initial state: a Hello, a Reply, a Commit to a Commit, a
Request with sequence number zero, and a Request to the primary whose USIG returns an error. -/
theorem unknown_messages_crash :
    Dies backupParams (tagged [.receive (.hello ⟨0⟩), .run 0 []]) .unknownMessageType ∧
    Dies backupParams (tagged [.receive (.reply ⟨0, 0, 1, [], []⟩), .run 0 []])
      .unknownMessageType ∧
    UniqueUI chainedParams.crypto ∧
    Dies chainedParams (tagged [.receive (.certified commitToCommit), .run 0 []])
      .unexpectedProposalType ∧
    Dies backupParams
      (.client (.request (request 0 0)) :: tagged [.run 0 [], .run 0 []] ++ [.await 0, .wait 0 0])
      .nilReply ∧
    Dies primaryParams [.client (.request (request 0 1)), .node (.run 0 []) fun _ => true,
      .node (.run 0 []) fun _ => false] .tagGeneration :=
  ⟨dies_of_exec rfl, dies_of_exec rfl, uniqueUI_ledgerCrypto (by decide +kernel),
    dies_of_exec rfl, dies_of_exec rfl, dies_of_exec rfl⟩

end Concrete

end MinBFT
