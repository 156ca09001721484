import MinBFT.Messages
import MinBFT.Lib.Locking

/-!
# Locks of a replica

The goroutines of a replica as far as they take locks: which ones, in which mode, and what they hold
meanwhile. What the handlers make of the data is left open, so that every branch may be taken.

A view lease is the read-write lock of the view state, held until it is released. A captured
sequence number is like a lock, too: until it is released, whoever wants to capture a number of the
same client has to wait.
-/

namespace MinBFT

open Locking Code

inductive Lock where
  /-- `locks` of `makePeerMessageProcessor`. -/
  | peer (replicaID : UInt32)
  /-- `lock` of `makeReqViewChangeProcessor`. -/
  | reqViewChange
  /-- `lock` of `makeViewChangeProcessor`. -/
  | viewChange
  /-- `lock` of `makeViewChangeRequestor`. -/
  | requested
  /-- The `RWMutex` of `viewState`. -/
  | view
  /-- A sequence number of this client is captured and not released. -/
  | captured (clientID : UInt32)
  /-- `lock` of `makeCommitmentCollector`. -/
  | commitment
  /-- `uiLock` of `makeGeneratedMessageHandler`. -/
  | ui
  /-- The mutex of `provider` in package `clientstate`. -/
  | clientStates
  | seqState (clientID : UInt32)
  | replyState (clientID : UInt32)
  | requestTimer (clientID : UInt32)
  | prepareTimer (clientID : UInt32)
  | pendingReqs
  | preparedReqs
  | log
  | unicastLog (replicaID : UInt32)
deriving DecidableEq

def Lock.rank : Lock → ℕ
  | .peer _ => 0
  | .reqViewChange | .viewChange | .requested => 1
  | .view => 2
  | .captured _ | .commitment => 3
  | .ui => 4
  | _ => 5

/-- The requests that loops go through while a message is processed: all that are in a list, those
extracted from a NewView, and those that are executed. -/
structure Loops where
  pending : List Request
  prepared : List Request
  extracted : List Request
  executed : List Request

namespace Handlers

def guarded (l : Lock) : Code Lock := locked l .exclusive id

def guardedRead (l : Lock) : Code Lock := locked l .shared id

def clientState : Code Lock := guarded .clientStates

/-! ## Requests -/

/-- `CaptureRequestSeq`, what is done with a new number, and its release. Someone who waits for the
number captured last to be released may find that its own one is not new. -/
def captureRequestSeq (clientID : UInt32) (captured : Code Lock) : Code Lock :=
  guarded (.seqState clientID) ∘ optional
    (waiting (.captured clientID)
      (guarded (.seqState clientID) ∘ optional (captured ∘ guarded (.seqState clientID)))
      (guarded (.seqState clientID)))

def captureReq (r : Request) (captured : Code Lock) : Code Lock :=
  clientState ∘ captureRequestSeq r.clientID (guarded .pendingReqs ∘ captured)

def prepareReq (r : Request) : Code Lock :=
  clientState ∘ guarded (.seqState r.clientID) ∘
    optional (guarded .preparedReqs ∘ guarded .pendingReqs)

/-- `retireReq`, and what is done with a new request. -/
def retireReq (r : Request) (new : Code Lock) : Code Lock :=
  clientState ∘ guarded (.seqState r.clientID) ∘ optional (guarded .preparedReqs ∘ new)

def unprepareReqs (loops : Loops) : Code Lock :=
  guardedRead .preparedReqs ∘ each loops.prepared fun r =>
    clientState ∘ guarded (.seqState r.clientID) ∘ guarded .pendingReqs ∘ guarded .preparedReqs

def requestTimer (r : Request) : Code Lock := clientState ∘ guarded (.requestTimer r.clientID)

def prepareTimer (r : Request) : Code Lock := clientState ∘ guarded (.prepareTimer r.clientID)

/-- `handleGeneratedMessage` for a message that gets a UI. -/
def generateCertified : Code Lock := locked .ui .exclusive (guarded .log)

def generateReqViewChange : Code Lock := guarded .log

def generateReply (clientID : UInt32) : Code Lock := clientState ∘ guarded (.replyState clientID)

def applyRequest (r : Request) : Code Lock :=
  requestTimer r ∘ either generateCertified (prepareTimer r)

def applyPendingReqs (loops : Loops) : Code Lock :=
  guardedRead .pendingReqs ∘ each loops.pending applyRequest

/-- The Reply is generated in a goroutine of its own. -/
def executeRequest (r : Request) : Code Lock := retireReq r (requestTimer r)

/-- The requests executed are that of a Prepare or those extracted from a NewView. -/
def collectCommitment (loops : Loops) : Code Lock :=
  locked .commitment .exclusive (optional (each loops.executed executeRequest))

def processRequest (r : Request) : Code Lock :=
  locked .view .shared (captureReq r (optional (applyRequest r)))

/-! ## Messages of replicas -/

def applyPrepare (r : Request) (loops : Loops) : Code Lock :=
  prepareReq r ∘ optional
    (collectCommitment loops ∘ optional (prepareTimer r ∘ generateCertified))

def applyNewView (loops : Loops) : Code Lock :=
  each loops.extracted prepareReq ∘ collectCommitment loops ∘
    optional (applyPendingReqs loops ∘ optional generateCertified)

def processNewViewCert : Code Lock :=
  locked .view .shared (optional (guarded .log ∘ generateCertified))

def processNext (loops : Loops) : CertifiedMessage → Code Lock
  | .prepare m => locked .view .shared (optional (applyPrepare m.request loops))
  | .commit _ => locked .view .shared (optional (collectCommitment loops))
  | .newView _ => locked .view .exclusive (optional (applyNewView loops))
  | .viewChange _ => locked .viewChange .exclusive (optional processNewViewCert)

def startViewChange (loops : Loops) : Code Lock :=
  locked .view .exclusive
    (optional (guardedRead .log ∘ guarded .log ∘ unprepareReqs loops ∘ generateCertified))

def processMessage (loops : Loops) : Message → Code Lock
  | .request m => processRequest m
  | .certified m => locked (.peer m.replicaID) .exclusive (optional (processNext loops m))
  | .reqViewChange m => locked (.peer m.replicaID) .exclusive
      (locked .reqViewChange .exclusive (optional (startViewChange loops)))
  | .hello _ => id
  | .reply _ => id

def requestViewChange : Code Lock :=
  locked .requested .exclusive
    (optional (locked .view .shared (optional generateReqViewChange)))

/-! ## Order -/

variable {n : ℕ} {r : Request} {loops : Loops}

theorem safe_guarded {l : Lock} (h : n ≤ l.rank) : Safe Lock.rank n (guarded l) := Safe.id.locked h

theorem safe_guardedRead {l : Lock} (h : n ≤ l.rank) : Safe Lock.rank n (guardedRead l) :=
  Safe.id.locked h

theorem safe_clientState (h : n ≤ 5) : Safe Lock.rank n clientState := safe_guarded h

/-- While a number is captured, only locks of higher rank are taken. -/
theorem safe_captureRequestSeq {clientID : UInt32} {captured : Code Lock}
    (hcaptured : Safe Lock.rank 4 captured) (h : n ≤ 3) :
    Safe Lock.rank n (captureRequestSeq clientID captured) := by
  have hseq : ∀ m ≤ 5, Safe Lock.rank m (guarded (.seqState clientID)) :=
    fun m hm => safe_guarded hm
  apply (hseq n (by omega)).comp
  apply Safe.optional
  refine Safe.waiting ?_ (hseq n (by omega)) h
  apply (hseq 4 (by omega)).comp
  apply Safe.optional
  exact hcaptured.comp (hseq 4 (by omega))

theorem safe_prepareReq (h : n ≤ 5) : Safe Lock.rank n (prepareReq r) := by
  apply (safe_clientState h).comp
  apply (safe_guarded h).comp
  apply Safe.optional
  exact (safe_guarded h).comp (safe_guarded h)

theorem safe_requestTimer (h : n ≤ 5) : Safe Lock.rank n (requestTimer r) :=
  (safe_clientState h).comp (safe_guarded h)

theorem safe_prepareTimer (h : n ≤ 5) : Safe Lock.rank n (prepareTimer r) :=
  (safe_clientState h).comp (safe_guarded h)

theorem safe_unprepareReqs (h : n ≤ 5) : Safe Lock.rank n (unprepareReqs loops) := by
  apply (safe_guardedRead h).comp
  apply Safe.each
  intro r
  apply (safe_clientState h).comp
  apply (safe_guarded h).comp
  exact (safe_guarded h).comp (safe_guarded h)

theorem safe_generateCertified (h : n ≤ 4) : Safe Lock.rank n generateCertified :=
  (safe_guarded (Nat.le_refl 5)).locked h

theorem safe_applyRequest (h : n ≤ 4) : Safe Lock.rank n (applyRequest r) := by
  apply (safe_requestTimer (by omega)).comp
  exact (safe_generateCertified h).either (safe_prepareTimer (by omega))

theorem safe_applyPendingReqs (h : n ≤ 4) : Safe Lock.rank n (applyPendingReqs loops) := by
  apply (safe_guardedRead (show n ≤ 5 by omega)).comp
  apply Safe.each
  intro r
  exact safe_applyRequest h

theorem safe_executeRequest (h : n ≤ 5) : Safe Lock.rank n (executeRequest r) := by
  apply (safe_clientState h).comp
  apply (safe_guarded h).comp
  apply Safe.optional
  exact (safe_guarded h).comp (safe_requestTimer h)

theorem safe_collectCommitment (h : n ≤ 3) : Safe Lock.rank n (collectCommitment loops) := by
  refine Safe.locked ?_ h
  apply Safe.optional
  apply Safe.each
  intro r
  exact safe_executeRequest (show 4 ≤ 5 by omega)

theorem safe_processRequest (h : n ≤ 2) : Safe Lock.rank n (processRequest r) := by
  refine Safe.locked ?_ h
  apply (safe_clientState (show 3 ≤ 5 by omega)).comp
  apply safe_captureRequestSeq _ (Nat.le_refl 3)
  apply (safe_guarded (show 4 ≤ 5 by omega)).comp
  apply Safe.optional
  exact safe_applyRequest (Nat.le_refl 4)

theorem safe_applyPrepare : Safe Lock.rank 3 (applyPrepare r loops) := by
  apply (safe_prepareReq (show 3 ≤ 5 by omega)).comp
  apply Safe.optional
  apply (safe_collectCommitment (Nat.le_refl 3)).comp
  apply Safe.optional
  exact (safe_prepareTimer (show 3 ≤ 5 by omega)).comp (safe_generateCertified (by omega))

theorem safe_applyNewView : Safe Lock.rank 3 (applyNewView loops) := by
  apply Safe.comp
  · apply Safe.each
    intro r
    exact safe_prepareReq (show 3 ≤ 5 by omega)
  · apply (safe_collectCommitment (Nat.le_refl 3)).comp
    apply Safe.optional
    apply (safe_applyPendingReqs (show 3 ≤ 4 by omega)).comp
    exact (safe_generateCertified (show 3 ≤ 4 by omega)).optional

theorem safe_processNewViewCert (h : n ≤ 2) : Safe Lock.rank n processNewViewCert := by
  refine Safe.locked ?_ h
  apply Safe.optional
  exact (safe_guarded (show 3 ≤ 5 by omega)).comp (safe_generateCertified (show 3 ≤ 4 by omega))

theorem safe_processNext (h : n ≤ 1) (m : CertifiedMessage) :
    Safe Lock.rank n (processNext loops m) := by
  have hview : n ≤ 2 := by omega
  cases m with
  | prepare m => exact safe_applyPrepare.optional.locked hview
  | commit m => exact (safe_collectCommitment (Nat.le_refl 3)).optional.locked hview
  | newView m => exact safe_applyNewView.optional.locked hview
  | viewChange m => exact (safe_processNewViewCert (Nat.le_refl 2)).optional.locked h

theorem safe_startViewChange (h : n ≤ 2) : Safe Lock.rank n (startViewChange loops) := by
  refine Safe.locked ?_ h
  apply Safe.optional
  apply (safe_guardedRead (show 3 ≤ 5 by omega)).comp
  apply (safe_guarded (show 3 ≤ 5 by omega)).comp
  apply (safe_unprepareReqs (show 3 ≤ 5 by omega)).comp
  exact safe_generateCertified (show 3 ≤ 4 by omega)

theorem safe_processMessage (m : Message) : Safe Lock.rank 0 (processMessage loops m) := by
  cases m with
  | request m => exact safe_processRequest (by omega)
  | certified m => exact (safe_processNext (Nat.le_refl 1) m).optional.locked (Nat.le_refl 0)
  | reqViewChange m =>
      refine Safe.locked ?_ (Nat.le_refl 0)
      refine Safe.locked ?_ (Nat.le_refl 1)
      exact (safe_startViewChange (Nat.le_refl 2)).optional
  | hello m => exact Safe.id
  | reply m => exact Safe.id

theorem safe_requestViewChange : Safe Lock.rank 0 requestViewChange := by
  refine Safe.locked ?_ (show 0 ≤ 1 by omega)
  apply Safe.optional
  refine Safe.locked ?_ (Nat.le_refl 2)
  exact (safe_guarded (show 3 ≤ 5 by omega)).optional

end Handlers

/-! ## Goroutines -/

open Handlers

inductive Goroutine where
  /-- Messages from a peer, from a client or from the log, with what is embedded in them. -/
  | stream (messages : List (Message × Loops))
  /-- The callback of a request timer or of the view-change timer. -/
  | timeout
  /-- The callback of a prepare timer. -/
  | forward (primary : UInt32)
  /-- A request has been executed. -/
  | reply (clientID : UInt32)
  /-- The goroutine of `ReplyChannel`, which looks for the Reply a number of times. -/
  | replyChannel (clientID : UInt32) (rounds : ℕ)
  /-- `supplyMessages` for the log, or for the unicast log of a peer. -/
  | supply (peer : Option UInt32) (rounds : ℕ)
  /-- The timers of all clients are stopped. -/
  | stop (clientIDs : List UInt32)

namespace Goroutine

def code : Goroutine → Code Lock
  | .stream messages => each messages fun x => processMessage x.2 x.1
  | .timeout => requestViewChange
  | .forward primary => guarded (.unicastLog primary)
  | .reply clientID => generateReply clientID
  | .replyChannel clientID rounds =>
      clientState ∘ each (List.range rounds) fun _ => guardedRead (.replyState clientID)
  | .supply none rounds => guardedRead .log ∘ each (List.range rounds) fun _ => guardedRead .log
  | .supply (some peer) rounds => guardedRead (.unicastLog peer) ∘
      each (List.range rounds) fun _ => guardedRead (.unicastLog peer)
  | .stop clientIDs => clientState ∘ each clientIDs fun id =>
      clientState ∘ guarded (.requestTimer id) ∘ guarded (.prepareTimer id)

def start (gs : List Goroutine) : List (Locking.Thread Lock) := gs.map fun g => ⟨g.code .done, []⟩

theorem safe_code (g : Goroutine) : Safe Lock.rank 0 g.code := by
  have hleaf : 0 ≤ 5 := by omega
  cases g with
  | stream messages =>
      apply Safe.each
      intro x
      exact safe_processMessage x.1
  | timeout => exact safe_requestViewChange
  | forward primary => exact safe_guarded hleaf
  | reply clientID => exact (safe_clientState hleaf).comp (safe_guarded hleaf)
  | replyChannel clientID rounds =>
      apply (safe_clientState hleaf).comp
      exact Safe.each fun _ => safe_guardedRead hleaf
  | supply peer rounds =>
      cases peer with
      | none => exact (safe_guardedRead hleaf).comp (Safe.each fun _ => safe_guardedRead hleaf)
      | some peer => exact (safe_guardedRead hleaf).comp (Safe.each fun _ => safe_guardedRead hleaf)
  | stop clientIDs =>
      apply (safe_clientState hleaf).comp
      apply Safe.each
      intro id
      apply (safe_clientState hleaf).comp
      exact (safe_guarded hleaf).comp (safe_guarded hleaf)

theorem ordered_start (gs : List Goroutine) :
    ∀ t ∈ start gs, Ordered Lock.rank t.held t.prog := by
  intro t ht
  obtain ⟨g, -, rfl⟩ := List.mem_map.mp ht
  apply g.safe_code
  · exact fun x hx => absurd hx List.not_mem_nil
  · rfl

/-- The goroutines of a replica, as many as there may be, never block each other: whatever they have
done so far, they have all returned and released all locks, or some goroutine can go on. There is a
bound on what they do altogether. -/
theorem never_deadlock {gs : List Goroutine} {n : ℕ} {ts : List (Locking.Thread Lock)}
    (h : Run (start gs) n ts) :
    n ≤ work (start gs) ∧
      ((∀ t ∈ ts, t.prog = .done ∧ t.held = []) ∨ ∃ t ∈ ts, ∃ t', Move ts t t') := by
  have hord := h.ordered (ordered_start gs)
  refine ⟨(Nat.le_add_right _ _).trans h.le_work, ?_⟩
  by_cases hdone : ∀ t ∈ ts, t.prog = .done
  · left
    intro t ht
    exact ⟨hdone t ht, (hord t ht).held_of_done (hdone t ht)⟩
  · right
    obtain ⟨t, ht, hne⟩ := not_forall₂.mp hdone
    exact exists_move hord ⟨t, ht, hne⟩

end Goroutine

namespace Concrete

open Goroutine

def requesting : Prog Lock :=
  Code.optional (Code.locked .view .shared (Code.optional Handlers.generateReqViewChange))
    (.unlock .requested .exclusive .done)

def bothExpired : List (Locking.Thread Lock) :=
  [⟨.lock .requested .exclusive requesting, []⟩, ⟨.lock .requested .exclusive requesting, []⟩]

def oneAnnounced : List (Locking.Thread Lock) :=
  [⟨.pending .requested requesting, []⟩, ⟨.lock .requested .exclusive requesting, []⟩]

def oneWaiting : List (Locking.Thread Lock) :=
  [⟨requesting, [(.requested, .exclusive)]⟩, ⟨.lock .requested .exclusive requesting, []⟩]

theorem never_deadlock_of_oneWaiting : Run (start [.timeout, .timeout]) 2 oneWaiting ∧
    (∃ t ∈ oneWaiting, ∀ t', ¬ Move oneWaiting t t') ∧
      ∃ t ∈ oneWaiting, ∃ t', Move oneWaiting t t' := by
  have hwriting : ¬ Writing bothExpired .requested := by
    rintro ⟨t, ht, hwriting⟩
    simp only [bothExpired, List.mem_cons, List.not_mem_nil, or_false, or_self] at ht
    subst ht
    simp at hwriting
  have hheld : ¬ Held oneAnnounced .requested := by
    rintro ⟨t, ht, m, hm⟩
    simp only [oneAnnounced, List.mem_cons, List.not_mem_nil, or_false] at ht
    rcases ht with rfl | rfl <;> cases hm
  have hannounced : Run (start [.timeout, .timeout]) 1 oneAnnounced :=
    .step (i := 0) (show Run _ 0 bothExpired from .start) rfl (.inl (.announce hwriting))
  have hrun : Run (start [.timeout, .timeout]) 2 oneWaiting :=
    .step (i := 0) hannounced rfl (.inl (.exclusive hheld))
  refine ⟨hrun, ⟨⟨.lock .requested .exclusive requesting, []⟩, by simp [oneWaiting], ?_⟩, ?_⟩
  · intro t' hmove
    cases hmove with
    | announce hfree => exact hfree ⟨_, List.mem_cons_self, .inl List.mem_cons_self⟩
  · apply (never_deadlock hrun).2.resolve_left
    intro hdone
    have hprog := (hdone ⟨.lock .requested .exclusive requesting, []⟩ (by simp [oneWaiting])).1
    cases hprog

end Concrete

end MinBFT
