import MinBFT.Collectors
import MinBFT.Execution

/-!
# Message processing of one replica

The state shared by the handlers that `defaultMessageHandlers` wires together, and the processors
and appliers themselves. A handler runs in `EStateM`: it keeps the state changes made before it
fails. Each call of `processMessage` runs under locks that make it atomic with respect to the other
calls; what runs in between is the subject of `MinBFT.Node`.

The last fields of the state record history. No handler reads them.
-/

namespace MinBFT

/-- A call of `applyPeerMessage` together with the view numbers held during the call. -/
structure Application where
  message : CertifiedMessage
  currentView : UInt64
  expectedView : UInt64

structure Replica where
  currentView : UInt64
  expectedView : UInt64
  /-- The counter of the last message processed from each replica. -/
  lastUI : UInt32 → UInt64
  execution : Execution
  reqViewChanges : ReqViewChangeCollector
  viewChanges : ViewChangeCollector
  /-- The view last requested on a timeout. -/
  requested : UInt64
  output : Output
  /-- The messages whose handling has returned without error. -/
  handled : List Message
  /-- The certified messages that have advanced `lastUI`. -/
  processed : List CertifiedMessage
  attempted : List Application
  /-- The messages for which `applyPeerMessage` has returned without error. -/
  applied : List CertifiedMessage

abbrev Handler := EStateM Fault Replica

namespace Replica

variable (p : Params)

def init : Replica where
  currentView := 0
  expectedView := 0
  lastUI := fun _ => 0
  execution := .init p.config.commitCertSize
  reqViewChanges := .init
  viewChanges := .init
  requested := 0
  output := .init
  handled := []
  processed := []
  attempted := []
  applied := []

def setRequests (requests : Requests) (s : Replica) : Replica :=
  { s with execution := { s.execution with requests } }

def generate (mk : UI → CertifiedMessage) (s : Replica) : Replica :=
  { s with output := s.output.generate p mk }

def onExecution {α : Type} (x : Execution.Action α) : Handler α := fun s =>
  match x s.execution with
  | .ok a execution => .ok a { s with execution }
  | .error e execution => .error e { s with execution }

def processRequest (request : Request) : Handler Bool := do
  let s ← get
  match s.execution.requests.captureReq request with
  | none => return false
  | some requests =>
      let s := s.setRequests requests
      if s.currentView ≠ s.expectedView then
        set s
        return true
      set { s with output := s.output.applyRequest p s.currentView request }
      return true

def applyPrepare (prepare : Prepare) : Handler Unit := do
  onExecution (Execution.takePrepare prepare)
  if p.id = prepare.replicaID then return
  modify (generate p fun ui => .commit ⟨p.id, .prepare prepare, ui⟩)

def applyCommit (commit : Commit) : Handler Unit := onExecution (Execution.takeCommit commit)

def applyNewView (order : List Request) (nv : NewView) : Handler Unit := do
  onExecution (Execution.takeNewView nv)
  modify fun s => { s with output :=
    s.output.applyPendingRequests p s.execution.requests.pendingReqs order nv.newView }
  if p.id = nv.replicaID then return
  modify (generate p fun ui => .commit ⟨p.id, .newView nv, ui⟩)

def applyPeerMessage (order : List Request) (msg : CertifiedMessage) : Handler Unit := do
  modify fun s => { s with
    attempted := s.attempted ++ [⟨msg, s.currentView, s.expectedView⟩] }
  match msg with
  | .prepare m => applyPrepare p m
  | .commit m => applyCommit m
  | .newView m => applyNewView p order m
  | .viewChange _ => throw (.panic .unknownMessageType)
  modify fun s => { s with applied := s.applied ++ [msg] }

/-- `processViewMessage`. Prepares and Commits must not be ahead of the current view; a NewView
moves the current view forward or is dropped. -/
def processViewMessage (order : List Request) (msg : CertifiedMessage) : Handler Bool := do
  let s ← get
  match msg.messageView with
  | none => throw (.panic .unknownMessageType)
  | some messageView =>
      if msg.kind = .newView then
        if messageView ≤ s.currentView then return false
        set { s with currentView := messageView }
      else if messageView > s.currentView then
        throw (.error .unexpectedView)
      if messageView ≠ s.expectedView then return false
      (applyPeerMessage p order msg).adaptExcept (Fault.wrap .failedToApply)
      return true

def processNewViewCert (newView : UInt64) (cert : List ViewChange) (s : Replica) : Replica :=
  if newView ≠ s.expectedView then s
  else { s with output := s.output.resetLog }.generate p fun ui =>
    .newView ⟨p.id, newView, cert, ui⟩

def processViewChange (vc : ViewChange) : Handler Bool := do
  let s ← get
  let (new, cert, viewChanges) := s.viewChanges.collect p vc
  match cert with
  | none => set { s with viewChanges }
  | some cert => set ({ s with viewChanges }.processNewViewCert p vc.newView cert)
  return new

def processCertifiedMessage (order : List Request) (msg : CertifiedMessage) : Handler Bool := do
  let nextUI := (← get).lastUI msg.replicaID + 1
  if msg.counter < nextUI then return false
  if msg.counter > nextUI then throw (.error .unexpectedUICounter)
  let new ← match msg with
    | .viewChange vc => processViewChange p vc
    | _ => processViewMessage p order msg
  modify fun s => { s with
    lastUI := Function.update s.lastUI msg.replicaID nextUI
    processed := s.processed ++ [msg] }
  return new

def startViewChange (newView : UInt64) (cert : List ReqViewChange) (s : Replica) :
    Bool × Replica :=
  if s.expectedView < newView then
    let msgs := Output.certified s.output.log
    let s := { s with expectedView := newView, output := s.output.resetLog.startTimer newView }
    (true, (s.setRequests s.execution.requests.unprepareReqs).generate p fun ui =>
      .viewChange ⟨p.id, newView, msgs, cert, ui⟩)
  else (false, s)

def processReqViewChange (rvc : ReqViewChange) : Handler Bool := do
  let s ← get
  let (new, cert, reqViewChanges) :=
    s.reqViewChanges.collect p.config.viewChangeCertSize.toNat rvc
  match cert with
  | none =>
      set { s with reqViewChanges }
      return new
  | some cert =>
      let (ok, s) := { s with reqViewChanges }.startViewChange p rvc.newView cert
      set s
      return ok

def processMessage (order : List Request) (msg : Message) : Handler Bool := do
  let new ← match msg with
    | .request m => processRequest p m
    | .certified m => processCertifiedMessage p order m
    | .reqViewChange m => processReqViewChange p m
    | .hello _ => throw (.panic .unknownMessageType)
    | .reply _ => throw (.panic .unknownMessageType)
  modify fun s => { s with handled := s.handled ++ [msg] }
  return new

/-- `requestViewChange`, called for the view after the one whose timer has expired. -/
def requestViewChange (newView : UInt64) (s : Replica) : Replica :=
  if s.requested ≥ newView then s
  else if s.expectedView ≥ newView then { s with requested := newView }
  else { s with requested := newView, output := s.output.generateReqViewChange p newView }

end Replica

end MinBFT
