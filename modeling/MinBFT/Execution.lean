import MinBFT.Commitments
import MinBFT.Requests

/-!
# Taking commitments into account

`collectCommitment` accepts and counts a commitment and, once enough replicas have committed to a
proposal, executes the request of a Prepare or the requests a NewView propagates. It works on the
request and commitment state only.
-/

namespace MinBFT

structure Execution where
  requests : Requests
  commitments : Commitments

namespace Execution

abbrev Action := EStateM Fault Execution

def init (commitCertSize : UInt32) : Execution := ⟨.init, .init commitCertSize⟩

def onRequests {α : Type} (x : Requests.Action α) : Action α := fun s =>
  match x s.requests with
  | .ok a requests => .ok a { s with requests }
  | .error e requests => .error e { s with requests }

def extractPrepared (cert : List ViewChange) : Action (List Request) :=
  match extractPreparedRequests cert with
  | none => throw (.panic .unexpectedLogEntry)
  | some prepared => pure prepared

def acceptNewView (nv : NewView) : Action Unit := do
  let prepared ← extractPrepared nv.newViewCert
  onRequests (Requests.executeAll prepared)

/-- The acceptor and the counter, one after the other; the result tells if the threshold has been
reached. -/
def takeCommitment (msg : CertifiedMessage) (isNewView : Bool) (view : UInt64) : Action Bool := do
  let s ← get
  match s.commitments.acceptCommitment msg.replicaID isNewView view msg.proposed.counter
      msg.counter with
  | .error e => throw (.error (.cannotAcceptCommitment e))
  | .ok c =>
      let (done, c) := { c with accepted := c.accepted ++ [msg] }.countCommitment view
        msg.proposed.counter
      set { s with commitments :=
        if done then { c with completed := c.completed ++ [msg.proposed] } else c }
      return done

def collectCommitment (msg : CertifiedMessage) : Action Unit := do
  if msg.kind = .viewChange then throw (.error .unexpectedCommitmentType)
  match msg.proposed with
  | .prepare prop =>
      if ← takeCommitment msg false prop.view then
        onRequests (Requests.executeRequest prop.request)
  | .newView prop =>
      if ← takeCommitment msg true prop.newView then
        acceptNewView prop
  | _ => throw (.error .unexpectedCommitmentProposal)

/-- `applyPrepare` up to the point where the Prepare has been taken into account. -/
def takePrepare (prepare : Prepare) : Action Unit := do
  if !(← onRequests (Requests.prepareReq prepare.request)) then
    throw (.error .requestAlreadyPrepared)
  (collectCommitment (.prepare prepare)).adaptExcept (Fault.wrap .prepareNotTaken)

def takeCommit (commit : Commit) : Action Unit :=
  (collectCommitment (.commit commit)).adaptExcept (Fault.wrap .commitNotTaken)

def takeNewView (nv : NewView) : Action Unit := do
  let prepared ← extractPrepared nv.newViewCert
  onRequests (Requests.prepareAll prepared)
  (collectCommitment (.newView nv)).adaptExcept (Fault.wrap .newViewNotTaken)

end Execution

end MinBFT
