import MinBFT.Authen
import MinBFT.Faults

/-!
# Message validation

`validateMessage` and the validators below it check a message for internal consistency and
authenticity. They read nothing of the replica's state and do not descend into embedded messages:
those are validated when they are handled on their own.

SHA-256 and the authenticator are outside the repository and enter as `Crypto`.
-/

namespace MinBFT

open BigEndian

inductive AuthenticationRole where
  | replicaAuthen
  | usigAuthen
  | clientAuthen
deriving DecidableEq, Repr

/-- The hash function and the authenticator a replica is built with. `usigCert id cv b` is the
certificate the USIG of replica `id` returns for the authenticated bytes `b` and counter `cv`. -/
structure Crypto where
  sha256 : Bytes → Bytes
  verifyMessageAuthenTag : AuthenticationRole → UInt32 → Bytes → Bytes → Bool
  usigCert : UInt32 → UInt64 → Bytes → Bytes
  replicaSignature : UInt32 → Bytes → Bytes

structure Config where
  n : UInt32
  f : UInt32

def Config.commitCertSize (c : Config) : UInt32 := c.n - c.f

def Config.viewChangeCertSize (c : Config) : UInt32 := c.n - c.commitCertSize + 1

def isPrimary (view : UInt64) (id n : UInt32) : Bool := id.toUInt64 == view % n.toUInt64

def UI.marshalBinary (ui : UI) : Bytes := uint64 ui.counter ++ ui.cert

def check (ok : Bool) (e : Error) : Except Fault Unit :=
  if ok then .ok () else .error (.error e)

@[simp] theorem check_eq_ok {ok : Bool} {e : Error} : check ok e = .ok () ↔ ok = true := by
  cases ok <;> simp [check]

section Validators

variable (crypto : Crypto) (config : Config)

def CertifiedMessage.uiAccepted (m : CertifiedMessage) : Bool :=
  crypto.verifyMessageAuthenTag .usigAuthen m.replicaID (m.authenBytes crypto.sha256)
    m.ui.marshalBinary

def verifyUI (m : CertifiedMessage) : Except Fault Unit := do
  check (m.counter != 0) .zeroCounter
  check (m.uiAccepted crypto) .usigCertificate

def validateRequest (m : Request) : Except Fault Unit :=
  check (crypto.verifyMessageAuthenTag .clientAuthen m.clientID (m.authenBytes crypto.sha256)
    m.signature) .signature

def validatePrepare (m : Prepare) : Except Fault Unit :=
  check (isPrimary m.view m.replicaID config.n) (.prepareFromBackup m.replicaID m.view)

def validateCommit (m : Commit) : Except Fault Unit := do
  check (m.replicaID != m.proposal.replicaID) .commitFromPrimary
  match m.proposal with
  | .prepare _ => .ok ()
  | .newView _ => .ok ()
  | _ => .error (.panic .unexpectedProposalType)

def validateReqViewChange (m : ReqViewChange) : Except Fault Unit := do
  check (1 ≤ m.newView) .invalidNewViewNumber
  check (crypto.verifyMessageAuthenTag .replicaAuthen m.replicaID m.authenBytes m.signature)
    (.invalidSignature .signature)

/-- The loop shared by both certificate validators: every member is for the new view and no two
come from one replica. The result lists the replicas seen. -/
def certReplicas {α : Type} (replicaID : α → UInt32) (newViewOf : α → UInt64)
    (message : α → Message) (newView : UInt64) (seen : List UInt32) :
    List α → Except Fault (List UInt32)
  | [] => .ok seen
  | m :: cert => do
      check (newViewOf m == newView) (.newViewNumberMismatch (message m))
      check (!seen.contains (replicaID m)) (.duplicate (message m))
      certReplicas replicaID newViewOf message newView (replicaID m :: seen) cert

def validateViewChangeCert (newView : UInt64) (cert : List ReqViewChange) :
    Except Fault Unit := do
  check (config.viewChangeCertSize.toNat ≤ cert.length) .insufficientQuorum
  let _ ← certReplicas (·.replicaID) (·.newView) .reqViewChange newView [] cert

def validateNewViewCert (newPrimary : UInt32) (newView : UInt64) (cert : List ViewChange) :
    Except Fault Unit := do
  check (config.viewChangeCertSize.toNat ≤ cert.length) .insufficientQuorum
  let q ← certReplicas (·.replicaID) (·.newView) (fun vc => .certified (.viewChange vc))
    newView [] cert
  check (q.contains newPrimary) .missingNewPrimary

def CertifiedMessage.startsView : CertifiedMessage → Option UInt64
  | .viewChange m => some m.newView
  | .newView m => some m.newView
  | _ => none

/-- The loop of `validateMessageLog`, which runs from the last message to the first. -/
def validateLogBackwards (replicaID : UInt32) (view : UInt64) :
    List CertifiedMessage → UInt64 → Except Fault Unit
  | [], _ => .ok ()
  | m :: before, nextCV => do
      check (m.replicaID == replicaID) (.foreignMessage m)
      check (m.counter + 1 == nextCV) (.unexpectedUIAfter m)
      match m.startsView with
      | some msgView =>
          check (msgView == view) (.logForUnexpectedView msgView)
          check before.isEmpty (.unexpectedMessageBefore m)
      | none =>
          check (!(before.isEmpty && (view > 0 || nextCV - 1 != 1))) (.missingMessageBefore m)
      validateLogBackwards replicaID view before (nextCV - 1)

def validateMessageLog (replicaID : UInt32) (view : UInt64) (log : List CertifiedMessage)
    (nextCV : UInt64) : Except Fault Unit := do
  check (!(log.isEmpty && (view > 0 || nextCV != 1))) .incompleteLog
  validateLogBackwards replicaID view log.reverse nextCV

def validateViewChange (m : ViewChange) : Except Fault Unit := do
  check (1 ≤ m.newView) .invalidNewViewNumber
  (validateViewChangeCert config m.newView m.viewChangeCert).mapError
    (Fault.wrap .invalidViewChangeCert)
  (validateMessageLog m.replicaID (m.newView - 1) m.messageLog m.ui.counter).mapError
    (Fault.wrap .invalidMessageLog)

def validateNewView (m : NewView) : Except Fault Unit := do
  check (1 ≤ m.newView) .invalidNewViewNumber
  check (isPrimary m.newView m.replicaID config.n) .newViewFromBackup
  (validateNewViewCert config m.replicaID m.newView m.newViewCert).mapError
    (Fault.wrap .invalidNewViewCert)

def validateCertifiedMessage (m : CertifiedMessage) : Except Fault Unit := do
  (verifyUI crypto m).mapError (Fault.wrap .invalidUI)
  match m with
  | .prepare m => validatePrepare config m
  | .commit m => validateCommit m
  | .viewChange m => validateViewChange config m
  | .newView m => validateNewView config m

/-- `validateMessage`, with `validatePeerMessage` for everything but a Request. A Hello is a peer
message but neither certified nor a ReqViewChange; a Reply is no peer message at all. -/
def validateMessage : Message → Except Fault Unit
  | .request m => validateRequest crypto m
  | .reply _ => .error (.panic .unknownMessageType)
  | .hello m => do
      check (m.replicaID < config.n) .unexpectedReplicaID
      .error (.panic .unknownMessageType)
  | .certified m => do
      check (m.replicaID < config.n) .unexpectedReplicaID
      validateCertifiedMessage crypto config m
  | .reqViewChange m => do
      check (m.replicaID < config.n) .unexpectedReplicaID
      validateReqViewChange crypto m

end Validators

end MinBFT
