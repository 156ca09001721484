import MinBFT.Messages

/-!
# Errors and panics

The ways a handler of package `core` can end early. An `Error` is returned to the caller, which
closes the connection the message came from. A `Panic` takes the whole replica down. Constructors
carry the arguments the source formats into the text, and errors wrap each other as in the source.
-/

namespace MinBFT

inductive Error where
  | unexpectedReplicaID
  | zeroCounter
  | usigCertificate
  | invalidUI (e : Error)
  | signature
  | invalidSignature (e : Error)
  | prepareFromBackup (replicaID : UInt32) (view : UInt64)
  | commitFromPrimary
  | invalidNewViewNumber
  | insufficientQuorum
  | newViewNumberMismatch (m : Message)
  | duplicate (m : Message)
  | missingNewPrimary
  | invalidViewChangeCert (e : Error)
  | invalidNewViewCert (e : Error)
  | newViewFromBackup
  | incompleteLog
  | foreignMessage (m : CertifiedMessage)
  | unexpectedUIAfter (m : CertifiedMessage)
  | logForUnexpectedView (view : UInt64)
  | unexpectedMessageBefore (m : CertifiedMessage)
  | missingMessageBefore (m : CertifiedMessage)
  | invalidMessageLog (e : Error)
  | unexpectedCommitmentType
  | unexpectedCommitmentProposal
  | unexpectedUICounter
  | unexpectedView
  | unexpectedViewNumber
  | nonSequentialPrimaryUI
  | nonSequentialReplicaUI
  | cannotAcceptCommitment (e : Error)
  | requestAlreadyPrepared
  | prepareNotTaken (e : Error)
  | commitNotTaken (e : Error)
  | newViewNotTaken (e : Error)
  | failedToApply (e : Error)
  | unexpectedMessageType
  | unexpectedPeerID
  | invalidRequest (e : Error)

inductive Panic where
  /-- A type switch without a case for the message, "Unknown message type". -/
  | unknownMessageType
  /-- A Commit to something else than a Prepare or a NewView. -/
  | unexpectedProposalType
  /-- A message log entry that is no proposal, in `extractPreparedRequests`. -/
  | unexpectedLogEntry
  /-- "Request ID not captured", from `PrepareRequestSeq`. -/
  | requestNotCaptured
  /-- "Request ID not prepared", from `RetireRequestSeq`. -/
  | requestNotPrepared
  /-- "error handling own message", from `handleOwnPeerMessages`. -/
  | ownMessage (e : Error)
  /-- An error of the authenticator, in `makeUIAssigner` and `makeMessageSigner`. -/
  | tagGeneration
  /-- A Reply that is nil, in `ReplyChannel`. -/
  | nilReply

/-- How a call ends when it does not return normally. -/
inductive Fault where
  | error (e : Error)
  | panic (p : Panic)

/-- Callers wrap an error and let a panic through. -/
def Fault.wrap (w : Error → Error) : Fault → Fault
  | .error e => .error (w e)
  | .panic p => .panic p

end MinBFT
