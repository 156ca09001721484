import MinBFT.Messages
import MinBFT.Lib.BigEndian

/-!
# Decoding messages

Package `messages/protobuf`: `NewFromBinary` unmarshals a `pb.Message` and turns it into a protocol
message, which keeps the `pb` structure and next to it what is embedded, decoded in the same way.

`proto.Unmarshal` is outside the repository. Sub-messages absent from the input are nil pointers in
its result, which are `none` here; elements of repeated fields are never nil. A nil pointer that the
code dereferences is the fault `nilPointer`.
-/

namespace MinBFT

/-! ## Structures generated for `messages.proto` -/

namespace Pb

structure Hello where
  replicaId : UInt32
deriving DecidableEq

structure Request where
  clientId : UInt32
  seq : UInt64
  operation : Bytes
  signature : Bytes
deriving DecidableEq

structure Reply where
  replicaId : UInt32
  clientId : UInt32
  seq : UInt64
  result : Bytes
  signature : Bytes
deriving DecidableEq

structure Prepare where
  replicaId : UInt32
  view : UInt64
  request : Option Request
  ui : Bytes
deriving DecidableEq

structure ReqViewChange where
  replicaId : UInt32
  newView : UInt64
  signature : Bytes
deriving DecidableEq

mutual

/-- The `oneof` of a message; `unset` if it is absent or of an unknown type. -/
inductive Message where
  | unset
  | hello (m : Hello)
  | request (m : Request)
  | reply (m : Reply)
  | prepare (m : Prepare)
  | commit (m : Commit)
  | reqViewChange (m : ReqViewChange)
  | viewChange (m : ViewChange)
  | newView (m : NewView)

structure Commit where
  replicaId : UInt32
  proposal : Option Message
  ui : Bytes

structure ViewChange where
  replicaId : UInt32
  newView : UInt64
  log : List Message
  vcCert : List ReqViewChange
  ui : Bytes

structure NewView where
  replicaId : UInt32
  newView : UInt64
  nvCert : List ViewChange
  ui : Bytes

end

end Pb

inductive WireError where
  | unmarshal
  | unknownMessageType
  | unexpectedMessageType
  | unexpectedProposalType
  | shortUI
  | embeddedProposal (e : WireError)
  | invalidUI (e : WireError)
  | messageLog (e : WireError)
  | newViewCert (e : WireError)

inductive WireFault where
  | nilPointer
  | error (e : WireError)

def WireFault.wrap (f : WireError → WireError) : WireFault → WireFault
  | .nilPointer => .nilPointer
  | .error e => .error (f e)

def UI.unmarshalBinary (data : Bytes) : Except WireFault UI :=
  match BigEndian.readUint64 data with
  | none => .error (.error .shortUI)
  | some (counter, cert) => .ok ⟨counter, cert⟩

/-! ## Messages implemented by `pb` structures -/

namespace Protobuf

structure Hello where
  pbMsg : Pb.Hello

/-- The `pb` structure of a Request embedded in a Prepare may be nil. -/
structure Request where
  pbMsg : Option Pb.Request

structure Reply where
  pbMsg : Pb.Reply

structure ReqViewChange where
  pbMsg : Pb.ReqViewChange

structure Prepare where
  pbMsg : Pb.Prepare
  req : Request
  ui : UI

mutual

inductive CertifiedMessage where
  | prepare (m : Prepare)
  | commit (m : Commit)
  | viewChange (m : ViewChange)
  | newView (m : NewView)

structure Commit where
  pbMsg : Pb.Commit
  prop : CertifiedMessage
  ui : UI

structure ViewChange where
  pbMsg : Pb.ViewChange
  log : List CertifiedMessage
  vcCert : List ReqViewChange
  ui : UI

structure NewView where
  pbMsg : Pb.NewView
  nvCert : List ViewChange
  ui : UI

end

inductive Message where
  | hello (m : Hello)
  | request (m : Request)
  | reply (m : Reply)
  | reqViewChange (m : ReqViewChange)
  | certified (m : CertifiedMessage)

/-! ## Decoding -/

def uiFromPb (ui : Bytes) : Except WireFault UI :=
  (UI.unmarshalBinary ui).mapError (WireFault.wrap .invalidUI)

def newRequestFromPb (pbMsg : Option Pb.Request) : Request := ⟨pbMsg⟩

def newPrepareFromPb (pbMsg : Pb.Prepare) : Except WireFault Prepare := do
  let req := newRequestFromPb pbMsg.request
  let ui ← uiFromPb pbMsg.ui
  return ⟨pbMsg, req, ui⟩

def viewChangeCertFromPb (pbCert : List Pb.ReqViewChange) : List ReqViewChange := pbCert.map .mk

def asCertified (e : WireError) : Message → Except WireFault CertifiedMessage
  | .certified m => .ok m
  | _ => .error (.error e)

mutual

def typedMessageFromPb : Pb.Message → Except WireFault Message
  | .unset => .error (.error .unknownMessageType)
  | .hello m => .ok (.hello ⟨m⟩)
  | .request m => .ok (.request (newRequestFromPb (some m)))
  | .reply m => .ok (.reply ⟨m⟩)
  | .prepare m => (newPrepareFromPb m).map (.certified ∘ .prepare)
  | .commit m => (newCommitFromPb m).map (.certified ∘ .commit)
  | .reqViewChange m => .ok (.reqViewChange ⟨m⟩)
  | .viewChange m => (newViewChangeFromPb m).map (.certified ∘ .viewChange)
  | .newView m => (newNewViewFromPb m).map (.certified ∘ .newView)

/-- `typedMessageFromPb` on a pointer, whose field it reads first of all. -/
def proposalFromPb : Option Pb.Message → Except WireFault Message
  | none => .error .nilPointer
  | some m => typedMessageFromPb m

def newCommitFromPb : Pb.Commit → Except WireFault Commit
  | ⟨replicaId, proposal, uiBytes⟩ => do
      let m ← (proposalFromPb proposal).mapError (WireFault.wrap .embeddedProposal)
      let prop ← asCertified .unexpectedProposalType m
      let ui ← uiFromPb uiBytes
      return ⟨⟨replicaId, proposal, uiBytes⟩, prop, ui⟩

def messageLogFromPb : List Pb.Message → Except WireFault (List CertifiedMessage)
  | [] => .ok []
  | pbMsg :: pbLog => do
      let typedMsg ← typedMessageFromPb pbMsg
      let m ← asCertified .unexpectedMessageType typedMsg
      let log ← messageLogFromPb pbLog
      return m :: log

def newViewChangeFromPb : Pb.ViewChange → Except WireFault ViewChange
  | ⟨replicaId, newView, pbLog, pbCert, uiBytes⟩ => do
      let ui ← uiFromPb uiBytes
      let log ← (messageLogFromPb pbLog).mapError (WireFault.wrap .messageLog)
      return ⟨⟨replicaId, newView, pbLog, pbCert, uiBytes⟩, log, viewChangeCertFromPb pbCert, ui⟩

def newViewCertFromPb : List Pb.ViewChange → Except WireFault (List ViewChange)
  | [] => .ok []
  | m :: pbCert => do
      let vc ← newViewChangeFromPb m
      let cert ← newViewCertFromPb pbCert
      return vc :: cert

def newNewViewFromPb : Pb.NewView → Except WireFault NewView
  | ⟨replicaId, newView, pbCert, uiBytes⟩ => do
      let ui ← uiFromPb uiBytes
      let nvCert ← (newViewCertFromPb pbCert).mapError (WireFault.wrap .newViewCert)
      return ⟨⟨replicaId, newView, pbCert, uiBytes⟩, nvCert, ui⟩

end

def newFromBinary (unmarshal : Bytes → Option Pb.Message) (data : Bytes) :
    Except WireFault Message :=
  match unmarshal data with
  | none => .error (.error .unmarshal)
  | some pbMsg => typedMessageFromPb pbMsg

/-! ## Accessors

The generated getters return the zero value on a nil pointer; only `Signature` reads the field
directly. `read` calls all accessors of a message and of the messages they return. -/

namespace Request

def clientID (m : Request) : UInt32 := m.pbMsg.elim 0 Pb.Request.clientId

def sequence (m : Request) : UInt64 := m.pbMsg.elim 0 Pb.Request.seq

def operation (m : Request) : Bytes := m.pbMsg.elim [] Pb.Request.operation

def signature (m : Request) : Except WireFault Bytes :=
  match m.pbMsg with
  | none => .error .nilPointer
  | some pbMsg => .ok pbMsg.signature

def read (m : Request) : Except WireFault MinBFT.Request := do
  let signature ← m.signature
  return ⟨m.clientID, m.sequence, m.operation, signature⟩

end Request

def Hello.read (m : Hello) : MinBFT.Hello := ⟨m.pbMsg.replicaId⟩

def Reply.read (m : Reply) : MinBFT.Reply :=
  ⟨m.pbMsg.replicaId, m.pbMsg.clientId, m.pbMsg.seq, m.pbMsg.result, m.pbMsg.signature⟩

def ReqViewChange.read (m : ReqViewChange) : MinBFT.ReqViewChange :=
  ⟨m.pbMsg.replicaId, m.pbMsg.newView, m.pbMsg.signature⟩

def Prepare.read (m : Prepare) : Except WireFault MinBFT.Prepare := do
  let request ← m.req.read
  return ⟨m.pbMsg.replicaId, m.pbMsg.view, request, m.ui⟩

mutual

def CertifiedMessage.read : CertifiedMessage → Except WireFault MinBFT.CertifiedMessage
  | .prepare m => m.read.map .prepare
  | .commit m => m.read.map .commit
  | .viewChange m => m.read.map .viewChange
  | .newView m => m.read.map .newView

def Commit.read : Commit → Except WireFault MinBFT.Commit
  | ⟨pbMsg, prop, ui⟩ => do
      let proposal ← prop.read
      return ⟨pbMsg.replicaId, proposal, ui⟩

def readLog : List CertifiedMessage → Except WireFault (List MinBFT.CertifiedMessage)
  | [] => .ok []
  | m :: log => do
      let first ← m.read
      let rest ← readLog log
      return first :: rest

def ViewChange.read : ViewChange → Except WireFault MinBFT.ViewChange
  | ⟨pbMsg, log, vcCert, ui⟩ => do
      let messageLog ← readLog log
      return ⟨pbMsg.replicaId, pbMsg.newView, messageLog, vcCert.map ReqViewChange.read, ui⟩

def readCert : List ViewChange → Except WireFault (List MinBFT.ViewChange)
  | [] => .ok []
  | m :: cert => do
      let first ← m.read
      let rest ← readCert cert
      return first :: rest

def NewView.read : NewView → Except WireFault MinBFT.NewView
  | ⟨pbMsg, nvCert, ui⟩ => do
      let newViewCert ← readCert nvCert
      return ⟨pbMsg.replicaId, pbMsg.newView, newViewCert, ui⟩

end

def Message.read : Message → Except WireFault MinBFT.Message
  | .hello m => .ok (.hello m.read)
  | .request m => m.read.map .request
  | .reply m => .ok (.reply m.read)
  | .reqViewChange m => .ok (.reqViewChange m.read)
  | .certified m => m.read.map .certified

end Protobuf

end MinBFT
