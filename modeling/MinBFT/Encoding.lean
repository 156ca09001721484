import MinBFT.Lib.Store
import MinBFT.Protobuf
import MinBFT.Validation

/-!
# Encoding messages

A message built by the constructors of `MessageImpl` is a Go object that keeps a `pb` structure next
to references to the messages embedded in it. The `pb` structure refers to those of the embedded
messages, so that setting a UI or a signature later shows in every message that embeds them.

`Object` is such an object together with its `pb` structure, and a store of objects is what a
program has built. `image` is the `pb` message that `MarshalBinary` marshals, and `content` what the
accessors return, called at every level. The two agree along every sequence of constructor calls,
`SetUI` and `SetSignature`, and a message decoded from the image has the same content.
-/

namespace MinBFT

/-! ## The `pb` structures of given contents -/

namespace Pb

def helloFromAPI (m : MinBFT.Hello) : Hello := ⟨m.replicaID⟩

def requestFromAPI (m : MinBFT.Request) : Request :=
  ⟨m.clientID, m.sequence, m.operation, m.signature⟩

def replyFromAPI (m : MinBFT.Reply) : Reply :=
  ⟨m.replicaID, m.clientID, m.sequence, m.result, m.signature⟩

def reqViewChangeFromAPI (m : MinBFT.ReqViewChange) : ReqViewChange :=
  ⟨m.replicaID, m.newView, m.signature⟩

def prepareFromAPI (m : MinBFT.Prepare) : Prepare :=
  ⟨m.replicaID, m.view, some (requestFromAPI m.request), m.ui.marshalBinary⟩

mutual

def certifiedFromAPI : CertifiedMessage → Message
  | .prepare m => .prepare (prepareFromAPI m)
  | .commit m => .commit (commitFromAPI m)
  | .viewChange m => .viewChange (viewChangeFromAPI m)
  | .newView m => .newView (newViewFromAPI m)

def commitFromAPI : MinBFT.Commit → Commit
  | ⟨replicaID, proposal, ui⟩ =>
      ⟨replicaID, some (certifiedFromAPI proposal), ui.marshalBinary⟩

def messageLogFromAPI : List CertifiedMessage → List Message
  | [] => []
  | m :: log => certifiedFromAPI m :: messageLogFromAPI log

def viewChangeFromAPI : MinBFT.ViewChange → ViewChange
  | ⟨replicaID, newView, messageLog, viewChangeCert, ui⟩ =>
      ⟨replicaID, newView, messageLogFromAPI messageLog,
        viewChangeCert.map reqViewChangeFromAPI, ui.marshalBinary⟩

def newViewCertFromAPI : List MinBFT.ViewChange → List ViewChange
  | [] => []
  | m :: cert => viewChangeFromAPI m :: newViewCertFromAPI cert

def newViewFromAPI : MinBFT.NewView → NewView
  | ⟨replicaID, newView, newViewCert, ui⟩ =>
      ⟨replicaID, newView, newViewCertFromAPI newViewCert, ui.marshalBinary⟩

end

def messageFromAPI : MinBFT.Message → Message
  | .hello m => .hello (helloFromAPI m)
  | .request m => .request (requestFromAPI m)
  | .reply m => .reply (replyFromAPI m)
  | .reqViewChange m => .reqViewChange (reqViewChangeFromAPI m)
  | .certified m => certifiedFromAPI m

def Message.asRequest : Message → Option Request
  | .request m => some m
  | _ => none

def Message.asReqViewChange : Message → Option ReqViewChange
  | .reqViewChange m => some m
  | _ => none

def Message.asViewChange : Message → Option ViewChange
  | .viewChange m => some m
  | _ => none

theorem messageLogFromAPI_eq_map (log : List CertifiedMessage) :
    messageLogFromAPI log = log.map certifiedFromAPI := by
  induction log with
  | nil => rfl
  | cons m log ih => rw [messageLogFromAPI, ih, List.map_cons]

theorem newViewCertFromAPI_eq_map (cert : List MinBFT.ViewChange) :
    newViewCertFromAPI cert = cert.map viewChangeFromAPI := by
  induction cert with
  | nil => rfl
  | cons m cert ih => rw [newViewCertFromAPI, ih, List.map_cons]

end Pb

namespace Message

def asRequest : Message → Option Request
  | .request m => some m
  | _ => none

def asReqViewChange : Message → Option ReqViewChange
  | .reqViewChange m => some m
  | _ => none

def asCertified : Message → Option CertifiedMessage
  | .certified m => some m
  | _ => none

def asViewChange : Message → Option ViewChange
  | .certified (.viewChange m) => some m
  | _ => none

end Message

theorem UI.unmarshalBinary_marshalBinary (ui : UI) :
    UI.unmarshalBinary ui.marshalBinary = .ok ui := by
  rw [UI.unmarshalBinary, UI.marshalBinary, BigEndian.readUint64_uint64]

namespace Protobuf

/-! ## Decoding what has given contents -/

@[simp] theorem uiFromPb_marshalBinary (ui : UI) : uiFromPb ui.marshalBinary = .ok ui := by
  rw [uiFromPb, UI.unmarshalBinary_marshalBinary]
  rfl

theorem read_viewChangeCertFromPb (cert : List MinBFT.ReqViewChange) :
    (viewChangeCertFromPb (cert.map Pb.reqViewChangeFromAPI)).map ReqViewChange.read = cert := by
  simp [viewChangeCertFromPb, Function.comp_def, ReqViewChange.read, Pb.reqViewChangeFromAPI]

mutual

theorem typedMessageFromPb_certified :
    ∀ m : MinBFT.CertifiedMessage, ∃ d : CertifiedMessage,
      typedMessageFromPb (Pb.certifiedFromAPI m) = .ok (.certified d) ∧ d.read = .ok m
  | .prepare m => by
      refine ⟨.prepare ⟨Pb.prepareFromAPI m, ⟨some (Pb.requestFromAPI m.request)⟩, m.ui⟩, ?_, ?_⟩
      · rw [Pb.certifiedFromAPI, typedMessageFromPb, newPrepareFromPb, Pb.prepareFromAPI,
          uiFromPb_marshalBinary]
        rfl
      · rw [CertifiedMessage.read]
        rfl
  | .commit m => by
      obtain ⟨d, hd, hread⟩ := newCommitFromPb_commitFromAPI m
      refine ⟨.commit d, ?_, ?_⟩
      · rw [Pb.certifiedFromAPI, typedMessageFromPb, hd]
        rfl
      · rw [CertifiedMessage.read, hread]
        rfl
  | .viewChange m => by
      obtain ⟨d, hd, hread⟩ := newViewChangeFromPb_viewChangeFromAPI m
      refine ⟨.viewChange d, ?_, ?_⟩
      · rw [Pb.certifiedFromAPI, typedMessageFromPb, hd]
        rfl
      · rw [CertifiedMessage.read, hread]
        rfl
  | .newView m => by
      obtain ⟨d, hd, hread⟩ := newNewViewFromPb_newViewFromAPI m
      refine ⟨.newView d, ?_, ?_⟩
      · rw [Pb.certifiedFromAPI, typedMessageFromPb, hd]
        rfl
      · rw [CertifiedMessage.read, hread]
        rfl

theorem newCommitFromPb_commitFromAPI :
    ∀ m : MinBFT.Commit, ∃ d, newCommitFromPb (Pb.commitFromAPI m) = .ok d ∧ d.read = .ok m
  | ⟨replicaID, proposal, ui⟩ => by
      obtain ⟨d, hd, hread⟩ := typedMessageFromPb_certified proposal
      refine ⟨⟨Pb.commitFromAPI ⟨replicaID, proposal, ui⟩, d, ui⟩, ?_, ?_⟩
      · rw [Pb.commitFromAPI, newCommitFromPb, proposalFromPb, hd, uiFromPb_marshalBinary]
        rfl
      · rw [Pb.commitFromAPI, Commit.read, hread]
        rfl

theorem messageLogFromPb_messageLogFromAPI :
    ∀ log : List MinBFT.CertifiedMessage, ∃ d,
      messageLogFromPb (Pb.messageLogFromAPI log) = .ok d ∧ readLog d = .ok log
  | [] => ⟨[], rfl, rfl⟩
  | m :: log => by
      obtain ⟨d, hd, hread⟩ := typedMessageFromPb_certified m
      obtain ⟨rest, hrest, hreads⟩ := messageLogFromPb_messageLogFromAPI log
      refine ⟨d :: rest, ?_, ?_⟩
      · rw [Pb.messageLogFromAPI, messageLogFromPb, hd, hrest]
        rfl
      · rw [readLog, hread, hreads]
        rfl

theorem newViewChangeFromPb_viewChangeFromAPI :
    ∀ m : MinBFT.ViewChange, ∃ d,
      newViewChangeFromPb (Pb.viewChangeFromAPI m) = .ok d ∧ d.read = .ok m
  | ⟨replicaID, newView, messageLog, viewChangeCert, ui⟩ => by
      obtain ⟨log, hlog, hread⟩ := messageLogFromPb_messageLogFromAPI messageLog
      refine ⟨⟨Pb.viewChangeFromAPI ⟨replicaID, newView, messageLog, viewChangeCert, ui⟩, log,
        viewChangeCertFromPb (viewChangeCert.map Pb.reqViewChangeFromAPI), ui⟩, ?_, ?_⟩
      · rw [Pb.viewChangeFromAPI, newViewChangeFromPb, hlog, uiFromPb_marshalBinary]
        rfl
      · rw [Pb.viewChangeFromAPI, ViewChange.read, hread, read_viewChangeCertFromPb]
        rfl

theorem newViewCertFromPb_newViewCertFromAPI :
    ∀ cert : List MinBFT.ViewChange, ∃ d,
      newViewCertFromPb (Pb.newViewCertFromAPI cert) = .ok d ∧ readCert d = .ok cert
  | [] => ⟨[], rfl, rfl⟩
  | m :: cert => by
      obtain ⟨d, hd, hread⟩ := newViewChangeFromPb_viewChangeFromAPI m
      obtain ⟨rest, hrest, hreads⟩ := newViewCertFromPb_newViewCertFromAPI cert
      refine ⟨d :: rest, ?_, ?_⟩
      · rw [Pb.newViewCertFromAPI, newViewCertFromPb, hd, hrest]
        rfl
      · rw [readCert, hread, hreads]
        rfl

theorem newNewViewFromPb_newViewFromAPI :
    ∀ m : MinBFT.NewView, ∃ d,
      newNewViewFromPb (Pb.newViewFromAPI m) = .ok d ∧ d.read = .ok m
  | ⟨replicaID, newView, newViewCert, ui⟩ => by
      obtain ⟨cert, hcert, hread⟩ := newViewCertFromPb_newViewCertFromAPI newViewCert
      refine ⟨⟨Pb.newViewFromAPI ⟨replicaID, newView, newViewCert, ui⟩, cert, ui⟩, ?_, ?_⟩
      · rw [Pb.newViewFromAPI, newNewViewFromPb, hcert, uiFromPb_marshalBinary]
        rfl
      · rw [Pb.newViewFromAPI, NewView.read, hread]
        rfl

end

theorem typedMessageFromPb_messageFromAPI (m : MinBFT.Message) :
    ∃ d, typedMessageFromPb (Pb.messageFromAPI m) = .ok d ∧ d.read = .ok m := by
  cases m with
  | hello m => exact ⟨_, rfl, rfl⟩
  | request m => exact ⟨_, rfl, rfl⟩
  | reply m => exact ⟨_, rfl, rfl⟩
  | reqViewChange m => exact ⟨_, rfl, rfl⟩
  | certified m =>
      obtain ⟨d, hd, hread⟩ := typedMessageFromPb_certified m
      refine ⟨.certified d, hd, ?_⟩
      rw [Message.read, hread]
      rfl

/-! ## Objects -/

abbrev Ref := ℕ

structure PrepareStruct where
  replicaId : UInt32
  view : UInt64
  request : Ref
  ui : Bytes

structure CommitStruct where
  replicaId : UInt32
  proposal : Ref
  ui : Bytes

structure ViewChangeStruct where
  replicaId : UInt32
  newView : UInt64
  log : List Ref
  vcCert : List Ref
  ui : Bytes

structure NewViewStruct where
  replicaId : UInt32
  newView : UInt64
  nvCert : List Ref
  ui : Bytes

/-- An object that implements a message. What it embeds is referred to twice, in the `pb` structure
and by the object itself. -/
inductive Object where
  | hello (pbMsg : Pb.Hello)
  | request (pbMsg : Pb.Request)
  | reply (pbMsg : Pb.Reply)
  | reqViewChange (pbMsg : Pb.ReqViewChange)
  | prepare (pbMsg : PrepareStruct) (req : Ref) (ui : Option UI)
  | commit (pbMsg : CommitStruct) (prop : Ref) (ui : Option UI)
  | viewChange (pbMsg : ViewChangeStruct) (log vcCert : List Ref) (ui : Option UI)
  | newView (pbMsg : NewViewStruct) (nvCert : List Ref) (ui : Option UI)

inductive Kind where
  | hello
  | request
  | reply
  | reqViewChange
  | prepare
  | commit
  | viewChange
  | newView
deriving DecidableEq

def Kind.isCertified : Kind → Bool
  | prepare | commit | viewChange | newView => true
  | _ => false

namespace Object

def newHello (r : UInt32) : Object := .hello ⟨r⟩

def newRequest (cl : UInt32) (seq : UInt64) (op : Bytes) : Object := .request ⟨cl, seq, op, []⟩

def newReply (r cl : UInt32) (seq : UInt64) (res : Bytes) : Object := .reply ⟨r, cl, seq, res, []⟩

def newReqViewChange (r : UInt32) (nv : UInt64) : Object := .reqViewChange ⟨r, nv, []⟩

def newPrepare (r : UInt32) (v : UInt64) (req : Ref) : Object := .prepare ⟨r, v, req, []⟩ req none

def newCommit (r : UInt32) (prop : Ref) : Object := .commit ⟨r, prop, []⟩ prop none

def newViewChange (r : UInt32) (nv : UInt64) (log vcCert : List Ref) : Object :=
  .viewChange ⟨r, nv, log, vcCert, []⟩ log vcCert none

def newNewView (r : UInt32) (nv : UInt64) (nvCert : List Ref) : Object :=
  .newView ⟨r, nv, nvCert, []⟩ nvCert none

def kind : Object → Kind
  | .hello _ => .hello
  | .request _ => .request
  | .reply _ => .reply
  | .reqViewChange _ => .reqViewChange
  | .prepare _ _ _ => .prepare
  | .commit _ _ _ => .commit
  | .viewChange _ _ _ _ => .viewChange
  | .newView _ _ _ => .newView

/-- Only the kinds that implement `SignedMessage` have the method. -/
def setSignature (signature : Bytes) : Object → Object
  | .request pbMsg => .request { pbMsg with signature }
  | .reply pbMsg => .reply { pbMsg with signature }
  | .reqViewChange pbMsg => .reqViewChange { pbMsg with signature }
  | o => o

def setUI (ui : UI) : Object → Object
  | .prepare pbMsg req _ => .prepare { pbMsg with ui := ui.marshalBinary } req (some ui)
  | .commit pbMsg prop _ => .commit { pbMsg with ui := ui.marshalBinary } prop (some ui)
  | .viewChange pbMsg log vcCert _ =>
      .viewChange { pbMsg with ui := ui.marshalBinary } log vcCert (some ui)
  | .newView pbMsg nvCert _ => .newView { pbMsg with ui := ui.marshalBinary } nvCert (some ui)
  | o => o

def refs : Object → List Ref
  | .prepare _ req _ => [req]
  | .commit _ prop _ => [prop]
  | .viewChange _ log vcCert _ => log ++ vcCert
  | .newView _ nvCert _ => nvCert
  | _ => []

def hasUI : Object → Bool
  | .prepare _ _ ui => ui.isSome
  | .commit _ _ ui => ui.isSome
  | .viewChange _ _ _ ui => ui.isSome
  | .newView _ _ ui => ui.isSome
  | _ => true

def image (images : Ref → Option Pb.Message) : Object → Option Pb.Message
  | .hello pbMsg => some (.hello pbMsg)
  | .request pbMsg => some (.request pbMsg)
  | .reply pbMsg => some (.reply pbMsg)
  | .reqViewChange pbMsg => some (.reqViewChange pbMsg)
  | .prepare pbMsg _ _ => do
      let request ← images pbMsg.request >>= Pb.Message.asRequest
      return .prepare ⟨pbMsg.replicaId, pbMsg.view, some request, pbMsg.ui⟩
  | .commit pbMsg _ _ => do
      let proposal ← images pbMsg.proposal
      return .commit ⟨pbMsg.replicaId, some proposal, pbMsg.ui⟩
  | .viewChange pbMsg _ _ _ => do
      let log ← pbMsg.log.mapM images
      let vcCert ← pbMsg.vcCert.mapM fun r => images r >>= Pb.Message.asReqViewChange
      return .viewChange ⟨pbMsg.replicaId, pbMsg.newView, log, vcCert, pbMsg.ui⟩
  | .newView pbMsg _ _ => do
      let nvCert ← pbMsg.nvCert.mapM fun r => images r >>= Pb.Message.asViewChange
      return .newView ⟨pbMsg.replicaId, pbMsg.newView, nvCert, pbMsg.ui⟩

/-- What the accessors return, given what those of the messages embedded return; `none` if there is
no UI yet. -/
def content (contents : Ref → Option MinBFT.Message) : Object → Option MinBFT.Message
  | .hello pbMsg => some (.hello ⟨pbMsg.replicaId⟩)
  | .request pbMsg =>
      some (.request ⟨pbMsg.clientId, pbMsg.seq, pbMsg.operation, pbMsg.signature⟩)
  | .reply pbMsg =>
      some (.reply
        ⟨pbMsg.replicaId, pbMsg.clientId, pbMsg.seq, pbMsg.result, pbMsg.signature⟩)
  | .reqViewChange pbMsg =>
      some (.reqViewChange ⟨pbMsg.replicaId, pbMsg.newView, pbMsg.signature⟩)
  | .prepare pbMsg req ui => do
      let request ← contents req >>= MinBFT.Message.asRequest
      return .certified (.prepare ⟨pbMsg.replicaId, pbMsg.view, request, ← ui⟩)
  | .commit pbMsg prop ui => do
      let proposal ← contents prop >>= MinBFT.Message.asCertified
      return .certified (.commit ⟨pbMsg.replicaId, proposal, ← ui⟩)
  | .viewChange pbMsg log vcCert ui => do
      let messageLog ← log.mapM fun r => contents r >>= MinBFT.Message.asCertified
      let viewChangeCert ← vcCert.mapM fun r => contents r >>= MinBFT.Message.asReqViewChange
      return .certified (.viewChange
        ⟨pbMsg.replicaId, pbMsg.newView, messageLog, viewChangeCert, ← ui⟩)
  | .newView pbMsg nvCert ui => do
      let newViewCert ← nvCert.mapM fun r => contents r >>= MinBFT.Message.asViewChange
      return .certified (.newView ⟨pbMsg.replicaId, pbMsg.newView, newViewCert, ← ui⟩)

end Object

/-! ## Building messages -/

def kindAt (s : List Object) (ref : Ref) : Option Kind := (Store.get? s ref).map Object.kind

def image (s : List Object) : Ref → Option Pb.Message := Store.read Object.image s

def content (s : List Object) : Ref → Option MinBFT.Message := Store.read Object.content s

def complete : List Object → Ref → Bool := Store.reachable Object.refs Object.hasUI

def marshalBinary (marshal : Pb.Message → Bytes) (s : List Object) (ref : Ref) : Option Bytes :=
  (image s ref).map marshal

inductive Op where
  | newHello (r : UInt32)
  | newRequest (cl : UInt32) (seq : UInt64) (op : Bytes)
  | newReply (r cl : UInt32) (seq : UInt64) (res : Bytes)
  | newReqViewChange (r : UInt32) (nv : UInt64)
  | newPrepare (r : UInt32) (v : UInt64) (req : Ref)
  | newCommit (r : UInt32) (prop : Ref)
  | newViewChange (r : UInt32) (nv : UInt64) (log vcCert : List Ref)
  | newNewView (r : UInt32) (nv : UInt64) (nvCert : List Ref)
  | setSignature (ref : Ref) (signature : Bytes)
  | setUI (ref : Ref) (ui : UI)

def Op.wellTyped (s : List Object) : Op → Bool
  | newPrepare _ _ req => kindAt s req == some .request
  | newCommit _ prop => (kindAt s prop).any Kind.isCertified
  | newViewChange _ _ log vcCert =>
      log.all (fun r => (kindAt s r).any Kind.isCertified) &&
        vcCert.all fun r => kindAt s r == some .reqViewChange
  | newNewView _ _ nvCert => nvCert.all fun r => kindAt s r == some .viewChange
  | _ => true

def Op.perform (s : List Object) : Op → List Object
  | newHello r => Object.newHello r :: s
  | newRequest cl seq op => Object.newRequest cl seq op :: s
  | newReply r cl seq res => Object.newReply r cl seq res :: s
  | newReqViewChange r nv => Object.newReqViewChange r nv :: s
  | newPrepare r v req => Object.newPrepare r v req :: s
  | newCommit r prop => Object.newCommit r prop :: s
  | newViewChange r nv log vcCert => Object.newViewChange r nv log vcCert :: s
  | newNewView r nv nvCert => Object.newNewView r nv nvCert :: s
  | setSignature ref signature => Store.modify (Object.setSignature signature) s ref
  | setUI ref ui => Store.modify (Object.setUI ui) s ref

def build (ops : List Op) : Option (List Object) :=
  ops.foldlM (fun s op => if op.wellTyped s then some (op.perform s) else none) []

/-- The `pb` structure has the UI of the object, if that is set. -/
def SameUI (bytes : Bytes) (ui : Option UI) : Prop := ∀ u, ui = some u → bytes = u.marshalBinary

def Fits (older : List Object) : Object → Prop
  | .prepare pbMsg req ui =>
      pbMsg.request = req ∧ SameUI pbMsg.ui ui ∧ kindAt older req = some .request
  | .commit pbMsg prop ui =>
      pbMsg.proposal = prop ∧ SameUI pbMsg.ui ui ∧ (kindAt older prop).any Kind.isCertified
  | .viewChange pbMsg log vcCert ui =>
      pbMsg.log = log ∧ pbMsg.vcCert = vcCert ∧ SameUI pbMsg.ui ui ∧
        (∀ r ∈ log, (kindAt older r).any Kind.isCertified) ∧
        ∀ r ∈ vcCert, kindAt older r = some .reqViewChange
  | .newView pbMsg nvCert ui =>
      pbMsg.nvCert = nvCert ∧ SameUI pbMsg.ui ui ∧ ∀ r ∈ nvCert, kindAt older r = some .viewChange
  | _ => True

theorem sameUI_none (bytes : Bytes) : SameUI bytes none := fun _ h => nomatch h

theorem sameUI_marshalBinary (ui : UI) : SameUI ui.marshalBinary (some ui) := by
  rintro u ⟨⟩
  rfl

@[simp] theorem kind_setSignature (signature : Bytes) (o : Object) :
    (o.setSignature signature).kind = o.kind := by
  cases o <;> rfl

@[simp] theorem kind_setUI (ui : UI) (o : Object) : (o.setUI ui).kind = o.kind := by
  cases o <;> rfl

/-- Changing an object keeps its kind. -/
theorem kindAt_modify {f : Object → Object} (hf : ∀ o, (f o).kind = o.kind) (s : List Object)
    (ref : Ref) : kindAt (Store.modify f s ref) = kindAt s := by
  funext ref'
  exact Store.get?_modify_map hf s ref ref'

theorem Fits.congr {older older' : List Object} (hkind : kindAt older' = kindAt older) {o : Object}
    (h : Fits older o) : Fits older' o := by
  have hiff : Fits older' o ↔ Fits older o := by cases o <;> simp only [Fits, hkind]
  exact hiff.mpr h

theorem Fits.setSignature {older : List Object} {o : Object} (h : Fits older o)
    (signature : Bytes) : Fits older (o.setSignature signature) := by
  cases o <;> exact h

theorem Fits.setUI {older : List Object} {o : Object} (h : Fits older o) (ui : UI) :
    Fits older (o.setUI ui) := by
  cases o with
  | prepare => exact ⟨h.1, sameUI_marshalBinary ui, h.2.2⟩
  | commit => exact ⟨h.1, sameUI_marshalBinary ui, h.2.2⟩
  | viewChange => exact ⟨h.1, h.2.1, sameUI_marshalBinary ui, h.2.2.2⟩
  | newView => exact ⟨h.1, sameUI_marshalBinary ui, h.2.2⟩
  | _ => exact h

theorem forall_fits_modify {f : Object → Object} (hkind : ∀ o, (f o).kind = o.kind)
    (hf : ∀ older o, Fits older o → Fits older (f o)) {s : List Object} {ref : Ref}
    (h : Store.Forall Fits s) : Store.Forall Fits (Store.modify f s ref) :=
  Store.forall_modify hf (fun older _ ref ho => ho.congr (kindAt_modify hkind older ref)) h

theorem Op.fits_perform {s : List Object} {op : Op} (htyped : op.wellTyped s = true)
    (h : Store.Forall Fits s) : Store.Forall Fits (op.perform s) := by
  cases op with
  | newHello r => exact ⟨trivial, h⟩
  | newRequest cl seq op => exact ⟨trivial, h⟩
  | newReply r cl seq res => exact ⟨trivial, h⟩
  | newReqViewChange r nv => exact ⟨trivial, h⟩
  | newPrepare r v req =>
      exact ⟨⟨rfl, sameUI_none _, beq_iff_eq.mp htyped⟩, h⟩
  | newCommit r prop => exact ⟨⟨rfl, sameUI_none _, htyped⟩, h⟩
  | newViewChange r nv log vcCert =>
      rw [wellTyped, Bool.and_eq_true, List.all_eq_true, List.all_eq_true] at htyped
      exact ⟨⟨rfl, rfl, sameUI_none _, htyped.1, fun r hr => beq_iff_eq.mp (htyped.2 r hr)⟩, h⟩
  | newNewView r nv nvCert =>
      rw [wellTyped, List.all_eq_true] at htyped
      exact ⟨⟨rfl, sameUI_none _, fun r hr => beq_iff_eq.mp (htyped r hr)⟩, h⟩
  | setSignature ref signature =>
      exact forall_fits_modify (kind_setSignature signature) (fun _ _ ho => ho.setSignature _) h
  | setUI ref ui => exact forall_fits_modify (kind_setUI ui) (fun _ _ ho => ho.setUI ui) h

/-- What every well-typed operation keeps, a sequence of them keeps. -/
theorem foldlM_perform {P : List Object → Prop} {ops : List Op} {s s' : List Object}
    (hstep : ∀ (op : Op) s, op.wellTyped s = true → P s → P (op.perform s)) (h : P s)
    (hrun : ops.foldlM (fun s op => if op.wellTyped s then some (op.perform s) else none) s =
      some s') : P s' := by
  induction ops generalizing s with
  | nil =>
      cases hrun
      exact h
  | cons op ops ih =>
      rw [List.foldlM_cons] at hrun
      split_ifs at hrun with htyped
      · exact ih (hstep op s htyped h) hrun
      · cases hrun

theorem fits_of_build {ops : List Op} {s : List Object} (h : build ops = some s) :
    Store.Forall Fits s :=
  foldlM_perform (s := []) (fun op _ htyped hs => op.fits_perform htyped hs) trivial h

def kindOf : MinBFT.Message → Kind
  | .hello _ => .hello
  | .request _ => .request
  | .reply _ => .reply
  | .reqViewChange _ => .reqViewChange
  | .certified (.prepare _) => .prepare
  | .certified (.commit _) => .commit
  | .certified (.viewChange _) => .viewChange
  | .certified (.newView _) => .newView

/-- A reference to a message of content `m` whose `pb` message has that content, too. -/
structure Represents (s : List Object) (ref : Ref) (m : MinBFT.Message) : Prop where
  content : content s ref = some m
  image : image s ref = some (Pb.messageFromAPI m)
  kind : kindAt s ref = some (kindOf m)

namespace Represents

variable {s : List Object} {ref : Ref} {m : MinBFT.Message}

theorem request (h : Represents s ref m) (hkind : kindAt s ref = some .request) :
    ∃ r, (Protobuf.content s ref >>= MinBFT.Message.asRequest) = some r ∧
      (Protobuf.image s ref >>= Pb.Message.asRequest) = some (Pb.requestFromAPI r) := by
  rw [h.content, h.image]
  have hm := Option.some.inj (h.kind.symm.trans hkind)
  cases m with
  | request r => exact ⟨r, rfl, rfl⟩
  | certified m => cases m <;> cases hm
  | _ => cases hm

theorem reqViewChange (h : Represents s ref m) (hkind : kindAt s ref = some .reqViewChange) :
    ∃ r, (Protobuf.content s ref >>= MinBFT.Message.asReqViewChange) = some r ∧
      (Protobuf.image s ref >>= Pb.Message.asReqViewChange) =
        some (Pb.reqViewChangeFromAPI r) := by
  rw [h.content, h.image]
  have hm := Option.some.inj (h.kind.symm.trans hkind)
  cases m with
  | reqViewChange r => exact ⟨r, rfl, rfl⟩
  | certified m => cases m <;> cases hm
  | _ => cases hm

theorem certified (h : Represents s ref m) (hkind : (kindAt s ref).any Kind.isCertified) :
    ∃ c, (Protobuf.content s ref >>= MinBFT.Message.asCertified) = some c ∧
      Protobuf.image s ref = some (Pb.certifiedFromAPI c) := by
  rw [h.content, h.image]
  rw [h.kind] at hkind
  cases m with
  | certified c => exact ⟨c, rfl, rfl⟩
  | _ => cases hkind

theorem viewChange (h : Represents s ref m) (hkind : kindAt s ref = some .viewChange) :
    ∃ vc, (Protobuf.content s ref >>= MinBFT.Message.asViewChange) = some vc ∧
      (Protobuf.image s ref >>= Pb.Message.asViewChange) = some (Pb.viewChangeFromAPI vc) := by
  rw [h.content, h.image]
  have hm := Option.some.inj (h.kind.symm.trans hkind)
  cases m with
  | certified c =>
      cases c with
      | viewChange vc =>
          refine ⟨vc, rfl, ?_⟩
          rw [Pb.messageFromAPI, Pb.certifiedFromAPI]
          rfl
      | _ => cases hm
  | _ => cases hm

end Represents

/-- Elements that correspond make lists that correspond. -/
theorem mapM_of_forall {α β γ : Type} {f : α → Option β} {g : α → Option γ} {h : β → γ}
    {l : List α} (hl : ∀ a ∈ l, ∃ b, f a = some b ∧ g a = some (h b)) :
    ∃ bs, l.mapM f = some bs ∧ l.mapM g = some (bs.map h) := by
  induction l with
  | nil => exact ⟨[], rfl, rfl⟩
  | cons a l ih =>
      obtain ⟨b, hf, hg⟩ := hl a List.mem_cons_self
      obtain ⟨bs, hfs, hgs⟩ := ih fun x hx => hl x (List.mem_cons_of_mem a hx)
      exact ⟨b :: bs, by simp [hf, hfs], by simp [hg, hgs]⟩

/-- An object that fits and has its UI represents a message if those it embeds do. -/
theorem Fits.represents {older : List Object} {o : Object} (h : Fits older o)
    (hui : o.hasUI = true) (hrefs : ∀ r ∈ o.refs, ∃ m, Represents older r m) :
    ∃ m, o.content (content older) = some m ∧
      o.image (image older) = some (Pb.messageFromAPI m) ∧ o.kind = kindOf m := by
  cases o with
  | hello pbMsg => exact ⟨_, rfl, rfl, rfl⟩
  | request pbMsg => exact ⟨_, rfl, rfl, rfl⟩
  | reply pbMsg => exact ⟨_, rfl, rfl, rfl⟩
  | reqViewChange pbMsg => exact ⟨_, rfl, rfl, rfl⟩
  | prepare pbMsg req ui =>
      obtain ⟨hreq, hbytes, hkind⟩ := h
      obtain ⟨u, rfl⟩ := Option.isSome_iff_exists.mp hui
      obtain ⟨m, hm⟩ := hrefs req List.mem_cons_self
      obtain ⟨r, hcontent, himage⟩ := hm.request hkind
      refine ⟨.certified (.prepare ⟨pbMsg.replicaId, pbMsg.view, r, u⟩), ?_, ?_, rfl⟩
      · simp [Object.content, hcontent]
      · rw [Pb.messageFromAPI, Pb.certifiedFromAPI, Object.image, hreq, himage, hbytes u rfl]
        rfl
  | commit pbMsg prop ui =>
      obtain ⟨hprop, hbytes, hkind⟩ := h
      obtain ⟨u, rfl⟩ := Option.isSome_iff_exists.mp hui
      obtain ⟨m, hm⟩ := hrefs prop List.mem_cons_self
      obtain ⟨c, hcontent, himage⟩ := hm.certified hkind
      refine ⟨.certified (.commit ⟨pbMsg.replicaId, c, u⟩), ?_, ?_, rfl⟩
      · simp [Object.content, hcontent]
      · rw [Pb.messageFromAPI, Pb.certifiedFromAPI, Pb.commitFromAPI, Object.image, hprop, himage,
          hbytes u rfl]
        rfl
  | viewChange pbMsg log vcCert ui =>
      obtain ⟨hlog, hcert, hbytes, hcertified, hreqs⟩ := h
      obtain ⟨u, rfl⟩ := Option.isSome_iff_exists.mp hui
      obtain ⟨ms, hms, hmsImage⟩ := mapM_of_forall fun r hr =>
        let ⟨_, hm⟩ := hrefs r (List.mem_append_left vcCert hr)
        hm.certified (hcertified r hr)
      obtain ⟨rvcs, hrvcs, hrvcsImage⟩ := mapM_of_forall fun r hr =>
        let ⟨_, hm⟩ := hrefs r (List.mem_append_right log hr)
        hm.reqViewChange (hreqs r hr)
      refine ⟨.certified (.viewChange ⟨pbMsg.replicaId, pbMsg.newView, ms, rvcs, u⟩), ?_, ?_, rfl⟩
      · rw [Object.content, hms, hrvcs]
        rfl
      · rw [Pb.messageFromAPI, Pb.certifiedFromAPI, Pb.viewChangeFromAPI,
          Pb.messageLogFromAPI_eq_map, Object.image, hlog, hcert, hmsImage, hrvcsImage,
          hbytes u rfl]
        rfl
  | newView pbMsg nvCert ui =>
      obtain ⟨hcert, hbytes, hkinds⟩ := h
      obtain ⟨u, rfl⟩ := Option.isSome_iff_exists.mp hui
      obtain ⟨vcs, hvcs, hvcsImage⟩ := mapM_of_forall (l := nvCert) fun r hr =>
        let ⟨_, hm⟩ := hrefs r hr
        hm.viewChange (hkinds r hr)
      refine ⟨.certified (.newView ⟨pbMsg.replicaId, pbMsg.newView, vcs, u⟩), ?_, ?_, rfl⟩
      · rw [Object.content, hvcs]
        rfl
      · rw [Pb.messageFromAPI, Pb.certifiedFromAPI, Pb.newViewFromAPI,
          Pb.newViewCertFromAPI_eq_map, Object.image, hcert, hvcsImage, hbytes u rfl]
        rfl

theorem represents_of_complete {s : List Object} (hs : Store.Forall Fits s) {ref : Ref}
    (href : complete s ref = true) : ∃ m, Represents s ref m := by
  refine Store.reachable_induction (Q := fun s ref => ∃ m, Represents s ref m) ?_ ?_ hs href
  · intro older o ho hui hrefs
    obtain ⟨m, hcontent, himage, hkind⟩ := ho.represents hui hrefs
    refine ⟨m, ?_, ?_, ?_⟩
    · exact (Store.read_top _ o older).trans hcontent
    · exact (Store.read_top _ o older).trans himage
    · rw [kindAt, Store.get?_top, Option.map_some, hkind]
  · rintro older o ref hne ⟨m, hm⟩
    refine ⟨m, ?_, ?_, ?_⟩
    · exact (Store.read_of_ne hne).trans hm.content
    · exact (Store.read_of_ne hne).trans hm.image
    · rw [kindAt, Store.get?_of_ne hne]
      exact hm.kind

/-- What a built message marshals to is decoded to a message with the same content at every
level. -/
theorem newFromBinary_marshalBinary {marshal : Pb.Message → Bytes}
    {unmarshal : Bytes → Option Pb.Message} {ops : List Op} {s : List Object} {ref : Ref}
    (hbuild : build ops = some s) (hcomplete : complete s ref = true)
    (hinverse : ∀ m, image s ref = some m → unmarshal (marshal m) = some m) :
    ∃ data d m, marshalBinary marshal s ref = some data ∧
      newFromBinary unmarshal data = .ok d ∧ content s ref = some m ∧ d.read = .ok m := by
  obtain ⟨m, hm⟩ := represents_of_complete (fits_of_build hbuild) hcomplete
  obtain ⟨d, hd, hread⟩ := typedMessageFromPb_messageFromAPI m
  refine ⟨marshal (Pb.messageFromAPI m), d, m, ?_, ?_, hm.content, hread⟩
  · rw [marshalBinary, hm.image, Option.map_some]
  · rw [newFromBinary, hinverse _ hm.image]
    exact hd

end Protobuf

namespace Concrete

open Protobuf

/-- A Commit to a Prepare that gets its own UI only after it has been embedded. -/
def lateUI : List Op :=
  [.newRequest 0 1 [7], .newPrepare 0 0 0, .newCommit 1 1, .setSignature 0 [9],
    .setUI 1 ⟨1, [5]⟩, .setUI 2 ⟨1, []⟩]

def lateUIObjects : List Object :=
  [.commit ⟨1, 1, [0, 0, 0, 0, 0, 0, 0, 1]⟩ 1 (some ⟨1, []⟩),
    .prepare ⟨0, 0, 0, [0, 0, 0, 0, 0, 0, 0, 1, 5]⟩ 0 (some ⟨1, [5]⟩), .request ⟨0, 1, [7], [9]⟩]

def lateUIData : Bytes :=
  [0x2a, 37, 0x08, 1,
    0x12, 23, 0x22, 21, 0x1a, 8, 0x10, 1, 0x1a, 1, 7, 0x22, 1, 9, 0x22, 9, 0, 0, 0, 0, 0, 0, 0, 1,
    5, 0x1a, 8, 0, 0, 0, 0, 0, 0, 0, 1]

theorem lateUI_decoded :
    ∃ data d m, marshalBinary (fun _ => lateUIData) lateUIObjects 2 = some data ∧
      newFromBinary (fun data => if data = lateUIData then image lateUIObjects 2 else none) data =
        .ok d ∧
      content lateUIObjects 2 = some m ∧ d.read = .ok m := by
  have hbuild : build lateUI = some lateUIObjects := rfl
  refine newFromBinary_marshalBinary hbuild rfl ?_
  intro m hm
  rw [if_pos rfl, hm]

end Concrete

end MinBFT
