import MinBFT.Protobuf

/-!
# What the decoder dereferences

Decoding stops at the first flaw of the input: an unset or misplaced message and a short UI are
rejected with an error, but a Commit without a proposal is dereferenced. A Prepare without a Request
is no flaw to the decoder; it is the Request's signature that cannot be read.

`flaws` lists the flaws of a `pb` message in the order in which the decoder comes across them. A
Commit's UI is read after the proposal, those of a ViewChange and a NewView before what is embedded.
-/

namespace MinBFT

namespace Pb

inductive Flaw where
  | unsetMessage
  | notCertified
  | shortUI
  | noProposal
deriving DecidableEq

def uiFlaws (ui : Bytes) : List Flaw := if ui.length < 8 then [.shortUI] else []

def Message.isCertified : Message → Bool
  | .prepare _ | .commit _ | .viewChange _ | .newView _ => true
  | _ => false

def Message.kindFlaws (m : Message) : List Flaw := if m.isCertified then [] else [.notCertified]

mutual

def Message.flaws : Message → List Flaw
  | .unset => [.unsetMessage]
  | .hello _ | .request _ | .reply _ | .reqViewChange _ => []
  | .prepare m => uiFlaws m.ui
  | .commit m => m.flaws
  | .viewChange m => m.flaws
  | .newView m => m.flaws

def proposalFlaws : Option Message → List Flaw
  | none => [.noProposal]
  | some m => m.flaws ++ m.kindFlaws

def Commit.flaws : Commit → List Flaw
  | ⟨_, proposal, ui⟩ => proposalFlaws proposal ++ uiFlaws ui

def logFlaws : List Message → List Flaw
  | [] => []
  | m :: log => m.flaws ++ m.kindFlaws ++ logFlaws log

def ViewChange.flaws : ViewChange → List Flaw
  | ⟨_, _, log, _, ui⟩ => uiFlaws ui ++ logFlaws log

def certFlaws : List ViewChange → List Flaw
  | [] => []
  | m :: cert => m.flaws ++ certFlaws cert

def NewView.flaws : NewView → List Flaw
  | ⟨_, _, nvCert, ui⟩ => uiFlaws ui ++ certFlaws nvCert

end

mutual

def Message.prepares : Message → List Prepare
  | .prepare m => [m]
  | .commit m => m.prepares
  | .viewChange m => m.prepares
  | .newView m => m.prepares
  | _ => []

def proposalPrepares : Option Message → List Prepare
  | none => []
  | some m => m.prepares

def Commit.prepares : Commit → List Prepare
  | ⟨_, proposal, _⟩ => proposalPrepares proposal

def logPrepares : List Message → List Prepare
  | [] => []
  | m :: log => m.prepares ++ logPrepares log

def ViewChange.prepares : ViewChange → List Prepare
  | ⟨_, _, log, _, _⟩ => logPrepares log

def certPrepares : List ViewChange → List Prepare
  | [] => []
  | m :: cert => m.prepares ++ certPrepares cert

def NewView.prepares : NewView → List Prepare
  | ⟨_, _, nvCert, _⟩ => certPrepares nvCert

end

/-- The decoder is stopped before a Commit without a proposal, and if nothing stops it, no Prepare
lacks its Request. -/
def Message.Intact (m : Message) : Prop :=
  m.flaws.head? ≠ some .noProposal ∧ (m.flaws = [] → ∀ p ∈ m.prepares, p.request.isSome)

end Pb

namespace Protobuf

open Pb (Flaw)

variable {α β : Type}

/-- Decoding succeeds with a result satisfying `Q` if there are no flaws, and otherwise ends as the
first one has it. -/
def Outcome (flaws : List Flaw) (Q : α → Prop) : Except WireFault α → Prop
  | .ok a => flaws = [] ∧ Q a
  | .error .nilPointer => flaws.head? = some .noProposal
  | .error (.error _) => ∃ flaw, flaw ≠ .noProposal ∧ flaws.head? = some flaw

namespace Outcome

variable {flaws flaws' : List Flaw} {Q : α → Prop} {Q' : β → Prop} {x : Except WireFault α}

theorem bind {f : α → Except WireFault β} (h : Outcome flaws Q x)
    (hf : ∀ a, Q a → Outcome flaws' Q' (f a)) : Outcome (flaws ++ flaws') Q' (x >>= f) := by
  cases x with
  | ok a =>
      obtain ⟨rfl, ha⟩ := h
      exact hf a ha
  | error fault =>
      cases fault with
      | nilPointer =>
          change flaws.head? = _ at h
          change (flaws ++ flaws').head? = _
          rw [List.head?_append, h, Option.some_or]
      | error e =>
          obtain ⟨flaw, hflaw, hhead⟩ := h
          refine ⟨flaw, hflaw, ?_⟩
          rw [List.head?_append, hhead, Option.some_or]

theorem pure {a : α} (h : Q a) : Outcome [] Q (.ok a) := ⟨rfl, h⟩

/-- The last step of a decoding function. -/
theorem bind_pure {f : α → β} (h : Outcome flaws Q x) (hf : ∀ a, Q a → Q' (f a)) :
    Outcome flaws Q' (x >>= fun a => Pure.pure (f a)) := by
  have := h.bind fun a ha => Outcome.pure (Q := Q') (hf a ha)
  rwa [List.append_nil] at this

theorem map {f : α → β} (h : Outcome flaws Q x) (hf : ∀ a, Q a → Q' (f a)) :
    Outcome flaws Q' (x.map f) := by
  cases x with
  | ok a => exact ⟨h.1, hf a h.2⟩
  | error fault => cases fault <;> exact h

theorem mapError {f : WireError → WireError} (h : Outcome flaws Q x) :
    Outcome flaws Q (x.mapError (WireFault.wrap f)) := by
  cases x with
  | ok a => exact h
  | error fault => cases fault <;> exact h

end Outcome

theorem outcome_uiFromPb (ui : Bytes) : Outcome (Pb.uiFlaws ui) (fun _ => True) (uiFromPb ui) := by
  refine Outcome.mapError ?_
  rw [UI.unmarshalBinary, BigEndian.readUint64, Pb.uiFlaws]
  split_ifs with h
  · exact ⟨.shortUI, by decide, rfl⟩
  · exact ⟨rfl, trivial⟩

/-- All accessors return exactly if the Prepares concerned have Requests. -/
def Reads (ps : List Pb.Prepare) (r : Except WireFault β) : Prop :=
  (∃ b, r = .ok b) ↔ ∀ p ∈ ps, p.request.isSome

namespace Reads

variable {ps ps' : List Pb.Prepare} {r : Except WireFault α} {r' : Except WireFault β}

theorem pure (a : α) : Reads [] (.ok a : Except WireFault α) := by
  simp [Reads]

theorem map_iff {f : α → β} : Reads ps (r.map f) ↔ Reads ps r := by
  unfold Reads
  cases r <;> simp [Except.map]

theorem bind {γ : Type} {g : α → β → γ} (h : Reads ps r) (h' : Reads ps' r') :
    Reads (ps ++ ps') (do let a ← r; let b ← r'; return g a b) := by
  unfold Reads at h h' ⊢
  rw [List.forall_mem_append, ← h, ← h']
  cases r <;> cases r' <;> simp [Bind.bind, Except.bind, Pure.pure, Except.pure]

end Reads

def Message.isCertified : Message → Bool
  | .certified _ => true
  | _ => false

structure Decodes (m : Pb.Message) (d : Message) : Prop where
  kind : d.isCertified = m.isCertified
  reads : Reads m.prepares d.read

theorem Decodes.outcome_asCertified {m : Pb.Message} {d : Message} (h : Decodes m d)
    (e : WireError) :
    Outcome m.kindFlaws (fun c : CertifiedMessage => Reads m.prepares c.read)
      (asCertified e d) := by
  have hkind := h.kind
  rw [Pb.Message.kindFlaws, ← hkind]
  cases d with
  | certified c =>
      have hreads := h.reads
      rw [Message.read, Reads.map_iff] at hreads
      exact ⟨rfl, hreads⟩
  | _ => exact ⟨.notCertified, by decide, rfl⟩

theorem reads_prepare (m : Pb.Prepare) (ui : UI) :
    Reads [m] (Prepare.read ⟨m, newRequestFromPb m.request, ui⟩) := by
  unfold Reads Prepare.read Request.read Request.signature newRequestFromPb
  cases h : m.request <;> simp [h, Bind.bind, Except.bind, Pure.pure, Except.pure]

theorem outcome_newPrepareFromPb (m : Pb.Prepare) :
    Outcome (Pb.uiFlaws m.ui) (fun d : Prepare => Reads [m] d.read) (newPrepareFromPb m) :=
  (outcome_uiFromPb m.ui).bind_pure fun ui _ => reads_prepare m ui

/-- A decoded certified message. -/
theorem decodes_certified {m : Pb.Message} {c : CertifiedMessage} (hm : m.isCertified = true)
    (h : Reads m.prepares c.read) : Decodes m (.certified c) :=
  ⟨hm.symm, Reads.map_iff.mpr h⟩

mutual

theorem outcome_typedMessageFromPb :
    ∀ m : Pb.Message, Outcome m.flaws (Decodes m) (typedMessageFromPb m)
  | .unset => ⟨.unsetMessage, by decide, rfl⟩
  | .hello _ => .pure ⟨rfl, .pure _⟩
  | .request _ => .pure ⟨rfl, .pure _⟩
  | .reply _ => .pure ⟨rfl, .pure _⟩
  | .reqViewChange _ => .pure ⟨rfl, .pure _⟩
  | .prepare m => by
      rw [typedMessageFromPb]
      exact (outcome_newPrepareFromPb m).map fun d h =>
        decodes_certified rfl (by rw [Pb.Message.prepares]; exact Reads.map_iff.mpr h)
  | .commit m => by
      rw [typedMessageFromPb]
      exact (outcome_newCommitFromPb m).map fun d h =>
        decodes_certified rfl (by rw [Pb.Message.prepares]; exact Reads.map_iff.mpr h)
  | .viewChange m => by
      rw [typedMessageFromPb]
      exact (outcome_newViewChangeFromPb m).map fun d h =>
        decodes_certified rfl (by rw [Pb.Message.prepares]; exact Reads.map_iff.mpr h)
  | .newView m => by
      rw [typedMessageFromPb]
      exact (outcome_newNewViewFromPb m).map fun d h =>
        decodes_certified rfl (by rw [Pb.Message.prepares]; exact Reads.map_iff.mpr h)

theorem outcome_newCommitFromPb :
    ∀ m : Pb.Commit,
      Outcome m.flaws (fun d : Commit => Reads m.prepares d.read) (newCommitFromPb m)
  | ⟨replicaId, none, uiBytes⟩ => rfl
  | ⟨replicaId, some m, uiBytes⟩ => by
      rw [newCommitFromPb, Pb.Commit.flaws, Pb.proposalFlaws, proposalFromPb, List.append_assoc]
      refine (outcome_typedMessageFromPb m).mapError.bind fun d hd => ?_
      refine (hd.outcome_asCertified _).bind fun c hc => ?_
      refine (outcome_uiFromPb uiBytes).bind_pure fun ui _ => ?_
      rw [Pb.Commit.prepares, Pb.proposalPrepares, Commit.read]
      exact Reads.map_iff.mpr hc

theorem outcome_messageLogFromPb :
    ∀ log : List Pb.Message,
      Outcome (Pb.logFlaws log) (fun d => Reads (Pb.logPrepares log) (readLog d))
        (messageLogFromPb log)
  | [] => .pure (.pure _)
  | m :: log => by
      rw [messageLogFromPb, Pb.logFlaws, List.append_assoc]
      refine (outcome_typedMessageFromPb m).bind fun d hd => ?_
      refine (hd.outcome_asCertified _).bind fun c hc => ?_
      refine (outcome_messageLogFromPb log).bind_pure fun rest hrest => ?_
      rw [Pb.logPrepares, readLog]
      exact hc.bind hrest

theorem outcome_newViewChangeFromPb :
    ∀ m : Pb.ViewChange,
      Outcome m.flaws (fun d : ViewChange => Reads m.prepares d.read) (newViewChangeFromPb m)
  | ⟨replicaId, newView, pbLog, pbCert, uiBytes⟩ => by
      rw [newViewChangeFromPb, Pb.ViewChange.flaws]
      refine (outcome_uiFromPb uiBytes).bind fun ui _ => ?_
      refine (outcome_messageLogFromPb pbLog).mapError.bind_pure fun log hlog => ?_
      rw [Pb.ViewChange.prepares, ViewChange.read]
      exact Reads.map_iff.mpr hlog

theorem outcome_newViewCertFromPb :
    ∀ cert : List Pb.ViewChange,
      Outcome (Pb.certFlaws cert) (fun d => Reads (Pb.certPrepares cert) (readCert d))
        (newViewCertFromPb cert)
  | [] => .pure (.pure _)
  | m :: cert => by
      rw [newViewCertFromPb, Pb.certFlaws]
      refine (outcome_newViewChangeFromPb m).bind fun d hd => ?_
      refine (outcome_newViewCertFromPb cert).bind_pure fun rest hrest => ?_
      rw [Pb.certPrepares, readCert]
      exact hd.bind hrest

theorem outcome_newNewViewFromPb :
    ∀ m : Pb.NewView,
      Outcome m.flaws (fun d : NewView => Reads m.prepares d.read) (newNewViewFromPb m)
  | ⟨replicaId, newView, pbCert, uiBytes⟩ => by
      rw [newNewViewFromPb, Pb.NewView.flaws]
      refine (outcome_uiFromPb uiBytes).bind fun ui _ => ?_
      refine (outcome_newViewCertFromPb pbCert).mapError.bind_pure fun cert hcert => ?_
      rw [Pb.NewView.prepares, NewView.read]
      exact Reads.map_iff.mpr hcert

end

/-- `NewFromBinary` and then all accessors at every level return without dereferencing nil. -/
def Safe (unmarshal : Bytes → Option Pb.Message) (data : Bytes) : Prop :=
  match newFromBinary unmarshal data with
  | .error .nilPointer => False
  | .error (.error _) => True
  | .ok m => ∃ content, m.read = .ok content

theorem safe_iff_intact (unmarshal : Bytes → Option Pb.Message) (data : Bytes) :
    Safe unmarshal data ↔ ∀ m, unmarshal data = some m → m.Intact := by
  unfold Safe newFromBinary
  cases hm : unmarshal data with
  | none => simp
  | some m =>
      have hout := outcome_typedMessageFromPb m
      simp only [Option.some.injEq, forall_eq']
      unfold Pb.Message.Intact
      cases hd : typedMessageFromPb m with
      | ok d =>
          rw [hd] at hout
          obtain ⟨hflaws, hdec⟩ := hout
          rw [hflaws]
          simpa using show (∃ _, _) ↔ _ from hdec.reads
      | error fault =>
          rw [hd] at hout
          cases fault with
          | nilPointer =>
              change m.flaws.head? = _ at hout
              simp [hout]
          | error e =>
              obtain ⟨flaw, hflaw, hhead⟩ := hout
              have hne : m.flaws ≠ [] := by
                rintro hnil
                rw [hnil] at hhead
                cases hhead
              simp [hhead, hflaw, hne]

end Protobuf

namespace Concrete

/-- `proto.Unmarshal` on the encoding of an empty Commit and on that of a Prepare with nothing but
eight zero bytes in the place of the UI. -/
def absentFields : Bytes → Option Pb.Message
  | [0x2a, 0] => some (.commit ⟨0, none, []⟩)
  | [0x22, 10, 0x22, 8, 0, 0, 0, 0, 0, 0, 0, 0] =>
      some (.prepare ⟨0, 0, none, [0, 0, 0, 0, 0, 0, 0, 0]⟩)
  | _ => none

/-- The decoder dereferences the absent proposal. The Prepare is decoded, but its Request's
signature cannot be read. -/
theorem absent_dereferenced :
    ¬ Protobuf.Safe absentFields [0x2a, 0] ∧
      ¬ Protobuf.Safe absentFields [0x22, 10, 0x22, 8, 0, 0, 0, 0, 0, 0, 0, 0] := by
  refine ⟨id, ?_⟩
  rintro ⟨content, h⟩
  cases h

end Concrete

end MinBFT
