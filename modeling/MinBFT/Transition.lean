import MinBFT.Lib.EState
import MinBFT.Replica

/-!
# What processing a message can do

`Transition` lists every way in which `processMessage` can change a replica, with the conditions
under which it does. Invariants are proved over its cases and never unfold a handler.
-/

namespace MinBFT

def Execution.take : CertifiedMessage → Execution.Action Unit
  | .prepare m => takePrepare m
  | .commit m => takeCommit m
  | .newView m => takeNewView m
  | .viewChange _ => throw (.panic .unknownMessageType)

namespace Replica

variable (p : Params)

def respond (order : List Request) (pendingReqs : RequestList) :
    CertifiedMessage → Output → Output
  | .prepare m, o => if p.id = m.replicaID then o
      else o.generate p fun ui => .commit ⟨p.id, .prepare m, ui⟩
  | .newView m, o =>
      let o := o.applyPendingRequests p pendingReqs order m.newView
      if p.id = m.replicaID then o else o.generate p fun ui => .commit ⟨p.id, .newView m, ui⟩
  | _, o => o

def viewFor (msg : CertifiedMessage) (s : Replica) : UInt64 :=
  if msg.kind = .newView then s.expectedView else s.currentView

/-- Just before the appliers return or fail. -/
def attempt (msg : CertifiedMessage) (x : Execution) (s : Replica) : Replica :=
  { s with
    currentView := s.viewFor msg
    attempted := s.attempted ++ [⟨msg, s.viewFor msg, s.expectedView⟩]
    execution := x }

def complete (order : List Request) (msg : CertifiedMessage) (x : Execution) (s : Replica) :
    Replica :=
  { s.attempt msg x with
    output := respond p order x.requests.pendingReqs msg s.output
    applied := s.applied ++ [msg] }

def advance (msg : CertifiedMessage) (s : Replica) : Replica :=
  { s with
    lastUI := Function.update s.lastUI msg.replicaID msg.counter
    processed := s.processed ++ [msg] }

def handle (msg : Message) (s : Replica) : Replica := { s with handled := s.handled ++ [msg] }

def newViewCert (vc : ViewChange) (s : Replica) : Option (List ViewChange) :=
  (s.viewChanges.collect p vc).2.1

def collectViewChange (vc : ViewChange) (s : Replica) : Replica :=
  { s with viewChanges := (s.viewChanges.collect p vc).2.2 }

def announceNewView (vc : ViewChange) (cert : List ViewChange) (s : Replica) : Replica :=
  { s.collectViewChange p vc with
    output := s.output.resetLog.generate p fun ui => .newView ⟨p.id, vc.newView, cert, ui⟩ }

def viewChangeCert (rvc : ReqViewChange) (s : Replica) : Option (List ReqViewChange) :=
  (s.reqViewChanges.collect p.config.viewChangeCertSize.toNat rvc).2.1

def collectReqViewChange (rvc : ReqViewChange) (s : Replica) : Replica :=
  { s with reqViewChanges :=
    (s.reqViewChanges.collect p.config.viewChangeCertSize.toNat rvc).2.2 }

def leaveView (rvc : ReqViewChange) (cert : List ReqViewChange) (s : Replica) : Replica :=
  { (s.collectReqViewChange p rvc).setRequests s.execution.requests.unprepareReqs with
    expectedView := rvc.newView
    output := (s.output.resetLog.startTimer rvc.newView).generate p fun ui =>
      .viewChange ⟨p.id, rvc.newView, Output.certified s.output.log, cert, ui⟩ }

def Next (msg : CertifiedMessage) (s : Replica) : Prop :=
  msg.counter = s.lastUI msg.replicaID + 1

instance (msg : CertifiedMessage) (s : Replica) : Decidable (s.Next msg) :=
  inferInstanceAs (Decidable (msg.counter = s.lastUI msg.replicaID + 1))

/-- The message is for the expected view, and a current view allows to apply it. -/
structure Applicable (msg : CertifiedMessage) (s : Replica) : Prop where
  next : s.Next msg
  messageView : msg.messageView = some s.expectedView
  newView : msg.kind = .newView → s.currentView < s.expectedView
  other : msg.kind ≠ .newView → s.expectedView ≤ s.currentView

inductive Fails (s : Replica) : Message → Fault → Prop where
  | hello (m : Hello) : Fails s (.hello m) (.panic .unknownMessageType)
  | reply (m : Reply) : Fails s (.reply m) (.panic .unknownMessageType)
  | gap {m : CertifiedMessage} (hgap : s.lastUI m.replicaID + 1 < m.counter) :
      Fails s (.certified m) (.error .unexpectedUICounter)
  | noView {m : CertifiedMessage} (hkind : m.kind ≠ .viewChange) (hview : m.messageView = none) :
      Fails s (.certified m) (.panic .unknownMessageType)
  | ahead {m : CertifiedMessage} {w : UInt64} (hnext : s.Next m) (hkind : m.kind ≠ .newView)
      (hview : m.messageView = some w) (hgt : s.currentView < w) :
      Fails s (.certified m) (.error .unexpectedView)
  | notTaken {m : CertifiedMessage} {e : Fault} {x : Execution} (happ : s.Applicable m)
      (htake : Execution.take m s.execution = .error e x) :
      Fails s (.certified m) (Fault.wrap .failedToApply e)

inductive Transition (order : List Request) : Message → Replica → Replica → Prop where
  /-- The message is refused before anything has changed. -/
  | refused {m : Message} {s : Replica} {e : Fault} (hfails : s.Fails m e) : Transition order m s s
  | known {r : Request} {s : Replica} (hcap : s.execution.requests.captureReq r = none) :
      Transition order (.request r) s (s.handle (.request r))
  | captured {r : Request} {s : Replica} {requests : Requests}
      (hcap : s.execution.requests.captureReq r = some requests)
      (hview : s.currentView ≠ s.expectedView) :
      Transition order (.request r) s ((s.setRequests requests).handle (.request r))
  | requested {r : Request} {s : Replica} {requests : Requests}
      (hcap : s.execution.requests.captureReq r = some requests)
      (hview : s.currentView = s.expectedView) :
      Transition order (.request r) s ({ s.setRequests requests with
        output := s.output.applyRequest p s.currentView r }.handle (.request r))
  | old {m : CertifiedMessage} {s : Replica} (hold : m.counter < s.lastUI m.replicaID + 1) :
      Transition order (.certified m) s (s.handle (.certified m))
  | viewChange {vc : ViewChange} {s : Replica} (hnext : s.Next (.viewChange vc))
      (hcert : s.newViewCert p vc = none ∨ vc.newView ≠ s.expectedView) :
      Transition order (.certified (.viewChange vc)) s
        (((s.collectViewChange p vc).advance (.viewChange vc)).handle
          (.certified (.viewChange vc)))
  /-- The ViewChange completes a certificate for the expected view. -/
  | newView {vc : ViewChange} {cert : List ViewChange} {s : Replica}
      (hnext : s.Next (.viewChange vc)) (hcert : s.newViewCert p vc = some cert)
      (hview : vc.newView = s.expectedView) :
      Transition order (.certified (.viewChange vc)) s
        (((s.announceNewView p vc cert).advance (.viewChange vc)).handle
          (.certified (.viewChange vc)))
  /-- A Prepare or Commit for another view, or a NewView that comes too late. -/
  | dropped {m : CertifiedMessage} {s : Replica} {w : UInt64} (hnext : s.Next m)
      (hview : m.messageView = some w) (hle : w ≤ s.currentView)
      (hdrop : m.kind ≠ .newView → w ≠ s.expectedView) :
      Transition order (.certified m) s ((s.advance m).handle (.certified m))
  /-- A NewView that moves the current view but is not for the expected one. -/
  | skipped {nv : NewView} {s : Replica} (hnext : s.Next (.newView nv))
      (hlt : s.currentView < nv.newView) (hne : nv.newView ≠ s.expectedView) :
      Transition order (.certified (.newView nv)) s
        (({ s with currentView := nv.newView }.advance (.newView nv)).handle
          (.certified (.newView nv)))
  | failed {m : CertifiedMessage} {s : Replica} {e : Fault} {x : Execution}
      (happ : s.Applicable m) (htake : Execution.take m s.execution = .error e x) :
      Transition order (.certified m) s (s.attempt m x)
  | applied {m : CertifiedMessage} {s : Replica} {x : Execution} (happ : s.Applicable m)
      (htake : Execution.take m s.execution = .ok () x) :
      Transition order (.certified m) s
        (((s.complete p order m x).advance m).handle (.certified m))
  | reqViewChange {rvc : ReqViewChange} {s : Replica}
      (hcert : s.viewChangeCert p rvc = none ∨ rvc.newView ≤ s.expectedView) :
      Transition order (.reqViewChange rvc) s
        ((s.collectReqViewChange p rvc).handle (.reqViewChange rvc))
  /-- The ReqViewChange completes a certificate for a view not yet expected. -/
  | leftView {rvc : ReqViewChange} {cert : List ReqViewChange} {s : Replica}
      (hcert : s.viewChangeCert p rvc = some cert) (hlt : s.expectedView < rvc.newView) :
      Transition order (.reqViewChange rvc) s
        ((s.leaveView p rvc cert).handle (.reqViewChange rvc))

theorem applyPeerMessage_eq (order : List Request) (msg : CertifiedMessage) (s : Replica) :
    applyPeerMessage p order msg s = match Execution.take msg s.execution with
      | .ok _ x => .ok () { s with
          attempted := s.attempted ++ [⟨msg, s.currentView, s.expectedView⟩]
          execution := x
          output := respond p order x.requests.pendingReqs msg s.output
          applied := s.applied ++ [msg] }
      | .error e x => .error e { s with
          attempted := s.attempted ++ [⟨msg, s.currentView, s.expectedView⟩]
          execution := x } := by
  unfold applyPeerMessage
  simp only [EStateM.bind_apply, EStateM.modify_apply]
  cases msg with
  | prepare m =>
      simp only [applyPrepare, EStateM.bind_apply, onExecution, Execution.take]
      cases Execution.takePrepare m s.execution with
      | error e x => rfl
      | ok a x => by_cases hown : p.id = m.replicaID <;> simp [hown, respond, generate]
  | commit m =>
      simp only [applyCommit, EStateM.bind_apply, onExecution, Execution.take]
      cases Execution.takeCommit m s.execution <;> rfl
  | newView m =>
      simp only [applyNewView, EStateM.bind_apply, onExecution, Execution.take]
      cases Execution.takeNewView m s.execution with
      | error e x => rfl
      | ok a x => by_cases hown : p.id = m.replicaID <;> simp [hown, respond, generate]
  | viewChange m => rfl

variable {p} {order : List Request}

/-- Where a result leaves the replica is a transition; a normal return is followed by `finish`, and
an error has a cause. -/
def Leads {α : Type} (p : Params) (order : List Request) (m : Message) (s : Replica)
    (finish : Replica → Replica) : EStateM.Result Fault Replica α → Prop
  | .ok _ s' => Transition p order m s (finish s')
  | .error e s' => Transition p order m s s' ∧ s.Fails m e

theorem leads_error {α : Type} {m : Message} {s : Replica} {e : Fault}
    {finish : Replica → Replica} (h : s.Fails m e) :
    Leads p order m s finish (.error e s : EStateM.Result Fault Replica α) := ⟨.refused h, h⟩

theorem processRequest_leads (r : Request) (s : Replica) :
    Leads p order (.request r) s (handle (.request r)) (processRequest p r s) := by
  unfold processRequest
  simp only [EStateM.bind_apply, EStateM.get_apply]
  cases hcap : s.execution.requests.captureReq r with
  | none => exact .known hcap
  | some requests =>
      by_cases hview : (s.setRequests requests).currentView = (s.setRequests requests).expectedView
      · simp only [if_neg (not_not_intro hview), EStateM.bind_apply, EStateM.set_apply]
        exact .requested hcap hview
      · simp only [if_pos (show _ ≠ _ from hview), EStateM.bind_apply, EStateM.set_apply]
        exact .captured hcap hview

/-- Applying a message leads to one of the two transitions of `applyPeerMessage`. -/
theorem apply_leads {m : CertifiedMessage} {s : Replica} (happ : s.Applicable m) :
    Leads p order (.certified m) s (fun s' => (s'.advance m).handle (.certified m))
      ((applyPeerMessage p order m).adaptExcept (Fault.wrap .failedToApply)
        { s with currentView := s.viewFor m }) := by
  rw [EStateM.adaptExcept_apply, applyPeerMessage_eq]
  cases htake : Execution.take m s.execution with
  | ok _ x => exact Transition.applied happ htake
  | error e x => exact ⟨.failed happ htake, .notTaken happ htake⟩

/-- What follows a normal return without failing only changes how the transition is finished. -/
theorem Leads.bind {α β : Type} {m : Message} {s s₁ : Replica} {x : Handler α}
    {f : α → Handler β} {finish : Replica → Replica} (g : Replica → Replica)
    (h : Leads p order m s (fun s' => finish (g s')) (x s₁))
    (hf : ∀ a s', ∃ b, f a s' = .ok b (g s')) : Leads p order m s finish ((x >>= f) s₁) := by
  rw [EStateM.bind_apply]
  cases hx : x s₁ with
  | ok a s' =>
      obtain ⟨b, hb⟩ := hf a s'
      rw [hx] at h
      simp only [hb]
      exact h
  | error e s' => rwa [hx] at h

theorem processViewMessage_leads {m : CertifiedMessage} {s : Replica} (hnext : s.Next m)
    (hkind : m.kind ≠ .viewChange) :
    Leads p order (.certified m) s (fun s' => (s'.advance m).handle (.certified m))
      (processViewMessage p order m s) := by
  unfold processViewMessage
  rw [EStateM.bind_apply, EStateM.get_apply]
  cases hview : m.messageView with
  | none => exact leads_error (.noView hkind hview)
  | some w =>
      by_cases hnv : m.kind = .newView
      · obtain ⟨nv, rfl⟩ : ∃ nv, m = .newView nv := by
          cases m <;> simp_all [CertifiedMessage.kind]
        cases hview
        by_cases hle : nv.newView ≤ s.currentView
        · simp only [if_pos hnv, if_pos hle]
          exact Transition.dropped hnext rfl hle fun h => absurd hnv h
        · have hlt : s.currentView < nv.newView := UInt64.not_le.mp hle
          simp only [if_pos hnv, if_neg hle, EStateM.bind_apply, EStateM.set_apply]
          by_cases hw : nv.newView = s.expectedView
          · have happ : s.Applicable (.newView nv) :=
              ⟨hnext, congrArg some hw, fun _ => hw ▸ hlt, fun h => absurd hnv h⟩
            have hs : s.viewFor (.newView nv) = nv.newView := (if_pos hnv).trans hw.symm
            simp only [if_neg (not_not_intro hw)]
            have h := @apply_leads p order _ s happ
            rw [hs] at h
            exact h.bind id fun _ s' => ⟨true, rfl⟩
          · simp only [if_pos (show _ ≠ _ from hw)]
            exact Transition.skipped hnext hlt hw
      · by_cases hgt : w > s.currentView
        · simp only [if_neg hnv, if_pos hgt]
          exact leads_error (.ahead hnext hnv hview hgt)
        · have hle : w ≤ s.currentView := UInt64.not_lt.mp hgt
          simp only [if_neg hnv, if_neg hgt]
          by_cases hw : w = s.expectedView
          · subst hw
            have happ : s.Applicable m := ⟨hnext, hview, fun h => absurd h hnv, fun _ => hle⟩
            have hs : s.viewFor m = s.currentView := if_neg hnv
            have h := @apply_leads p order m s happ
            rw [hs] at h
            simp only [ne_eq, not_true_eq_false, if_false]
            exact h.bind id fun _ s' => ⟨true, rfl⟩
          · simp only [if_pos (show _ ≠ _ from hw)]
            exact Transition.dropped hnext hview hle fun _ => hw

theorem processViewChange_leads {vc : ViewChange} {s : Replica}
    (hnext : s.Next (.viewChange vc)) :
    Leads p order (.certified (.viewChange vc)) s
      (fun s' => (s'.advance (.viewChange vc)).handle (.certified (.viewChange vc)))
      (processViewChange p vc s) := by
  unfold processViewChange
  rw [EStateM.bind_apply, EStateM.get_apply]
  cases hcert : s.newViewCert p vc with
  | none =>
      simp only [show (s.viewChanges.collect p vc).2.1 = none from hcert]
      exact .viewChange hnext (.inl hcert)
  | some cert =>
      simp only [show (s.viewChanges.collect p vc).2.1 = some cert from hcert, processNewViewCert]
      by_cases hview : vc.newView = s.expectedView
      · simp only [if_neg (not_not_intro hview)]
        exact .newView hnext hcert hview
      · simp only [if_pos (show _ ≠ _ from hview)]
        exact .viewChange hnext (.inr hview)

theorem processCertifiedMessage_leads (m : CertifiedMessage) (s : Replica) :
    Leads p order (.certified m) s (handle (.certified m))
      (processCertifiedMessage p order m s) := by
  unfold processCertifiedMessage
  rw [EStateM.bind_apply, EStateM.get_apply]
  by_cases hold : m.counter < s.lastUI m.replicaID + 1
  · simp only [if_pos hold]
    exact .old hold
  · by_cases hgt : m.counter > s.lastUI m.replicaID + 1
    · simp only [if_neg hold, if_pos hgt]
      exact leads_error (.gap hgt)
    · have hnext : s.Next m := by
        unfold Next
        grind
      simp only [if_neg hold, if_neg hgt]
      rw [← show m.counter = _ from hnext]
      cases m with
      | viewChange vc =>
          exact (processViewChange_leads hnext).bind (advance _) fun new s' => ⟨new, rfl⟩
      | _ =>
          exact (processViewMessage_leads hnext (by simp [CertifiedMessage.kind])).bind (advance _)
            fun new s' => ⟨new, rfl⟩

theorem processReqViewChange_leads (rvc : ReqViewChange) (s : Replica) :
    Leads p order (.reqViewChange rvc) s (handle (.reqViewChange rvc))
      (processReqViewChange p rvc s) := by
  unfold processReqViewChange
  rw [EStateM.bind_apply, EStateM.get_apply]
  cases hcert : s.viewChangeCert p rvc with
  | none =>
      simp only [show (s.reqViewChanges.collect _ rvc).2.1 = none from hcert]
      exact .reqViewChange (.inl hcert)
  | some cert =>
      simp only [show (s.reqViewChanges.collect _ rvc).2.1 = some cert from hcert, startViewChange]
      by_cases hlt : s.expectedView < rvc.newView
      · simp only [if_pos hlt]
        exact .leftView hcert hlt
      · simp only [if_neg hlt]
        exact .reqViewChange (.inr (UInt64.not_lt.mp hlt))

theorem processMessage_leads (m : Message) (s : Replica) :
    Leads p order m s id (processMessage p order m s) := by
  unfold processMessage
  cases m with
  | request r => exact (processRequest_leads r s).bind (handle _) fun new s' => ⟨new, rfl⟩
  | certified m =>
      exact (processCertifiedMessage_leads m s).bind (handle _) fun new s' => ⟨new, rfl⟩
  | reqViewChange rvc =>
      exact (processReqViewChange_leads rvc s).bind (handle _) fun new s' => ⟨new, rfl⟩
  | hello m => exact leads_error (.hello m)
  | reply m => exact leads_error (.reply m)

/-- Processing a message is a transition, however it ends. -/
theorem processMessage_transition (m : Message) (s : Replica) :
    Transition p order m s (processMessage p order m s).state := by
  have h := @processMessage_leads p order m s
  cases hres : processMessage p order m s with
  | ok b s' => rwa [hres] at h
  | error e s' =>
      rw [hres] at h
      exact h.1

/-- Whatever goes wrong has a cause. -/
theorem processMessage_fails {m : Message} {s s' : Replica} {e : Fault}
    (h : processMessage p order m s = .error e s') : s.Fails m e := by
  have hleads := @processMessage_leads p order m s
  rw [h] at hleads
  exact hleads.2

theorem mem_handled_of_ok {m : Message} {s s' : Replica} {b : Bool}
    (h : processMessage p order m s = .ok b s') : m ∈ s'.handled := by
  have hbind : ∀ {x : Handler Bool}, (do
      let new ← x
      modify fun s => { s with handled := s.handled ++ [m] }
      return new : Handler Bool) s = .ok b s' → m ∈ s'.handled := by
    intro x hx
    rw [EStateM.bind_apply] at hx
    split at hx
    · cases hx
      exact List.mem_append_right _ List.mem_cons_self
    · cases hx
  unfold processMessage at h
  cases m with
  | hello m => cases h
  | reply m => cases h
  | _ => exact hbind h

end Replica

end MinBFT
