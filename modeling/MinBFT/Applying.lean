import MinBFT.Preparing
import MinBFT.Views

/-!
# Messages that cannot be applied

Nothing keeps a validated NewView from being applied once all that is embedded in it has been
handled: the requests to prepare can be extracted from its certificate, and all of them have been
captured. A certified message that is refused leaves no trace, with one exception. The request of a
Prepare is marked as prepared before the commitment to it is accepted, and the commitment is refused
if a message of the sender has been passed over since its last commitment in the view.
-/

namespace MinBFT

namespace Execution

variable {q : Prepare} {w : UInt64} {x : Execution}

/-- An error, as opposed to a panic, leaves requests and commitments alone, unless a commitment is
refused after requests have been prepared. -/
theorem Taken.error_cases {m : CertifiedMessage} {y : Execution} {e : Error}
    (h : Taken m w x (.error (.error e) y)) :
    (y = x ∧ m.kind ≠ .newView) ∨
      ¬ x.commitments.Fits m w ∧ ((∃ nv, m = .newView nv) ∨ ∃ q, m = .prepare q ∧
        (x.requests.clients q.request.clientID).lastPreparedSeq < q.request.sequence) := by
  generalize hres : EStateM.Result.error (Fault.error e) y = res at h
  cases h with
  | unprepared hprep =>
      obtain ⟨rfl, rfl⟩ := EStateM.Result.error.inj hres
      cases m with
      | prepare q =>
          rcases prepareFor_prepare_cases q x.requests with
            ⟨-, heq⟩ | ⟨-, ⟨-, heq⟩ | ⟨-, heq⟩⟩ <;> cases hprep.symm.trans heq
          exact .inl ⟨rfl, by simp [CertifiedMessage.kind]⟩
      | newView nv =>
          cases hextract : extractPreparedRequests nv.newViewCert with
          | none =>
              simp only [prepareFor, hextract] at hprep
              cases hprep
          | some reqs =>
              simp only [prepareFor, hextract] at hprep
              cases Requests.prepareAll_panics hprep
      | _ => cases hprep
  | @failed e' r _ wrap hprep hcollect =>
      obtain ⟨he, rfl⟩ := EStateM.Result.error.inj hres
      cases hcollect with
      | unexpected => cases he
      | panicked _ _ hexec =>
          rw [Requests.executeAll_panics hexec] at he
          cases he
      | rejected hrecord =>
          have hno : ¬ x.commitments.Fits m w := fun hfits => hfits.record_ne_error hrecord
          cases m with
          | prepare q =>
              refine .inr ⟨hno, .inr ⟨q, rfl, ?_⟩⟩
              rcases prepareFor_prepare_cases q x.requests with ⟨-, heq⟩ | ⟨hlt, -⟩
              · cases hprep.symm.trans heq
              · exact hlt
          | newView nv => exact .inr ⟨hno, .inl ⟨nv, rfl⟩⟩
          | _ =>
              cases hprep
              exact .inl ⟨rfl, by simp [CertifiedMessage.kind]⟩
  | taken => cases hres

/-- A Prepare whose commitment is refused has its request marked as prepared nevertheless. -/
theorem Taken.refused {res : EStateM.Result Fault Execution Unit} (h : Taken (.prepare q) w x res)
    (hfresh : (x.requests.clients q.request.clientID).lastPreparedSeq < q.request.sequence)
    (hcap : q.request.sequence ≤ (x.requests.clients q.request.clientID).lastCapturedSeq)
    (hno : ¬ x.commitments.Fits (.prepare q) w) :
    ∃ e, res = .error (.error e) { x with requests := x.requests.markPrepared q.request } := by
  have hprepared : prepareFor (.prepare q) x.requests =
      .ok () (x.requests.markPrepared q.request) := by
    rcases prepareFor_prepare_cases q x.requests with ⟨hle, -⟩ | ⟨-, ⟨hlt, -⟩ | ⟨-, heq⟩⟩
    · exact absurd hfresh (UInt64.not_lt.mpr hle)
    · exact absurd hlt (UInt64.not_lt.mpr hcap)
    · exact heq
  have hrefused : ∀ res, x.commitments.record (.prepare q) w ≠ .ok res := by
    intro res hrecord
    rcases Commitments.acceptCommitment_cases (.prepare q) w x.commitments with
      ⟨hfits, -⟩ | ⟨-, e, heq⟩
    · exact hno hfits
    · rw [Commitments.record, heq] at hrecord
      cases hrecord
  cases h with
  | unprepared hprep =>
      rw [hprepared] at hprep
      cases hprep
  | failed wrap hprep hcollect =>
      rw [hprepared] at hprep
      cases hprep
      cases hcollect with
      | rejected => exact ⟨_, rfl⟩
      | unexpected hrecord => exact absurd hrecord (hrefused _)
      | panicked hrecord => exact absurd hrecord (hrefused _)
  | taken _ hcollect =>
      cases hcollect with
      | counted hrecord => exact absurd hrecord (hrefused _)
      | executed hrecord => exact absurd hrecord (hrefused _)

end Execution

namespace Replica

variable {p : Params} {order : List Request} {s s' : Replica}

/-- A message is refused before anything has changed, or an applier has failed. -/
theorem processCertifiedMessage_error {m : CertifiedMessage} {e : Error}
    (h : processCertifiedMessage p order m s = .error (.error e) s') :
    s' = s ∨ ∃ e' x, s.Applicable m ∧ Execution.take m s.execution = .error (.error e') x ∧
      s' = s.attempt m x := by
  have hleads := @processCertifiedMessage_leads p order m s
  rw [h] at hleads
  obtain ⟨-, hfails⟩ := hleads
  generalize hf : Fault.error e = f at hfails
  cases hfails with
  | gap hgap =>
      have hnot : ¬ m.counter < s.lastUI m.replicaID + 1 :=
        UInt64.not_lt.mpr (UInt64.le_of_lt hgap)
      unfold processCertifiedMessage at h
      rw [EStateM.bind_apply, EStateM.get_apply] at h
      simp only [if_neg hnot, gt_iff_lt, if_pos hgap] at h
      exact .inl (EStateM.Result.error.inj h).2.symm
  | noView => cases hf
  | ahead hnext hkind hview hgt =>
      have hmsg : processViewMessage p order m s = .error (.error .unexpectedView) s := by
        unfold processViewMessage
        rw [EStateM.bind_apply, EStateM.get_apply]
        simp only [hview, if_neg hkind, gt_iff_lt, if_pos hgt]
        rfl
      rw [processCertifiedMessage_of_error hnext (CertifiedMessage.kind_of_messageView hview) hmsg]
        at h
      exact .inl (EStateM.Result.error.inj h).2.symm
  | @notTaken _ e' x happ htake =>
      rw [processCertifiedMessage_of_notTaken happ htake] at h
      obtain ⟨he, hs⟩ := EStateM.Result.error.inj h
      cases e' with
      | panic q => cases he
      | error e' => exact .inr ⟨e', x, happ, htake, hs.symm⟩

structure Intact (s s' : Replica) : Prop where
  lastUI : s'.lastUI = s.lastUI
  currentView : s'.currentView = s.currentView
  expectedView : s'.expectedView = s.expectedView
  requests : s'.execution.requests = s.execution.requests
  commitments : s'.execution.commitments = s.execution.commitments
  output : s'.output = s.output

/-- The last message processed from the sender of the Prepare is the last commitment accepted from
it, in the view of the Prepare. -/
structure Uninterrupted (q : Prepare) (s : Replica) : Prop where
  view : s.execution.commitments.replicaViews q.replicaID = q.view
  lastPrimaryCV : s.execution.commitments.lastPrimaryCVs q.replicaID = s.lastUI q.replicaID
  lastReplicaCV : s.execution.commitments.lastReplicaCVs q.replicaID = s.lastUI q.replicaID

/-- A Prepare to be applied whose request has not been prepared yet, but whose sender has been
passed over since its last commitment in the view. -/
structure Breaks (q : Prepare) (s : Replica) : Prop where
  applicable : s.Applicable (.prepare q)
  unprepared : (s.execution.requests.clients q.request.clientID).lastPreparedSeq <
    q.request.sequence
  interrupted : ¬ s.Uninterrupted q

theorem Applicable.fits_iff {q : Prepare} (happ : s.Applicable (.prepare q)) :
    s.execution.commitments.Fits (.prepare q) s.expectedView ↔ s.Uninterrupted q := by
  have hview : q.view = s.expectedView := Option.some.inj happ.messageView
  have hnext : q.ui.counter = s.lastUI q.replicaID + 1 := happ.next
  have hfits : s.execution.commitments.Fits (.prepare q) s.expectedView ↔
      s.execution.commitments.replicaViews q.replicaID = s.expectedView ∧
        q.ui.counter = s.execution.commitments.lastPrimaryCVs q.replicaID + 1 ∧
        q.ui.counter = s.execution.commitments.lastReplicaCVs q.replicaID + 1 := Iff.rfl
  rw [hfits, hnext, ← hview]
  constructor
  · rintro ⟨heq, hp, hr⟩
    exact ⟨heq, ((UInt64.add_left_inj 1).mp hp).symm, ((UInt64.add_left_inj 1).mp hr).symm⟩
  · rintro ⟨heq, hp, hr⟩
    exact ⟨heq, by rw [hp], by rw [hr]⟩

/-- A message that does not break the commitments of its sender is refused without a trace. -/
theorem intact_of_error {m : CertifiedMessage} {e : Error}
    (hviews : ∀ r, s.execution.commitments.replicaViews r ≤ s.currentView)
    (hm : ∀ q, m = .prepare q → ¬ s.Breaks q)
    (h : processCertifiedMessage p order m s = .error (.error e) s') : s.Intact s' := by
  rcases processCertifiedMessage_error h with rfl | ⟨e', x, happ, htake, rfl⟩
  · exact ⟨rfl, rfl, rfl, rfl, rfl, rfl⟩
  · rcases (Transition.taken happ htake).error_cases with
      ⟨rfl, hkind⟩ | ⟨hno, ⟨nv, rfl⟩ | ⟨q, rfl, hfresh⟩⟩
    · exact ⟨rfl, if_neg hkind, rfl, rfl, rfl, rfl⟩
    · exact absurd (happ.fits hviews) hno
    · exact absurd ⟨happ, hfresh, fun hc => hno (happ.fits_iff.mpr hc)⟩ (hm q rfl)

/-- A Prepare that breaks the commitments of its sender is refused, and its request stays marked as
prepared. -/
theorem Breaks.not_intact {q : Prepare} (h : s.Breaks q)
    (hcap : q.request.sequence ≤
      (s.execution.requests.clients q.request.clientID).lastCapturedSeq) :
    ∃ e s', processCertifiedMessage p order (.prepare q) s = .error (.error e) s' ∧
      ¬ s.Intact s' := by
  have hno := mt h.applicable.fits_iff.mp h.interrupted
  obtain ⟨e, htake⟩ := (Transition.taken h.applicable rfl).refused h.unprepared hcap hno
  refine ⟨_, _, processCertifiedMessage_of_notTaken h.applicable htake, fun hintact => ?_⟩
  have hseq := congrArg (fun r => (r.clients q.request.clientID).lastPreparedSeq) hintact.requests
  have hlt := h.unprepared
  rw [← show _ = _ from hseq] at hlt
  simp [attempt, Requests.markPrepared] at hlt

end Replica

namespace Node

variable {p : Params} {C : Replica → Message → Prop} {s : Node}

/-- Applying a validated NewView meets no message it cannot extract requests from, and no request
that has not been captured. -/
theorem Reachable.prepares_newView (hid : p.id < p.config.n) (h : s.Reachable p C) {nv : NewView}
    (hvalid : HereditarilyValid p.crypto p.config (.certified (.newView nv)))
    (hhandled : ∀ x ∈ (Message.certified (.newView nv)).embedded, x ∈ s.replica.handled) :
    ∃ reqs, extractPreparedRequests nv.newViewCert = some reqs ∧
      (∀ r ∈ reqs, r.sequence ≤
        (s.replica.execution.requests.clients r.clientID).lastCapturedSeq) ∧
      ∃ requests, Requests.prepareAll reqs s.replica.execution.requests = .ok () requests := by
  obtain ⟨reqs, hreqs⟩ := exists_extracted fun vc hvc => hvalid.sound.newViewCert hvc
  have hcap := (h.run.history hid).captured hhandled hreqs
  refine ⟨reqs, hreqs, hcap, ?_⟩
  cases hprep : Requests.prepareAll reqs s.replica.execution.requests with
  | ok _ requests => exact ⟨requests, rfl⟩
  | error e requests =>
      obtain ⟨r, hr, hlt⟩ := Requests.prepareAll_not_captured hprep
      exact absurd (hcap r hr) (UInt64.not_le.mpr hlt)

/-- Refusing a certified message leaves the replica intact, unless it is a Prepare that breaks the
commitments of its sender. -/
theorem Reachable.intact_iff (hid : p.id < p.config.n) (h : s.Reachable p C)
    (order : List Request) {m : CertifiedMessage}
    (hhandled : ∀ x ∈ (Message.certified m).embedded, x ∈ s.replica.handled) :
    (∀ e s', Replica.processCertifiedMessage p order m s.replica = .error (.error e) s' →
      s.replica.Intact s') ↔ ∀ q, m = .prepare q → ¬ s.replica.Breaks q := by
  constructor
  · rintro hintact q rfl hbreaks
    have hcap := (h.run.history hid).captured hhandled rfl q.request List.mem_cons_self
    obtain ⟨e, s', herror, hno⟩ := hbreaks.not_intact hcap
    exact hno (hintact e s' herror)
  · intro hm e s' herror
    exact Replica.intact_of_error h.run.replicaViews_le hm herror

end Node

namespace Concrete

def preparesNext (q : Prepare) (i : ℕ) (s : Node) : Bool :=
  match s.processing (.run i []) with
  | some (.certified (.prepare q')) => q' == q
  | _ => false

theorem processing_of_preparesNext {q : Prepare} {i : ℕ} {s : Node}
    (h : preparesNext q i s = true) :
    s.processing (.run i []) = some (.certified (.prepare q)) := by
  unfold preparesNext at h
  split at h
  · next heq => rw [heq, beq_iff_eq.mp h]
  · cases h

def preparesRequestsNext (p : Params) (reqs : List Request) (i : ℕ) (s : Node) : Bool :=
  match s.processing (.run i []) with
  | some (.certified (.newView nv)) => accepted p.crypto p.config (.certified (.newView nv)) &&
      extractPreparedRequests nv.newViewCert == some reqs
  | _ => false

theorem processing_of_preparesRequestsNext {p : Params} {reqs : List Request} {i : ℕ} {s : Node}
    (h : preparesRequestsNext p reqs i s = true) :
    ∃ nv, s.processing (.run i []) = some (.certified (.newView nv)) ∧
      accepted p.crypto p.config (.certified (.newView nv)) = true ∧
      extractPreparedRequests nv.newViewCert = some reqs := by
  unfold preparesRequestsNext at h
  split at h
  · next nv heq =>
      rw [Bool.and_eq_true, beq_iff_eq] at h
      exact ⟨nv, heq, h⟩
  · cases h

def keptPrepare : Prepare := prepare 0 0 (request 0 1) 1

def keepingViewChange (replicaID : UInt32) : ViewChange :=
  viewChange replicaID 1 [commit replicaID (.prepare keptPrepare) 1] [1, 2] 2

def keepingNewView : NewView := newView 1 1 [keepingViewChange 1, keepingViewChange 2] 3

def belatedCommit : CertifiedMessage := commit 1 (.prepare keptPrepare) 4

def brokenPrepare : Prepare := prepare 1 1 (request 2 3) 5

def brokenNetwork : Network :=
  ⟨⟨3, 1⟩, ledgerCrypto [.prepare keptPrepare, commit 1 (.prepare keptPrepare) 1,
    commit 2 (.prepare keptPrepare) 1, .viewChange (keepingViewChange 1),
    .viewChange (keepingViewChange 2), .newView keepingNewView,
    commit 2 (.newView keepingNewView) 3, belatedCommit, .prepare brokenPrepare], {0, 2}⟩

theorem brokenNetwork_admissible : brokenNetwork.Admissible where
  tolerant := by
    unfold Config.Tolerant
    decide
  sha256 := injective_sha256_ledgerCrypto _
  uniqueUI := uniqueUI_ledgerCrypto (by decide +kernel)
  replicas := by decide +kernel
  faulty := by decide +kernel

/-- Replica 2 gets the Prepare of replica 0. -/
def preparing : List (UInt32 × Label) :=
  (handling 0 (.request (request 0 1))).map (0, ·) ++
    (handling 0 (.certified (.prepare keptPrepare))).map (2, ·)

/-- It commits to it, asks for a view change and gets a NewView from the faulty replica 1. -/
def keeping : List (UInt32 × Label) :=
  preparing ++ (ownHandling (.certified (commit 2 (.prepare keptPrepare) 1)) ++
    handling 1 (.reqViewChange (reqViewChange 1 1)) ++ [Label.timeout 0] ++
    ownHandling (.reqViewChange (reqViewChange 2 1)) ++
    handling 2 (.certified (.newView keepingNewView))).map (2, ·)

/-- Before its first Prepare in the new view, replica 1 sends a Commit in the initial one. -/
def breaking : List (UInt32 × Label) :=
  keeping ++ (handling 3 (.certified belatedCommit) ++
    handling 4 (.certified (.prepare brokenPrepare))).map (2, ·)

theorem prepares_kept : ∃ (s : Node) (nv : NewView),
    s.Reachable (brokenNetwork.params 2) (fun _ _ => True) ∧
      extractPreparedRequests nv.newViewCert = some [request 0 1] ∧
      ∃ reqs, extractPreparedRequests nv.newViewCert = some reqs ∧
        (∀ r ∈ reqs, r.sequence ≤
          (s.replica.execution.requests.clients r.clientID).lastCapturedSeq) ∧
        ∃ requests, Requests.prepareAll reqs s.replica.execution.requests = .ok () requests := by
  have h : ((System.init brokenNetwork).exec brokenNetwork (fun _ _ _ => true)
      keeping.dropLast).any (fun sys => preparesRequestsNext (brokenNetwork.params 2)
        [request 0 1] 2 (sys.nodes 2)) = true := by
    decide +kernel
  obtain ⟨sys, hreach, hsys⟩ := System.exists_reachable (fun _ _ _ _ => trivial) h
  obtain ⟨nv, hproc, hacc, hextract⟩ := processing_of_preparesRequestsNext hsys
  refine ⟨_, nv, hreach.node 2, hextract, ?_⟩
  exact Node.Reachable.prepares_newView (by decide) (hreach.node 2)
    (hereditarilyValid_of_accepted hacc) ((hreach.node 2).linked.2.admits hproc).embedded

theorem intact_iff_keptPrepare : ∃ s : Node,
    s.Reachable (brokenNetwork.params 2) (fun _ _ => True) ∧
      s.replica.Applicable (.prepare keptPrepare) ∧
      ∀ e s', Replica.processCertifiedMessage (brokenNetwork.params 2) [] (.prepare keptPrepare)
        s.replica = .error (.error e) s' → s.replica.Intact s' := by
  have h : ((System.init brokenNetwork).exec brokenNetwork (fun _ _ _ => true)
      preparing.dropLast).any (fun sys => preparesNext keptPrepare 0 (sys.nodes 2) &&
        (sys.nodes 2).replica.expectedView == 0 &&
        (sys.nodes 2).replica.lastUI 0 == 0 &&
        (sys.nodes 2).replica.execution.commitments.replicaViews 0 == 0 &&
        (sys.nodes 2).replica.execution.commitments.lastPrimaryCVs 0 == 0 &&
        (sys.nodes 2).replica.execution.commitments.lastReplicaCVs 0 == 0) = true := by
    decide +kernel
  obtain ⟨sys, hreach, hsys⟩ := System.exists_reachable (fun _ _ _ _ => trivial) h
  simp only [Bool.and_eq_true, beq_iff_eq] at hsys
  obtain ⟨⟨⟨⟨⟨hnext, hview⟩, hui⟩, hviews⟩, hprimary⟩, hreplica⟩ := hsys
  have happ : (sys.nodes 2).replica.Applicable (.prepare keptPrepare) := by
    refine ⟨?_, congrArg some hview.symm, (fun h => nomatch h), fun _ => ?_⟩
    · change (1 : UInt64) = (sys.nodes 2).replica.lastUI 0 + 1
      rw [hui]
      rfl
    · rw [hview]
      exact UInt64.zero_le
  refine ⟨_, hreach.node 2, happ, ?_⟩
  have hadmits := (hreach.node 2).linked.2.admits (processing_of_preparesNext hnext)
  refine (Node.Reachable.intact_iff (by decide) (hreach.node 2) [] hadmits.embedded).mpr ?_
  rintro q hq hbreaks
  cases hq
  exact hbreaks.interrupted ⟨hviews, hprimary.trans hui.symm, hreplica.trans hui.symm⟩

def leavesTrace (s : Replica) : Bool :=
  match Replica.processCertifiedMessage (brokenNetwork.params 2) [] (.prepare brokenPrepare) s with
  | .error (.error _) s' => (s'.execution.requests.clients 2).lastPreparedSeq !=
      (s.execution.requests.clients 2).lastPreparedSeq
  | _ => false

theorem not_intact_of_leavesTrace {s : Replica} (h : leavesTrace s = true) :
    ∃ e s', Replica.processCertifiedMessage (brokenNetwork.params 2) [] (.prepare brokenPrepare) s =
      .error (.error e) s' ∧ ¬ s.Intact s' := by
  unfold leavesTrace at h
  split at h
  · next e s' heq =>
      refine ⟨e, s', heq, fun hintact => ?_⟩
      rw [hintact.requests, bne_self_eq_false] at h
      cases h
  · cases h

theorem prepared_despite_error : brokenNetwork.Admissible ∧
    HereditarilyValid brokenNetwork.crypto brokenNetwork.config
      (.certified (.prepare brokenPrepare)) ∧
    ∃ sys, System.Reachable brokenNetwork (fun _ _ _ => True) sys ∧
      (∀ x ∈ (Message.certified (.prepare brokenPrepare)).embedded,
        x ∈ (sys.nodes 2).replica.handled) ∧
      ∃ e s', Replica.processCertifiedMessage (brokenNetwork.params 2) [] (.prepare brokenPrepare)
        (sys.nodes 2).replica = .error (.error e) s' ∧ ¬ (sys.nodes 2).replica.Intact s' := by
  refine ⟨brokenNetwork_admissible, hereditarilyValid_of_accepted (by decide +kernel), ?_⟩
  have h : ((System.init brokenNetwork).exec brokenNetwork (fun _ _ _ => true)
      breaking.dropLast).any (fun sys => preparesNext brokenPrepare 4 (sys.nodes 2) &&
        leavesTrace (sys.nodes 2).replica) = true := by
    decide +kernel
  obtain ⟨sys, hreach, hsys⟩ := System.exists_reachable (fun _ _ _ _ => trivial) h
  rw [Bool.and_eq_true] at hsys
  have hadmits := (hreach.node 2).linked.2.admits (processing_of_preparesNext hsys.1)
  exact ⟨sys, hreach, hadmits.embedded, not_intact_of_leavesTrace hsys.2⟩

end Concrete

end MinBFT
