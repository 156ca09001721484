import MinBFT.Embedded
import MinBFT.Transition

/-!
# What taking a message into account can do

`Execution.take` first prepares requests, then has the commitment accepted and counted, and finally
executes requests when the threshold has been reached. `Taken` lists where it can stop.
-/

namespace MinBFT

namespace Commitments

/-- The acceptor, the counter and their history for one commitment in view `w`; the Boolean tells
if the threshold has been reached. -/
def record (msg : CertifiedMessage) (w : UInt64) (c : Commitments) :
    Except Error (Bool × Commitments) :=
  (c.acceptCommitment msg.replicaID (msg.proposed.kind = .newView) w msg.proposed.counter
    msg.counter).map fun c =>
      let res := { c with accepted := c.accepted ++ [msg] }.countCommitment w msg.proposed.counter
      (res.1, if res.1 then { res.2 with completed := res.2.completed ++ [msg.proposed] }
        else res.2)

end Commitments

def CertifiedMessage.requests : CertifiedMessage → Option (List Request)
  | .prepare m => some [m.request]
  | .newView m => extractPreparedRequests m.newViewCert
  | _ => none

/-- They are embedded in the proposal. -/
theorem CertifiedMessage.of_requests {P : Message → Prop} {m : CertifiedMessage}
    {reqs : List Request} (hm : ∀ x ∈ (Message.certified m).embedded, Hereditarily P x)
    (h : m.requests = some reqs) : ∀ r ∈ reqs, P (.request r) := by
  cases m with
  | prepare m =>
      cases h
      intro r hr
      rw [List.mem_singleton.mp hr]
      exact (hm _ List.mem_cons_self).self
  | newView m =>
      exact Hereditarily.extracted (fun vc hvc => hm _ (List.mem_map.mpr ⟨vc, hvc, rfl⟩)) h
  | _ => cases h

theorem CertifiedMessage.of_requests_proposed {P : Message → Prop} {m : CertifiedMessage}
    {reqs : List Request} (hm : ∀ x ∈ (Message.certified m).embedded, Hereditarily P x)
    (h : m.proposed.requests = some reqs) : ∀ r ∈ reqs, P (.request r) := by
  cases m with
  | commit c =>
      have hprop := hm _ (List.mem_singleton.mpr rfl)
      exact of_requests (fun x hx => hprop.of_embedded hx) h
  | _ => exact of_requests hm h

namespace Execution

def prepareFor : CertifiedMessage → Requests.Action Unit
  | .prepare m => do
      if !(← Requests.prepareReq m.request) then throw (.error .requestAlreadyPrepared)
  | .newView m =>
      match extractPreparedRequests m.newViewCert with
      | none => throw (.panic .unexpectedLogEntry)
      | some prepared => Requests.prepareAll prepared
  | _ => pure ()

theorem takeCommitment_eq {msg : CertifiedMessage} {isNewView : Bool} {w : UInt64}
    (hkind : isNewView = (msg.proposed.kind = .newView : Bool)) (s : Execution) :
    takeCommitment msg isNewView w s = match s.commitments.record msg w with
      | .error e => .error (.error (.cannotAcceptCommitment e)) s
      | .ok (done, commitments) => .ok done { s with commitments } := by
  subst hkind
  unfold takeCommitment Commitments.record
  simp only [EStateM.bind_apply, EStateM.get_apply]
  cases s.commitments.acceptCommitment msg.replicaID (msg.proposed.kind = .newView) w
    msg.proposed.counter msg.counter with
  | error e => rfl
  | ok c => rfl

inductive Collected (m : CertifiedMessage) (w : UInt64) (s : Execution) :
    EStateM.Result Fault Execution Unit → Prop where
  | rejected {e : Error} (hrecord : s.commitments.record m w = .error e) :
      Collected m w s (.error (.error (.cannotAcceptCommitment e)) s)
  | counted {c : Commitments} (hrecord : s.commitments.record m w = .ok (false, c)) :
      Collected m w s (.ok () { s with commitments := c })
  | unexpected {c : Commitments} (hrecord : s.commitments.record m w = .ok (true, c))
      (hreqs : m.proposed.requests = none) :
      Collected m w s (.error (.panic .unexpectedLogEntry) { s with commitments := c })
  | panicked {c : Commitments} {reqs : List Request} {e : Fault} {r : Requests}
      (hrecord : s.commitments.record m w = .ok (true, c))
      (hreqs : m.proposed.requests = some reqs)
      (hexec : Requests.executeAll reqs s.requests = .error e r) :
      Collected m w s (.error e ⟨r, c⟩)
  | executed {c : Commitments} {reqs : List Request} {r : Requests}
      (hrecord : s.commitments.record m w = .ok (true, c))
      (hreqs : m.proposed.requests = some reqs)
      (hexec : Requests.executeAll reqs s.requests = .ok () r) :
      Collected m w s (.ok () ⟨r, c⟩)

theorem executeAll_singleton (r : Request) (s : Requests) :
    Requests.executeAll [r] s = Requests.executeRequest r s := by
  rw [Requests.executeAll, EStateM.bind_apply]
  cases Requests.executeRequest r s <;> rfl

theorem collectCommitment_cases {m : CertifiedMessage} {w : UInt64}
    (hview : m.messageView = some w) (s : Execution) :
    Collected m w s (collectCommitment m s) := by
  have hkind := CertifiedMessage.kind_of_messageView hview
  unfold CertifiedMessage.messageView at hview
  unfold collectCommitment
  rw [if_neg hkind]
  cases hprop : m.proposed with
  | prepare prop =>
      rw [hprop] at hview
      cases hview
      dsimp only
      rw [EStateM.bind_apply, takeCommitment_eq (by simp [hprop, CertifiedMessage.kind])]
      have hreqs : m.proposed.requests = some [prop.request] := by
        rw [hprop]
        rfl
      cases hrecord : s.commitments.record m prop.view with
      | error e => exact .rejected hrecord
      | ok res =>
          obtain ⟨done, c⟩ := res
          cases done with
          | false => exact .counted hrecord
          | true =>
              simp only [if_true, onRequests]
              cases hexec : Requests.executeRequest prop.request s.requests with
              | ok _ r => exact .executed hrecord hreqs ((executeAll_singleton _ _).trans hexec)
              | error e r => exact .panicked hrecord hreqs ((executeAll_singleton _ _).trans hexec)
  | newView prop =>
      rw [hprop] at hview
      cases hview
      dsimp only
      rw [EStateM.bind_apply, takeCommitment_eq (by simp [hprop, CertifiedMessage.kind])]
      have hreqs : m.proposed.requests = extractPreparedRequests prop.newViewCert := by
        rw [hprop]
        rfl
      cases hrecord : s.commitments.record m prop.newView with
      | error e => exact .rejected hrecord
      | ok res =>
          obtain ⟨done, c⟩ := res
          cases done with
          | false => exact .counted hrecord
          | true =>
              simp only [if_true, acceptNewView, extractPrepared]
              cases hextract : extractPreparedRequests prop.newViewCert with
              | none => exact .unexpected hrecord (hreqs.trans hextract)
              | some reqs =>
                  simp only [EStateM.bind_apply, EStateM.pure_apply, onRequests]
                  cases hexec : Requests.executeAll reqs s.requests with
                  | ok _ r => exact .executed hrecord (hreqs.trans hextract) hexec
                  | error e r => exact .panicked hrecord (hreqs.trans hextract) hexec
  | commit prop =>
      rw [hprop] at hview
      cases hview
  | viewChange prop =>
      rw [hprop] at hview
      cases hview

inductive Taken (m : CertifiedMessage) (w : UInt64) (s : Execution) :
    EStateM.Result Fault Execution Unit → Prop where
  | unprepared {e : Fault} {r : Requests} (hprep : prepareFor m s.requests = .error e r) :
      Taken m w s (.error e { s with requests := r })
  | failed {e : Fault} {r : Requests} {x : Execution} (wrap : Error → Error)
      (hprep : prepareFor m s.requests = .ok () r)
      (hcollect : Collected m w { s with requests := r } (.error e x)) :
      Taken m w s (.error (Fault.wrap wrap e) x)
  | taken {r : Requests} {x : Execution} (hprep : prepareFor m s.requests = .ok () r)
      (hcollect : Collected m w { s with requests := r } (.ok () x)) : Taken m w s (.ok () x)

theorem taken_of_collect {m : CertifiedMessage} {w : UInt64} {s : Execution} {r : Requests}
    {wrap : Error → Error} (hview : m.messageView = some w)
    (hprep : prepareFor m s.requests = .ok () r) :
    Taken m w s ((collectCommitment m).adaptExcept (Fault.wrap wrap)
      { s with requests := r }) := by
  have h := collectCommitment_cases hview { s with requests := r }
  rw [EStateM.adaptExcept_apply]
  cases hres : collectCommitment m { s with requests := r } with
  | ok _ x => exact .taken hprep (hres ▸ h)
  | error e x => exact .failed wrap hprep (hres ▸ h)

theorem prepareFor_prepare (q : Prepare) (r : Requests) :
    prepareFor (.prepare q) r = match Requests.prepareReq q.request r with
      | .ok b r' => if !b then .error (.error .requestAlreadyPrepared) r' else .ok () r'
      | .error e r' => .error e r' := by
  rw [prepareFor, EStateM.bind_apply]
  cases Requests.prepareReq q.request r with
  | ok b r' => cases b <;> rfl
  | error e r' => rfl

theorem state_prepareFor_prepare (q : Prepare) (r : Requests) :
    (prepareFor (.prepare q) r).state = (Requests.prepareReq q.request r).state := by
  rw [prepareFor_prepare]
  cases Requests.prepareReq q.request r with
  | ok b r' => cases b <;> rfl
  | error e r' => rfl

/-- The request of a Prepare has been prepared before, has not been captured, or gets prepared. -/
theorem prepareFor_prepare_cases (q : Prepare) (r : Requests) :
    (q.request.sequence ≤ (r.clients q.request.clientID).lastPreparedSeq ∧
        prepareFor (.prepare q) r = .error (.error .requestAlreadyPrepared) r) ∨
      (r.clients q.request.clientID).lastPreparedSeq < q.request.sequence ∧
        (((r.clients q.request.clientID).lastCapturedSeq < q.request.sequence ∧
            prepareFor (.prepare q) r = .error (.panic .requestNotCaptured) r) ∨
          q.request.sequence ≤ (r.clients q.request.clientID).lastCapturedSeq ∧
            prepareFor (.prepare q) r = .ok () (r.markPrepared q.request)) := by
  rw [prepareFor_prepare]
  rcases Requests.prepareReq_cases q.request r with
    ⟨hle, heq⟩ | ⟨hnew, ⟨hlt, heq⟩ | ⟨hcap, heq⟩⟩ <;> rw [heq]
  · exact .inl ⟨hle, rfl⟩
  · exact .inr ⟨hnew, .inl ⟨hlt, rfl⟩⟩
  · exact .inr ⟨hnew, .inr ⟨hcap, rfl⟩⟩

theorem take_cases {m : CertifiedMessage} {w : UInt64} (hview : m.messageView = some w)
    (s : Execution) : Taken m w s (take m s) := by
  cases m with
  | prepare m =>
      simp only [take, takePrepare, EStateM.bind_apply, onRequests]
      have hprep := prepareFor_prepare m s.requests
      cases hreq : Requests.prepareReq m.request s.requests with
      | error e r =>
          rw [hreq] at hprep
          exact .unprepared hprep
      | ok b r =>
          rw [hreq] at hprep
          cases b with
          | false => exact .unprepared hprep
          | true => exact taken_of_collect hview hprep
  | commit m => exact taken_of_collect hview rfl
  | newView m =>
      simp only [take, takeNewView, EStateM.bind_apply, onRequests, extractPrepared]
      cases hextract : extractPreparedRequests m.newViewCert with
      | none =>
          refine .unprepared (e := .panic .unexpectedLogEntry) (r := s.requests) ?_
          simp only [prepareFor, hextract]
          rfl
      | some reqs =>
          have hprep : prepareFor (.newView m) s.requests =
              Requests.prepareAll reqs s.requests := by
            simp only [prepareFor, hextract]
          simp only [EStateM.pure_apply]
          cases hall : Requests.prepareAll reqs s.requests with
          | error e r => exact .unprepared (hprep.trans hall)
          | ok _ r => exact taken_of_collect hview (hprep.trans hall)
  | viewChange m => cases hview

theorem prepareFor_steps (m : CertifiedMessage) (r : Requests) :
    Requests.Steps r (prepareFor m r).state := by
  cases m with
  | prepare m =>
      rw [state_prepareFor_prepare]
      exact Requests.prepareReq_steps m.request r
  | newView m =>
      rw [prepareFor]
      cases extractPreparedRequests m.newViewCert with
      | none => exact .refl
      | some reqs => exact Requests.prepareAll_steps reqs r
  | _ => exact .refl

theorem Collected.requests_steps {m : CertifiedMessage} {w : UInt64} {s : Execution}
    {res : EStateM.Result Fault Execution Unit} (h : Collected m w s res) :
    Requests.Steps s.requests res.state.requests := by
  have hexec {reqs : List Request} {res' : EStateM.Result Fault Requests Unit}
      (heq : Requests.executeAll reqs s.requests = res') : Requests.Steps s.requests res'.state :=
    heq ▸ Requests.executeAll_steps reqs s.requests
  cases h with
  | panicked _ _ heq => exact hexec heq
  | executed _ _ heq => exact hexec heq
  | _ => exact .refl

/-- Taking a message into account changes the requests only step by step. -/
theorem Taken.requests_steps {m : CertifiedMessage} {w : UInt64} {s : Execution}
    {res : EStateM.Result Fault Execution Unit} (h : Taken m w s res) :
    Requests.Steps s.requests res.state.requests := by
  have hsteps := prepareFor_steps m s.requests
  cases h with
  | unprepared hprep =>
      rw [hprep] at hsteps
      exact hsteps
  | failed _ hprep hcollect =>
      rw [hprep] at hsteps
      exact hsteps.trans hcollect.requests_steps
  | taken hprep hcollect =>
      rw [hprep] at hsteps
      exact hsteps.trans hcollect.requests_steps

/-- Only requests of the message and its proposal are prepared and executed. -/
theorem prepareFor_holding {Q : Request → Prop} {m : CertifiedMessage} {r : Requests}
    (h : r.Holding Q) (hm : ∀ reqs, m.requests = some reqs → ∀ r ∈ reqs, Q r) :
    (prepareFor m r).state.Holding Q := by
  cases m with
  | prepare m =>
      rw [state_prepareFor_prepare]
      exact h.prepareReq (hm _ rfl m.request List.mem_cons_self)
  | newView m =>
      rw [prepareFor]
      cases hextract : extractPreparedRequests m.newViewCert with
      | none => exact h
      | some reqs => exact h.prepareAll (hm reqs hextract)
  | _ => exact h

theorem Collected.holding {Q : Request → Prop} {m : CertifiedMessage} {w : UInt64} {s : Execution}
    {res : EStateM.Result Fault Execution Unit} (h : Collected m w s res)
    (hs : s.requests.Holding Q) (hm : ∀ reqs, m.proposed.requests = some reqs → ∀ r ∈ reqs, Q r) :
    res.state.requests.Holding Q := by
  cases h with
  | panicked _ hreqs hexec =>
      have hall := hs.executeAll (hm _ hreqs)
      rwa [hexec] at hall
  | executed _ hreqs hexec =>
      have hall := hs.executeAll (hm _ hreqs)
      rwa [hexec] at hall
  | _ => exact hs

theorem Taken.holding {Q : Request → Prop} {m : CertifiedMessage} {w : UInt64} {s : Execution}
    {res : EStateM.Result Fault Execution Unit} (h : Taken m w s res)
    (hs : s.requests.Holding Q) (hm : ∀ reqs, m.requests = some reqs → ∀ r ∈ reqs, Q r)
    (hprop : ∀ reqs, m.proposed.requests = some reqs → ∀ r ∈ reqs, Q r) :
    res.state.requests.Holding Q := by
  have hprep := prepareFor_holding hs hm
  cases h with
  | unprepared heq =>
      rw [heq] at hprep
      exact hprep
  | failed _ heq hcollect =>
      rw [heq] at hprep
      exact hcollect.holding hprep hprop
  | taken heq hcollect =>
      rw [heq] at hprep
      exact hcollect.holding hprep hprop

end Execution

namespace Replica

theorem Transition.taken {m : CertifiedMessage} {s : Replica} (happ : s.Applicable m)
    {res : EStateM.Result Fault Execution Unit} (htake : Execution.take m s.execution = res) :
    Execution.Taken m s.expectedView s.execution res :=
  htake ▸ Execution.take_cases happ.messageView s.execution

end Replica

end MinBFT
