import MinBFT.CommitQuorums
import MinBFT.Delivering
import MinBFT.Determined
import MinBFT.Integrity
import MinBFT.OwnLog

/-!
# Captured before prepared, prepared before executed

A request is prepared only with a proposal it is embedded in, and has been captured when that was
handled. Executing a request that is not prepared takes a commitment to a proposal the replica has
not applied in its view. As long as no NewView is processed ahead of the expected view and
commitments to NewViews agree, there is none.
-/

namespace MinBFT

section Extraction

variable {crypto : Crypto}

theorem exists_replayed {extract : List ViewChange → Option (List Request)}
    {log : List CertifiedMessage} (hprop : ∀ m ∈ log, (∃ q, m.proposed = .prepare q) ∨
      ∃ nv reqs, m.proposed = .newView nv ∧ extract nv.newViewCert = some reqs)
    (prepared : List Request) : ∃ reqs, log.foldlM (replayStep extract) prepared = some reqs := by
  induction log generalizing prepared with
  | nil => exact ⟨prepared, rfl⟩
  | cons m log ih =>
      have htail := ih fun x hx => hprop x (.tail m hx)
      rw [List.foldlM_cons]
      rcases hprop m List.mem_cons_self with ⟨q, hq⟩ | ⟨nv, reqs, hnv, hreqs⟩
      · rw [replayStep_prepare hq]
        exact htail _
      · rw [replayStep_newView hnv, hreqs]
        exact htail _

/-- No entry of a sound message log is unexpected. -/
theorem exists_extracted {cert : List ViewChange}
    (h : ∀ vc ∈ cert, HereditarilySound crypto (.certified (.viewChange vc))) :
    ∃ reqs, extractPreparedRequests cert = some reqs := by
  induction hd : certDepth cert using Nat.strong_induction_on generalizing cert with
  | _ d ih =>
    subst hd
    by_cases hmax : (scanCert cert).2 = []
    · by_cases hnone : (scanCert cert).1 = []
      · exact ⟨[], extract_of_empty hmax hnone⟩
      · rw [extract_of_maxLog_nil hmax hnone]
        refine ih _ (certDepth_leading_lt (List.length_pos_iff.mpr hnone)) (fun vc hvc => ?_) rfl
        rw [scanCert_fst] at hvc
        obtain ⟨vc', hvc', hleading⟩ := List.mem_filterMap.mp hvc
        exact (h vc' hvc').messageLog (mem_of_leadingViewChange hleading)
    · rw [extract_of_maxLog_ne_nil hmax]
      rcases maxLog_mem cert with hnil | ⟨vc, hvc, heq⟩
      · exact absurd hnil hmax
      · refine exists_replayed (fun m hm => ?_) []
        have hmem : m ∈ withoutLeading vc.messageLog := heq ▸ hm
        refine (proposed_of_mem_withoutLeading (h vc hvc) hmem).imp_right ?_
        rintro ⟨nv, hnv⟩
        have hsound := ((h vc hvc).messageLog (mem_of_mem_withoutLeading hmem)).proposed
        rw [hnv] at hsound
        obtain ⟨reqs, hreqs⟩ := ih _ (certDepth_newView_lt hm hnv)
          (fun vc hvc => hsound.newViewCert hvc) rfl
        exact ⟨nv, reqs, hnv, hreqs⟩

theorem exists_requests {m : CertifiedMessage} {w : UInt64}
    (h : HereditarilySound crypto (.certified m)) (hview : m.messageView = some w) :
    ∃ reqs, m.proposed.requests = some reqs := by
  have hprop := h.proposed
  unfold CertifiedMessage.messageView at hview
  cases hm : m.proposed with
  | prepare q => exact ⟨_, rfl⟩
  | newView nv =>
      rw [hm] at hprop
      exact exists_extracted fun vc hvc => hprop.newViewCert hvc
  | _ =>
      rw [hm] at hview
      cases hview

end Extraction

namespace Requests

variable {s s' : Requests} {reqs : List Request} {r : Request}

theorem Steps.lastPreparedSeq_le (h : Steps s s') (id : UInt32) :
    (s.clients id).lastPreparedSeq ≤ (s'.clients id).lastPreparedSeq := by
  induction h with
  | refl => exact UInt64.le_refl _
  | tail _ hstep ih =>
      refine UInt64.le_trans ih ?_
      cases hstep with
      | @prepared r s hnew _ =>
          by_cases hid : id = r.clientID
          · subst hid
            simpa [markPrepared] using UInt64.le_of_lt hnew
          · simp [markPrepared, hid]
      | @delivered r s _ _ =>
          by_cases hid : id = r.clientID
          · subst hid
            simp [markDelivered]
          · simp [markDelivered, hid]

theorem prepareReq_prepared {new : Bool} (h : prepareReq r s = .ok new s') :
    r.sequence ≤ (s'.clients r.clientID).lastPreparedSeq := by
  rcases prepareReq_cases r s with ⟨hle, heq⟩ | ⟨-, ⟨-, heq⟩ | ⟨-, heq⟩⟩
  · cases heq.symm.trans h
    exact hle
  · cases heq.symm.trans h
  · cases heq.symm.trans h
    simp [markPrepared]

theorem prepareAll_prepared (h : prepareAll reqs s = .ok () s') :
    ∀ r ∈ reqs, r.sequence ≤ (s'.clients r.clientID).lastPreparedSeq := by
  induction reqs generalizing s with
  | nil => exact fun _ hr => absurd hr List.not_mem_nil
  | cons x reqs ih =>
      rw [prepareAll, EStateM.bind_apply] at h
      cases hx : prepareReq x s with
      | error e s₁ =>
          rw [hx] at h
          cases h
      | ok new s₁ =>
          rw [hx] at h
          have hrest : prepareAll reqs s₁ = .ok () s' := h
          intro r hr
          rcases List.mem_cons.mp hr with rfl | hr
          · have hsteps := prepareAll_steps reqs s₁
            rw [hrest] at hsteps
            exact UInt64.le_trans (prepareReq_prepared hx) (hsteps.lastPreparedSeq_le _)
          · exact ih h r hr

theorem prepareReq_not_captured {e : Fault} (h : prepareReq r s = .error e s') :
    (s.clients r.clientID).lastCapturedSeq < r.sequence := by
  rcases prepareReq_cases r s with ⟨-, heq⟩ | ⟨-, ⟨hlt, -⟩ | ⟨-, heq⟩⟩
  · cases heq.symm.trans h
  · exact hlt
  · cases heq.symm.trans h

theorem prepareAll_not_captured {e : Fault} (h : prepareAll reqs s = .error e s') :
    ∃ r ∈ reqs, (s.clients r.clientID).lastCapturedSeq < r.sequence := by
  induction reqs generalizing s with
  | nil => cases h
  | cons x reqs ih =>
      rw [prepareAll, EStateM.bind_apply] at h
      cases hx : prepareReq x s with
      | error e s₁ => exact ⟨x, List.mem_cons_self, prepareReq_not_captured hx⟩
      | ok new s₁ =>
          rw [hx] at h
          have hsteps := prepareReq_steps x s
          rw [hx] at hsteps
          obtain ⟨r, hr, hlt⟩ := ih h
          exact ⟨r, .tail x hr, hsteps.lastCapturedSeq r.clientID ▸ hlt⟩

theorem executeAll_not_prepared {e : Fault} (h : executeAll reqs s = .error e s') :
    ∃ r ∈ reqs, (s.clients r.clientID).lastPreparedSeq < r.sequence := by
  by_contra hno
  have hprep : ∀ r ∈ reqs, r.sequence ≤ (s.clients r.clientID).lastPreparedSeq := fun r hr =>
    UInt64.not_lt.mp fun hlt => hno ⟨r, hr, hlt⟩
  obtain ⟨s₁, hok⟩ := executeAll_ok hprep
  cases hok.symm.trans h

end Requests

namespace Execution

variable {c : CertifiedMessage} {x y : Execution} {r r' : Requests} {reqs : List Request}

theorem prepareFor_prepared (h : prepareFor c r = .ok () r') (hreqs : c.requests = some reqs) :
    ∀ q ∈ reqs, q.sequence ≤ (r'.clients q.clientID).lastPreparedSeq := by
  cases c with
  | prepare m =>
      cases hreqs
      intro q hq
      cases List.mem_singleton.mp hq
      rcases prepareFor_prepare_cases m r with
        ⟨-, heq⟩ | ⟨-, ⟨-, heq⟩ | ⟨-, heq⟩⟩ <;> cases h.symm.trans heq
      simp [Requests.markPrepared]
  | newView m =>
      have hextract : extractPreparedRequests m.newViewCert = some reqs := hreqs
      simp only [prepareFor, hextract] at h
      exact Requests.prepareAll_prepared h
  | _ => cases hreqs

/-- Preparing panics only on a request that has not been captured. -/
theorem prepareFor_not_captured {q : Panic} (h : prepareFor c r = .error (.panic q) r')
    (hreqs : c.requests = some reqs) :
    ∃ x ∈ reqs, (r.clients x.clientID).lastCapturedSeq < x.sequence := by
  cases c with
  | prepare m =>
      cases hreqs
      rcases prepareFor_prepare_cases m r with
        ⟨-, heq⟩ | ⟨-, ⟨hlt, heq⟩ | ⟨-, heq⟩⟩ <;> cases h.symm.trans heq
      exact ⟨_, List.mem_cons_self, hlt⟩
  | newView m =>
      have hextract : extractPreparedRequests m.newViewCert = some reqs := hreqs
      simp only [prepareFor, hextract] at h
      exact Requests.prepareAll_not_captured h
  | _ => cases hreqs

theorem eq_panic_of_wrap {w : Error → Error} {e : Fault} {q : Panic}
    (h : Fault.wrap w e = .panic q) : e = .panic q := by
  cases e with
  | error e => cases h
  | panic q' => exact h

/-- Once its requests are known to have been captured, only executing what a Commit completes can
panic. -/
theorem take_panics {w : UInt64} {q : Panic} (hview : c.messageView = some w)
    (hreqs : c.proposed.requests = some reqs)
    (hcap : ∀ r ∈ reqs, r.sequence ≤ (x.requests.clients r.clientID).lastCapturedSeq)
    (h : take c x = .error (.panic q) y) :
    q = .requestNotPrepared ∧ c.kind = .commit ∧
      ∃ r ∈ reqs, (x.requests.clients r.clientID).lastPreparedSeq < r.sequence := by
  have htaken := take_cases hview x
  rw [h] at htaken
  -- a Commit prepares nothing, anything else is its own proposal
  have hself : c.kind = .commit ∧ prepareFor c x.requests = .ok () x.requests ∨
      c.requests = some reqs := by
    cases c with
    | commit m => exact .inl ⟨rfl, rfl⟩
    | _ => exact .inr hreqs
  generalize hres : (EStateM.Result.error (.panic q) y : EStateM.Result Fault Execution Unit) = res
    at htaken
  cases htaken with
  | taken => cases hres
  | unprepared hprep =>
      cases hres
      rcases hself with ⟨-, heq⟩ | hself
      · cases heq.symm.trans hprep
      · obtain ⟨r, hr, hlt⟩ := prepareFor_not_captured hprep hself
        exact absurd (hcap r hr) (UInt64.not_le.mpr hlt)
  | @failed e r z wrap hprep hcollect =>
      injection hres with hwrap _
      have he := eq_panic_of_wrap hwrap.symm
      subst he
      cases hcollect with
      | unexpected _ hnone => cases hreqs.symm.trans hnone
      | panicked _ hsome hexec =>
          cases hreqs.symm.trans hsome
          have hq := Requests.executeAll_panics hexec
          cases hq
          obtain ⟨a, ha, hlt⟩ := Requests.executeAll_not_prepared hexec
          rcases hself with ⟨hkind, heq⟩ | hself
          · cases heq.symm.trans hprep
            exact ⟨rfl, hkind, a, ha, hlt⟩
          · exact absurd (prepareFor_prepared hprep hself a ha) (UInt64.not_le.mpr hlt)

end Execution

namespace Replica

variable {p : Params} {order : List Request} {C : Replica → Message → Prop} {s s' : Replica}
  {m : Message}

/-- The requests of a proposal have been captured by the time it is processed. -/
theorem History.captured {c : CertifiedMessage} {reqs : List Request} (h : History p s)
    (hemb : ∀ x ∈ (Message.certified c).embedded, x ∈ s.handled)
    (hreqs : c.proposed.requests = some reqs) : ∀ r ∈ reqs,
      r.sequence ≤ (s.execution.requests.clients r.clientID).lastCapturedSeq := by
  intro r hr
  refine h.request r (CertifiedMessage.of_requests_proposed (P := (· ∈ s.handled))
    (fun x hx => ?_) hreqs r hr)
  exact h.hereditarily (hemb x hx)

theorem Run.handled_sound (hid : p.id < p.config.n) (htol : p.config.Tolerant) (h : s.Run p C) :
    ∀ x ∈ s.handled, HereditarilySound p.crypto x := by
  induction h with
  | init => exact fun _ hx => absurd hx List.not_mem_nil
  | @process s s' m order hrun hadmits _ htrans _ ih =>
      intro x hx
      rcases htrans.handled_cases with heq | ⟨heq, -⟩
      · exact ih x (heq ▸ hx)
      · rw [heq] at hx
        rcases List.mem_append.mp hx with hx | hx
        · exact ih x hx
        · cases List.mem_singleton.mp hx
          exact hrun.sound hid htol hadmits
  | timeout _ _ _ ih => simpa using ih

/-- What has been processed and applied for the expected view, and prepared with it. -/
structure Ready (s : Replica) : Prop where
  bound : ∀ c ∈ s.processed, ∀ v, c.messageView = some v → v ≤ s.expectedView
  processed : ∀ c ∈ s.applied, c ∈ s.processed
  applied : ∀ q, .prepare q ∈ s.processed → q.view = s.expectedView → .prepare q ∈ s.applied
  accepted : ∀ nv, .newView nv ∈ s.applied → .newView nv ∈ s.execution.commitments.accepted
  prepared : ∀ c ∈ s.applied, c.messageView = some s.expectedView →
    ∀ reqs, c.requests = some reqs → ∀ r ∈ reqs,
      r.sequence ≤ (s.execution.requests.clients r.clientID).lastPreparedSeq

/-- Messages processed without being applied change nothing, unless they are Prepares of the
expected view. -/
theorem Ready.extend {l : List CertifiedMessage} (h : Ready s)
    (hproc : s'.processed = s.processed ++ l) (happ : s'.applied = s.applied)
    (hexp : s'.expectedView = s.expectedView)
    (hacc : s.execution.commitments.accepted ⊆ s'.execution.commitments.accepted)
    (hprep : ∀ id, (s.execution.requests.clients id).lastPreparedSeq ≤
      (s'.execution.requests.clients id).lastPreparedSeq)
    (hbound : ∀ c ∈ l, ∀ v, c.messageView = some v → v ≤ s.expectedView)
    (hskip : ∀ q, .prepare q ∈ l → q.view ≠ s.expectedView) : Ready s' := by
  refine ⟨?_, ?_, ?_, ?_, ?_⟩
  · rw [hproc, hexp]
    exact fun c hc => (List.mem_append.mp hc).elim (h.bound c) (hbound c)
  · rw [happ, hproc]
    exact fun c hc => List.mem_append_left _ (h.processed c hc)
  · rw [hproc, hexp, happ]
    intro q hq hview
    rcases List.mem_append.mp hq with hq | hq
    · exact h.applied q hq hview
    · exact absurd hview (hskip q hq)
  · rw [happ]
    exact fun nv hnv => hacc (h.accepted nv hnv)
  · rw [happ, hexp]
    exact fun c hc hview reqs hreqs r hr =>
      UInt64.le_trans (h.prepared c hc hview reqs hreqs r hr) (hprep _)

theorem Transition.accepted_subset (h : Transition p order m s s')
    (hbound : s.execution.commitments.lastView ≤ s.expectedView) :
    s.execution.commitments.accepted ⊆ s'.execution.commitments.accepted := by
  rcases h.commitments_cases with heq | ⟨c, done, -, -, -, hrec⟩
  · rw [heq]
    exact List.Subset.refl _
  · rw [(Commitments.recorded hbound hrec).accepted]
    exact List.subset_append_left _ _

theorem Ready.apply {c : CertifiedMessage} {x : Execution} (h : Ready s) (happ : s.Applicable c)
    (hbound : s.execution.commitments.lastView ≤ s.expectedView)
    (htake : Execution.take c s.execution = .ok () x) :
    Ready (((s.complete p order c x).advance c).handle (.certified c)) := by
  have htaken := Transition.taken happ htake
  obtain ⟨done, hrec⟩ := htaken.recorded
  have hacc := (Commitments.recorded hbound hrec).accepted
  refine ⟨?_, ?_, ?_, ?_, ?_⟩
  · intro a ha v hv
    rcases List.mem_append.mp ha with ha | ha
    · exact h.bound a ha v hv
    · cases List.mem_singleton.mp ha
      exact UInt64.le_of_eq (Option.some.inj (hv.symm.trans happ.messageView))
  · intro a ha
    rcases List.mem_append.mp ha with ha | ha
    · exact List.mem_append_left _ (h.processed a ha)
    · exact List.mem_append_right _ ha
  · intro q hq hview
    rcases List.mem_append.mp hq with hq | hq
    · exact List.mem_append_left _ (h.applied q hq hview)
    · exact List.mem_append_right _ hq
  · intro nv hnv
    change _ ∈ x.commitments.accepted
    rw [hacc]
    rcases List.mem_append.mp hnv with hnv | hnv
    · exact List.mem_append_left _ (h.accepted nv hnv)
    · exact List.mem_append_right _ hnv
  · intro a ha hview reqs hreqs r hr
    rcases List.mem_append.mp ha with ha | ha
    · exact UInt64.le_trans (h.prepared a ha hview reqs hreqs r hr)
        (htaken.requests_steps.lastPreparedSeq_le _)
    · cases List.mem_singleton.mp ha
      cases htaken with
      | taken hprep hcollect =>
          exact UInt64.le_trans (Execution.prepareFor_prepared hprep hreqs r hr)
            (hcollect.requests_steps.lastPreparedSeq_le _)

theorem Ready.transition (h : Ready s) (ho : Ordered s) (hc : s.Timely m)
    (hbound : s.execution.commitments.lastView ≤ s.expectedView)
    (htrans : Transition p order m s s') : Ready s' := by
  have hacc := htrans.accepted_subset hbound
  have hframe {l : List CertifiedMessage} (hproc : s'.processed = s.processed ++ l)
      (happ : s'.applied = s.applied) (hexp : s'.expectedView = s.expectedView)
      (hprep : ∀ id, (s.execution.requests.clients id).lastPreparedSeq ≤
        (s'.execution.requests.clients id).lastPreparedSeq) := h.extend hproc happ hexp hacc hprep
  have hkeep (hproc : s'.processed = s.processed) (happ : s'.applied = s.applied)
      (hexp : s'.expectedView = s.expectedView)
      (hprep : ∀ id, (s.execution.requests.clients id).lastPreparedSeq ≤
        (s'.execution.requests.clients id).lastPreparedSeq) : Ready s' :=
    hframe (hproc.trans (List.append_nil _).symm) happ hexp hprep (by simp) (by simp)
  have hsame (id : UInt32) : (s.execution.requests.clients id).lastPreparedSeq ≤
      (s.execution.requests.clients id).lastPreparedSeq := UInt64.le_refl _
  have hcaptured {r : Request} {requests : Requests}
      (hcap : s.execution.requests.captureReq r = some requests) (id : UInt32) :
      (s.execution.requests.clients id).lastPreparedSeq ≤
        (requests.clients id).lastPreparedSeq :=
    UInt64.le_of_eq ((Requests.captureReq_frame hcap).2.2 id).symm
  cases htrans with
  | captured hcap => exact hkeep rfl rfl rfl (hcaptured hcap)
  | requested hcap => exact hkeep rfl rfl rfl (hcaptured hcap)
  | viewChange =>
      refine hframe rfl rfl rfl hsame (fun c hc v hv => ?_) (by simp)
      cases List.mem_singleton.mp hc
      cases hv
  | newView =>
      refine hframe rfl rfl rfl hsame (fun c hc v hv => ?_) (by simp)
      cases List.mem_singleton.mp hc
      cases hv
  | @dropped c _ w _ hview hle hdrop =>
      refine hframe rfl rfl rfl hsame (fun a ha v hv => ?_) fun q hq => ?_
      · cases List.mem_singleton.mp ha
        cases hview.symm.trans hv
        exact UInt64.le_trans hle ho.le
      · cases List.mem_singleton.mp hq
        cases hview
        exact hdrop (by simp [CertifiedMessage.kind])
  | skipped hnext =>
      refine hframe rfl rfl rfl hsame (fun a ha v hv => ?_) (by simp)
      cases List.mem_singleton.mp ha
      cases hv
      exact hc hnext
  | failed happ htake =>
      exact hkeep rfl rfl rfl
        (Transition.taken happ htake).requests_steps.lastPreparedSeq_le
  | applied happ htake => exact h.apply happ hbound htake
  | leftView _ hlt =>
      -- nothing has been processed for the view that is expected from now on
      have hno {c : CertifiedMessage} {w : UInt64} (hc : c ∈ s.processed)
          (hview : c.messageView = some w) (hle : s.expectedView < w) : False :=
        absurd (h.bound c hc w hview) (UInt64.not_le.mpr hle)
      refine ⟨fun c hc v hv => ?_, h.processed, fun q hq hview => ?_, h.accepted,
        fun c hc hview => ?_⟩
      · exact UInt64.le_trans (h.bound c hc v hv) (UInt64.le_of_lt hlt)
      · exact (hno hq rfl (hview ▸ hlt)).elim
      · exact (hno (h.processed c hc) hview hlt).elim
  | _ => exact hkeep rfl rfl rfl hsame

theorem Ready.requestViewChange {view : UInt64} (h : Ready s) :
    Ready (s.requestViewChange p view) := by
  unfold Replica.requestViewChange
  split_ifs <;> exact ⟨h.bound, h.processed, h.applied, h.accepted, h.prepared⟩

/-- A Commit that is applied is to a proposal whose requests have been prepared. -/
theorem Ready.prepared_of_commit {c : Commit} {reqs : List Request} (h : Ready s)
    (ho : Ordered s) (hactive : Active s) (hist : History p s)
    (hsound : ∀ x ∈ s.handled, HereditarilySound p.crypto x)
    (hsha : Function.Injective p.crypto.sha256) (huniq : UniqueUI p.crypto)
    (hprop : .certified c.proposal ∈ s.handled) (happ : s.Applicable (.commit c))
    (hcons : s.execution.commitments.Consistent (.commit c))
    (hreqs : c.proposal.requests = some reqs) :
    ∀ r ∈ reqs, r.sequence ≤ (s.execution.requests.clients r.clientID).lastPreparedSeq := by
  have hview := happ.messageView
  have hproposed : (CertifiedMessage.commit c).proposed = c.proposal := rfl
  cases hc : c.proposal with
  | prepare q =>
      -- the Prepare processed with this counter was for the view, and is not lost
      rw [hc] at hprop hreqs
      cases hreqs
      have hq : q.view = s.expectedView :=
        Option.some.inj
          ((CertifiedMessage.messageView_of_prepare (m := .commit c) hc).symm.trans hview)
      obtain ⟨c', hproc, hsame⟩ := hist.exists_sameAuthen huniq hprop
      obtain ⟨q', rfl, hbytes⟩ :=
        CertifiedMessage.eq_prepare_of_authenBytes_eq hsame.authenBytes.symm
      obtain ⟨hqview, hclient, hseq, -⟩ := Prepare.authenBytes_inj hsha hbytes
      intro r hr
      cases List.mem_singleton.mp hr
      have happlied := h.applied q' hproc (hqview.symm.trans hq)
      have hprep := h.prepared _ happlied (congrArg some (hqview.symm.trans hq)) _ rfl q'.request
        List.mem_cons_self
      rwa [hclient, hseq]
  | newView nv =>
      -- the NewView applied for the view has the same counter
      rw [hc] at hprop hreqs
      have hnv : nv.newView = s.expectedView :=
        Option.some.inj
          ((CertifiedMessage.messageView_of_newView (m := .commit c) hc).symm.trans hview)
      have hcur : s.currentView = s.expectedView :=
        UInt64.le_antisymm ho.le (happ.other (by simp [CertifiedMessage.kind]))
      have hwf := (hist.wellFormed _ hprop).self.2.2
      have hpos : s.expectedView ≠ 0 := by
        intro hz
        have hone : 1 ≤ nv.newView := hwf.1
        rw [hnv, hz] at hone
        exact absurd hone (by decide)
      obtain ⟨nv', happlied, hnv'⟩ := hactive hcur hpos
      have hhandled := hist.processed _ (h.processed _ happlied)
      have hwf' := (hist.wellFormed _ hhandled).self
      have hcv : nv'.ui.counter = nv.ui.counter := by
        have heq := hcons (by rw [hproposed, hc]; rfl) _ (h.accepted nv' happlied) rfl
          (hview ▸ congrArg some hnv')
        rw [hproposed, hc] at heq
        exact heq
      have hid : nv'.replicaID = nv.replicaID := by
        have hprim := hwf'.2.2.2
        rw [hnv', ← hnv] at hprim
        exact isPrimary_unique hprim hwf.2
      have hsame : SameAuthen p.crypto.sha256 (.newView nv') (.newView nv) :=
        huniq.sameAuthen hwf'.2.1 (hist.wellFormed _ hprop).self.2.1 hid hcv
      obtain ⟨nv₁, heq, hbytes⟩ := CertifiedMessage.eq_newView_of_authenBytes_eq hsame.authenBytes
      cases heq
      obtain ⟨reqs₁, reqs₂, hreqs₁, hreqs₂, hcontent⟩ :=
        NewView.sameExtracted hsha huniq (hsound _ hhandled) (hsound _ hprop) hbytes
      cases hreqs₂.symm.trans hreqs
      intro r hr
      have hmem : r.content ∈ reqs₁.map Request.content :=
        hcontent ▸ List.mem_map.mpr ⟨r, hr, rfl⟩
      obtain ⟨r', hr', heq⟩ := List.mem_map.mp hmem
      have hprep := h.prepared _ happlied (congrArg some hnv') reqs₁ hreqs₁ r' hr'
      obtain ⟨hclient, hseq, -⟩ : r'.clientID = r.clientID ∧ r'.sequence = r.sequence ∧ _ := by
        simpa [Request.content] using heq
      rwa [hclient, hseq] at hprep
  | commit _ =>
      rw [hc] at hreqs
      cases hreqs
  | viewChange _ =>
      rw [hc] at hreqs
      cases hreqs

/-- A message that is sound and in place makes a replica panic only when it is a Commit to a
proposal that has not been prepared. -/
theorem processMessage_panic {q : Panic} (hist : History p s) (hwf : WellFormed p.crypto p.config m)
    (hsound : HereditarilySound p.crypto m) (hemb : ∀ x ∈ m.embedded, x ∈ s.handled)
    (h : processMessage p order m s = .error (.panic q) s') :
    q = .requestNotPrepared ∧ ∃ c reqs, m = .certified (.commit c) ∧ s.Applicable (.commit c) ∧
      c.proposal.requests = some reqs ∧ ∃ r ∈ reqs,
        (s.execution.requests.clients r.clientID).lastPreparedSeq < r.sequence := by
  have hfails := processMessage_fails h
  generalize he : (Fault.panic q) = e at hfails
  cases hfails with
  | hello => exact hwf.elim
  | reply => exact hwf.elim
  | gap => cases he
  | @noView c hkind hview =>
      exfalso
      cases c with
      | commit c =>
          rcases hwf.2.2.2 with ⟨x, hx⟩ | ⟨x, hx⟩
          · cases hview.symm.trans (CertifiedMessage.messageView_of_prepare (m := .commit c) hx)
          · cases hview.symm.trans (CertifiedMessage.messageView_of_newView (m := .commit c) hx)
      | viewChange => exact hkind rfl
      | _ => cases hview
  | ahead => cases he
  | @notTaken c e x happ htake =>
      obtain rfl := Execution.eq_panic_of_wrap he.symm
      obtain ⟨reqs, hreqs⟩ := exists_requests hsound happ.messageView
      obtain ⟨hq, hkind, hlt⟩ := Execution.take_panics happ.messageView hreqs
        (hist.captured hemb hreqs) htake
      cases c with
      | commit c => exact ⟨hq, c, reqs, rfl, happ, hreqs, hlt⟩
      | _ => cases hkind

end Replica

namespace Node

variable {p : Params} {C : Replica → Message → Prop} {s : Node}

theorem Reachable.ready (hid : p.id < p.config.n) (htol : p.config.Tolerant)
    (h : s.Reachable p C) (hC : ∀ r m, C r m → r.Timely m) : s.replica.Ready := by
  induction h with
  | init => constructor <;> intro _ hx <;> exact absurd hx List.not_mem_nil
  | @step s s' l h hstep hcond ih =>
      obtain ⟨-, hstepped, -⟩ := step_cases hstep
      rcases hstepped.replica_cases with heq | ⟨view, -, heq⟩ | ⟨m, order, hproc, heq, -⟩
      · exact heq ▸ ih
      · exact heq ▸ ih.requestViewChange
      · rw [heq]
        exact ih.transition (h.ordered hC).1 (hC _ _ (hcond m hproc))
          (h.run.tracks hid htol).bound (Replica.processMessage_transition m _)

/-- As long as no NewView is processed ahead of the expected view and commitments to NewViews agree,
no request is prepared before it is captured or executed before it is prepared. -/
theorem Reachable.processMessage_ne_panic {l : Label} {m : Message} {order : List Request}
    {q : Panic} {r : Replica} (hid : p.id < p.config.n) (htol : p.config.Tolerant)
    (hsha : Function.Injective p.crypto.sha256) (huniq : UniqueUI p.crypto)
    (h : s.Reachable p C) (hC : ∀ r m, C r m → r.Timely m ∧ r.Unequivocal m)
    (hlive : s.crashed = none) (hproc : s.processing l = some m) (hm : C s.replica m) :
    Replica.processMessage p order m s.replica ≠ .error (.panic q) r := by
  intro hpanic
  have hadmits := h.linked.2.admits hproc
  have hist := h.run.history hid
  obtain ⟨hordered, hactive⟩ := h.ordered fun r m hc => (hC r m hc).1
  have hready := h.ready hid htol fun r m hc => (hC r m hc).1
  obtain ⟨-, c, reqs, rfl, happ, hreqs, a, ha, hlt⟩ := Replica.processMessage_panic hist
    (h.run.admitted hid hadmits).self (h.run.sound hid htol hadmits) hadmits.embedded hpanic
  have hle := hready.prepared_of_commit hordered (hactive hlive) hist
    (h.run.handled_sound hid htol) hsha huniq (hadmits.embedded _ List.mem_cons_self) happ
    ((hC _ _ hm).2 happ.next) hreqs a ha
  exact absurd hle (UInt64.not_le.mpr hlt)

end Node

end MinBFT
