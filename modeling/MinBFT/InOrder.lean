import MinBFT.InitialView
import MinBFT.Ledger

/-!
# In-order execution in the initial view

In every run, for as long as the initial view is expected, the replica has delivered precisely the
requests of the primary's Prepares with the counters that have enough commitments, in the order of
the counters. As a counter determines the request, replicas deliver the same sequence.
-/

namespace MinBFT

section

variable {sha256 : Bytes → Bytes}

/-- What the USIG certifies of a Prepare determines its view and the content of its request. -/
theorem SameAuthen.of_prepare (hsha : Function.Injective sha256) {m : CertifiedMessage}
    {q : Prepare} (h : SameAuthen sha256 m (.prepare q)) :
    ∃ q', m = .prepare q' ∧ q'.view = q.view ∧ q'.request.content = q.request.content := by
  obtain ⟨q', rfl, hbytes⟩ := CertifiedMessage.eq_prepare_of_authenBytes_eq h.authenBytes.symm
  obtain ⟨hview, hclient, hseq, hop⟩ := Prepare.authenBytes_inj hsha hbytes
  refine ⟨q', rfl, hview.symm, ?_⟩
  rw [Request.content, Request.content, hclient, hseq, hop]

end

theorem SameAuthen.messageView {crypto : Crypto} {m m' : CertifiedMessage}
    (hsha : Function.Injective crypto.sha256) (h : SameAuthen crypto.sha256 m m') :
    m.messageView = m'.messageView := by
  have hbytes := h.proposed.authenBytes
  unfold CertifiedMessage.messageView
  generalize m.proposed = a at hbytes
  generalize m'.proposed = b at hbytes
  cases a with
  | prepare q =>
      obtain ⟨q', rfl, hq⟩ := CertifiedMessage.eq_prepare_of_authenBytes_eq hbytes
      exact congrArg some (Prepare.authenBytes_inj hsha hq).1
  | commit =>
      obtain ⟨c', rfl, -⟩ := CertifiedMessage.eq_commit_of_authenBytes_eq hbytes
      rfl
  | viewChange =>
      obtain ⟨vc', rfl, -⟩ := CertifiedMessage.eq_viewChange_of_authenBytes_eq hbytes
      rfl
  | newView nv =>
      obtain ⟨nv', rfl, hnv⟩ := CertifiedMessage.eq_newView_of_authenBytes_eq hbytes
      exact congrArg some (NewView.authenBytes_inj hnv).1

namespace Replica

variable {p : Params} {order : List Request} {C : Replica → Message → Prop} {s s' : Replica}

structure InInitialView (p : Params) (s : Replica) (ps : List Prepare) (m : ℕ) : Prop where
  execution : Initial p s.execution ps m
  processed : ∀ q, .prepare q ∈ s.processed → q.view = 0 → q ∈ ps

theorem InInitialView.withProcessed {ps ps' : List Prepare} {m m' : ℕ} {c : CertifiedMessage}
    (h : InInitialView p s ps m) (hsub : ps ⊆ ps') (hexec : Initial p s'.execution ps' m')
    (hproc : s'.processed = s.processed ++ [c])
    (hc : ∀ q, c = .prepare q → q.view = 0 → q ∈ ps') : InInitialView p s' ps' m' := by
  refine ⟨hexec, fun q hq hview => ?_⟩
  rw [hproc] at hq
  rcases List.mem_append.mp hq with hq | hq
  · exact hsub (h.processed q hq hview)
  · exact hc q (List.mem_singleton.mp hq).symm hview

theorem InInitialView.captured {ps : List Prepare} {m : ℕ} {r : Request} {requests : Requests}
    (h : InInitialView p s ps m)
    (hcap : s.execution.requests.captureReq r = some requests) :
    Initial p { s.execution with requests } ps m := by
  obtain ⟨hdel, hret, hprep⟩ := Requests.captureReq_frame hcap
  exact ⟨h.execution.commitments,
    h.execution.requests.withRequests hdel hret fun id => UInt64.le_of_eq (hprep id).symm⟩

/-- The Prepare behind a Commit has been processed, and then accepted, before. -/
theorem InInitialView.exists_prepare {ps : List Prepare} {m : ℕ} (h : InInitialView p s ps m)
    (hhist : History p s) (hsha : Function.Injective p.crypto.sha256)
    (huniq : UniqueUI p.crypto) {q : Prepare} (hq : .certified (.prepare q) ∈ s.handled)
    (hview : q.view = 0) :
    ∃ q₀ ∈ ps, q₀.ui.counter = q.ui.counter ∧ q₀.request.content = q.request.content := by
  obtain ⟨c, hc, hsame⟩ := hhist.exists_sameAuthen huniq hq
  obtain ⟨q₀, rfl, hview₀, hcontent⟩ := hsame.of_prepare hsha
  exact ⟨q₀, h.processed q₀ hc (hview₀.trans hview), hsame.counter, hcontent⟩

/-- Taking a commitment into account keeps the invariant, and a Prepare taken is accepted. -/
theorem InInitialView.taken {ps : List Prepare} {m : ℕ} {c : CertifiedMessage}
    {res : EStateM.Result Fault Execution Unit} (h : InInitialView p s ps m)
    (hhist : History p s) (hsha : Function.Injective p.crypto.sha256)
    (huniq : UniqueUI p.crypto) (hwf : DeeplyWellFormed p (.certified c))
    (hemb : ∀ x ∈ (Message.certified c).embedded, x ∈ s.handled)
    (hview : c.messageView = some 0) (htaken : Execution.Taken c 0 s.execution res) :
    ∃ ps' m', ps ⊆ ps' ∧ Initial p res.state ps' m' ∧
      ∀ q y, c = .prepare q → res = .ok () y → q ∈ ps' := by
  cases c with
  | prepare q =>
      have hzero : q.view = 0 := Option.some.inj hview
      rcases h.execution.takenPrepare hwf.self hzero htaken with ⟨hkeep, e, y, rfl⟩ | ⟨m', hnext⟩
      · exact ⟨ps, m, List.Subset.refl _, hkeep, by simp⟩
      · refine ⟨ps ++ [q], m', List.subset_append_left _ _, hnext, ?_⟩
        rintro _ _ ⟨⟩ -
        exact List.mem_append_right _ List.mem_cons_self
  | commit commit =>
      have hprop := hwf.proposal
      rcases hwf.self.2.2.2 with ⟨q, heq⟩ | ⟨nv, heq⟩
      · rw [heq] at hprop
        have hzero : q.view = 0 := by
          rw [CertifiedMessage.messageView_of_prepare (q := q)
            (by simp [CertifiedMessage.proposed, heq])] at hview
          exact Option.some.inj hview
        have hprimary : q.replicaID = 0 := by
          have hshape : isPrimary q.view q.replicaID p.config.n = true := hprop.self.2.2
          rw [hzero] at hshape
          exact isPrimary_zero.mp hshape
        have hhandled := hemb _ (List.mem_singleton.mpr rfl)
        rw [heq] at hhandled
        obtain ⟨q₀, hq₀, hcv, hcontent⟩ := h.exists_prepare hhist hsha huniq hhandled hzero
        obtain ⟨m', hnext⟩ := h.execution.takenCommit hwf.self heq hzero hprimary hq₀ hcv
          hcontent htaken
        exact ⟨ps, m', List.Subset.refl _, hnext, by simp⟩
      · rw [heq] at hprop
        rw [CertifiedMessage.messageView, show (CertifiedMessage.commit commit).proposed =
          .newView nv by simp [CertifiedMessage.proposed, heq]] at hview
        have hpos : 1 ≤ nv.newView := hprop.self.2.2.1
        rw [show nv.newView = 0 from Option.some.inj hview] at hpos
        exact absurd hpos (by decide)
  | newView nv =>
      have hpos : 1 ≤ nv.newView := hwf.self.2.2.1
      rw [show nv.newView = 0 from Option.some.inj hview] at hpos
      exact absurd hpos (by decide)
  | viewChange vc => cases hview

theorem InInitialView.transition {ps : List Prepare} {m : ℕ} {x : Message}
    (h : InInitialView p s ps m) (hhist : History p s)
    (hsha : Function.Injective p.crypto.sha256) (huniq : UniqueUI p.crypto)
    (hwf : DeeplyWellFormed p x) (hemb : ∀ y ∈ x.embedded, y ∈ s.handled)
    (hexp : s.expectedView = 0) (hexp' : s'.expectedView = 0)
    (htrans : Transition p order x s s') : ∃ ps' m', InInitialView p s' ps' m' := by
  cases htrans with
  | captured hcap => exact ⟨ps, m, h.captured hcap, h.processed⟩
  | requested hcap => exact ⟨ps, m, h.captured hcap, h.processed⟩
  | viewChange =>
      refine ⟨ps, m, h.withProcessed (List.Subset.refl _) h.execution rfl ?_⟩
      rintro _ ⟨⟩
  | newView =>
      refine ⟨ps, m, h.withProcessed (List.Subset.refl _) h.execution rfl ?_⟩
      rintro _ ⟨⟩
  | @dropped c _ w _ hview _ hdrop =>
      refine ⟨ps, m, h.withProcessed (List.Subset.refl _) h.execution rfl ?_⟩
      rintro q rfl hzero
      cases hview
      exact absurd (hzero.trans hexp.symm) (hdrop (by simp [CertifiedMessage.kind]))
  | skipped =>
      refine ⟨ps, m, h.withProcessed (List.Subset.refl _) h.execution rfl ?_⟩
      rintro _ ⟨⟩
  | failed happ htake =>
      have htaken := Transition.taken happ htake
      have hview := happ.messageView
      rw [hexp] at htaken hview
      obtain ⟨ps', m', hsub, hnext, -⟩ := h.taken hhist hsha huniq hwf hemb hview htaken
      exact ⟨ps', m', hnext, fun q hq hzero => hsub (h.processed q hq hzero)⟩
  | applied happ htake =>
      have htaken := Transition.taken happ htake
      have hview := happ.messageView
      rw [hexp] at htaken hview
      obtain ⟨ps', m', hsub, hnext, hmem⟩ := h.taken hhist hsha huniq hwf hemb hview htaken
      exact ⟨ps', m', h.withProcessed hsub hnext rfl fun q hq _ => hmem q _ hq rfl⟩
  | @leftView rvc _ _ _ hlt =>
      have hzero : rvc.newView = 0 := hexp'
      rw [hzero] at hlt
      exact absurd hlt (UInt64.not_lt.mpr UInt64.zero_le)
  | _ => exact ⟨ps, m, h.execution, h.processed⟩

theorem Run.inInitialView (hid : p.id < p.config.n) (htol : p.config.Tolerant)
    (hsha : Function.Injective p.crypto.sha256) (huniq : UniqueUI p.crypto) (h : s.Run p C)
    (hexp : s.expectedView = 0) : ∃ ps m, InInitialView p s ps m := by
  induction h with
  | init =>
      refine ⟨[], 0, ⟨.init htol, ⟨?_, List.Pairwise.nil⟩, ?_, rfl, rfl⟩, ?_⟩ <;>
        intro _ hx <;> exact absurd hx List.not_mem_nil
  | process hrun hadmits _ htrans _ ih =>
      have hzero := UInt64.le_antisymm (hexp ▸ htrans.expectedView_le) UInt64.zero_le
      obtain ⟨ps, m, hinit⟩ := ih hzero
      exact hinit.transition (hrun.history hid) hsha huniq (hrun.admitted hid hadmits)
        hadmits.embedded hzero hexp htrans
  | @timeout s view _ _ _ ih =>
      rw [expectedView_requestViewChange] at hexp
      obtain ⟨ps, m, hinit⟩ := ih hexp
      refine ⟨ps, m, by simpa using hinit.execution, ?_⟩
      rw [processed_requestViewChange]
      exact hinit.processed

/-- What a replica has delivered is the content of `ps`: the Prepares of the primary of the initial
view with the counters from one on to which enough replicas have committed. -/
structure DeliveredInOrder (p : Params) (s : Replica) (ps : List Prepare) : Prop where
  proposals : ∀ q ∈ ps, .prepare q ∈ s.execution.commitments.accepted ∧ q.view = 0 ∧
    isPrimary 0 q.replicaID p.config.n = true ∧ UIValid p.crypto (.prepare q)
  counters : ps.map (·.ui.counter.toNat) = List.range' 1 ps.length
  quorum : ∀ cv, p.config.commitCertSize.toNat ≤
      (s.execution.commitments.committers p.config.n 0 cv).card ↔
    1 ≤ cv.toNat ∧ cv.toNat ≤ ps.length
  delivered : s.execution.requests.delivered.map Request.content = contents ps

theorem InInitialView.deliveredInOrder {ps : List Prepare} {m : ℕ} (h : InInitialView p s ps m)
    (hwf : ∀ c ∈ s.execution.commitments.accepted, DeeplyWellFormed p (.certified c)) :
    DeliveredInOrder p s (ps.take m) := by
  have hlen : (ps.take m).length = m :=
    List.length_take_of_le h.execution.commitments.le_length
  refine ⟨fun q hq => ?_, ?_, ?_, ?_⟩
  · have hacc := (h.execution.commitments.accepted q).mpr (List.mem_of_mem_take hq)
    have hshape := (hwf _ hacc).self
    have hview : q.view = 0 := by
      obtain ⟨w, hle, heq⟩ := h.execution.commitments.tracks.accepted _ hacc
      cases heq
      have hle' := UInt64.le_trans hle (h.execution.commitments.tracks.views _)
      exact UInt64.le_antisymm (UInt64.le_trans hle' h.execution.commitments.tracks.bound)
        UInt64.zero_le
    refine ⟨hacc, hview, ?_, hshape.2.1⟩
    have hprimary : isPrimary q.view q.replicaID p.config.n = true := hshape.2.2
    rwa [hview] at hprimary
  · rw [hlen, List.map_take, h.execution.commitments.counters]
    exact List.take_range'_of_length_ge h.execution.commitments.le_length
  · rw [hlen]
    exact h.execution.commitments.quorum
  · rw [h.execution.requests.delivered.delivered]
    have hinc := h.execution.requests.increasing
    have hsub : contents (ps.take m) <+: contents ps := (List.take_prefix m ps).map _
    exact Fresh.fresh_eq_self (fun c hc => hinc.pos c (hsub.subset hc))
      (hinc.lt.sublist hsub.sublist)

/-- Counters determine contents, so the shorter sequence is the beginning of the longer one. -/
theorem DeliveredInOrder.contents_prefix {p' : Params} {ps ps' : List Prepare}
    (h : DeliveredInOrder p s ps) (h' : DeliveredInOrder p' s' ps')
    (hcrypto : p'.crypto = p.crypto) (hsha : Function.Injective p.crypto.sha256)
    (huniq : UniqueUI p.crypto) (hle : ps.length ≤ ps'.length) :
    contents ps <+: contents ps' := by
  have hcounter : ∀ {r : Replica} {p' : Params} {l : List Prepare}, DeliveredInOrder p' r l →
      ∀ i (hi : i < l.length), (l[i]).ui.counter.toNat = i + 1 := by
    intro r p' l hl i hi
    have hget := congrArg (·[i]?) hl.counters
    simp only [List.getElem?_map, List.getElem?_eq_getElem hi, Option.map_some] at hget
    rw [List.getElem?_range' hi] at hget
    have := Option.some.inj hget
    omega
  rw [List.prefix_iff_getElem]
  refine ⟨by simpa [contents] using hle, fun i hi => ?_⟩
  have hi' : i < ps.length := by simpa [contents] using hi
  obtain ⟨-, hview, hprimary, hui⟩ := h.proposals _ (List.getElem_mem hi')
  obtain ⟨-, hview', hprimary', hui'⟩ := h'.proposals _ (List.getElem_mem (hi'.trans_le hle))
  rw [hcrypto] at hui'
  have hid : (ps[i]).replicaID = (ps'[i]).replicaID :=
    (isPrimary_zero.mp hprimary).trans (isPrimary_zero.mp hprimary').symm
  have hcv : (ps[i]).ui.counter = (ps'[i]).ui.counter := by
    rw [← UInt64.toNat_inj, hcounter h i hi', hcounter h' i (hi'.trans_le hle)]
  obtain ⟨q, heq, -, hcontent⟩ := (huniq.sameAuthen hui hui' hid hcv).of_prepare hsha
  cases heq
  simpa [contents] using hcontent

end Replica

/-- While the initial view is expected, operations are delivered in the order of the primary's
counters without gaps, and any two replicas deliver the same sequence as far as they have come. -/
theorem delivered_in_order {config : Config} {crypto : Crypto} (htol : config.Tolerant)
    (hsha : Function.Injective crypto.sha256) (huniq : UniqueUI crypto) :
    (∀ (id : UInt32) (s : Node), id < config.n →
      s.Reachable ⟨id, config, crypto⟩ (fun _ _ => True) → s.replica.expectedView = 0 →
      ∃ ps, s.replica.DeliveredInOrder ⟨id, config, crypto⟩ ps) ∧
    ∀ (id id' : UInt32) (s s' : Node), id < config.n → id' < config.n →
      s.Reachable ⟨id, config, crypto⟩ (fun _ _ => True) →
      s'.Reachable ⟨id', config, crypto⟩ (fun _ _ => True) →
      s.replica.expectedView = 0 → s'.replica.expectedView = 0 →
      let ops := s.replica.execution.requests.delivered.map Request.operation
      let ops' := s'.replica.execution.requests.delivered.map Request.operation
      ops <+: ops' ∨ ops' <+: ops := by
  have hone : ∀ (id : UInt32) (s : Node), id < config.n →
      s.Reachable ⟨id, config, crypto⟩ (fun _ _ => True) → s.replica.expectedView = 0 →
      ∃ ps, s.replica.DeliveredInOrder ⟨id, config, crypto⟩ ps := by
    intro id s hid h hexp
    obtain ⟨ps, m, hinit⟩ := h.run.inInitialView hid htol hsha huniq hexp
    exact ⟨_, hinit.deliveredInOrder (h.run.accepted_wellFormed hid htol)⟩
  refine ⟨hone, ?_⟩
  intro id id' s s' hid hid' h h' hexp hexp' ops ops'
  obtain ⟨ps, hps⟩ := hone id s hid h hexp
  obtain ⟨ps', hps'⟩ := hone id' s' hid' h' hexp'
  have hops : ∀ {r : Replica} {p : Params} {l : List Prepare}, r.DeliveredInOrder p l →
      r.execution.requests.delivered.map Request.operation =
        (contents l).map fun c => c.2.2 := by
    intro r p l hl
    rw [← hl.delivered, List.map_map]
    rfl
  rw [show ops = _ from hops hps, show ops' = _ from hops hps']
  rcases Nat.le_total ps.length ps'.length with hle | hle
  · exact .inl ((hps.contents_prefix hps' rfl hsha huniq hle).map _)
  · exact .inr ((hps'.contents_prefix hps rfl hsha huniq hle).map _)

namespace Concrete

def proposal : CertifiedMessage := .prepare (prepare 0 0 (request 0 1) 1)

def backupParams : Params :=
  ⟨1, ⟨3, 1⟩, ledgerCrypto [proposal, commit 1 proposal 1, commit 2 proposal 1]⟩

/-- The first backup has delivered the request once the second has committed to it. -/
theorem delivered_after_commit : ∃ s : Node, s.Reachable backupParams (fun _ _ => True) ∧
    s.replica.expectedView = 0 ∧
    s.replica.execution.requests.delivered = [request 0 1] := by
  have h : ((Node.init backupParams).exec backupParams (fun _ _ => true)
      (handling 0 (.certified proposal) ++ handling 1 (.certified (commit 2 proposal 1)))).any
      (fun s => s.replica.expectedView == 0 &&
        s.replica.execution.requests.delivered == [request 0 1]) = true := by
    decide +kernel
  obtain ⟨s, hreach, hs⟩ := Node.exists_reachable backupParams (fun _ _ _ => trivial) h
  rw [Bool.and_eq_true, beq_iff_eq, beq_iff_eq] at hs
  exact ⟨s, hreach, hs⟩

theorem delivered_in_order_backup : ∃ (s : Node) (ps : List Prepare),
    s.replica.execution.requests.delivered = [request 0 1] ∧
      s.replica.DeliveredInOrder backupParams ps := by
  obtain ⟨s, hreach, hexp, hdel⟩ := delivered_after_commit
  obtain ⟨ps, hps⟩ := (@delivered_in_order ⟨3, 1⟩ _ (by unfold Config.Tolerant; decide)
    (injective_sha256_ledgerCrypto _) (uniqueUI_ledgerCrypto (by decide +kernel))).1 1 s
    (by decide) hreach hexp
  exact ⟨s, ps, hdel, hps⟩

end Concrete

end MinBFT
