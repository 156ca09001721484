import MinBFT.OwnHandling

/-!
# What a replica sends in the initial view

While a replica expects the initial view, its message log holds everything it has generated. The
primary certifies Prepares only, with one counter after the other. It makes one for each request it
captures, so that the requests of a client are proposed in the order of their sequence numbers. A
backup certifies Commits only, the next one always to the next Prepare of the primary.
-/

namespace MinBFT

def CertifiedMessage.prepare? : CertifiedMessage → Option Prepare
  | .prepare q => some q
  | _ => none

/-- What is nested in a Prepare or in a Commit to it. -/
theorem CertifiedMessage.mem_nested_of_proposed {g : CertifiedMessage} {q : Prepare} {m : Message}
    (h : g.proposed = .prepare q) (hm : m ∈ (Message.certified g).nested) :
    m = .certified g ∨ m = .certified (.prepare q) ∨ m = .request q.request := by
  cases g with
  | prepare q' =>
      cases h
      simpa [Message.nested, CertifiedMessage.nested] using hm
  | commit cm =>
      rcases Message.mem_nested.mp hm with rfl | ⟨y, hy, hm⟩
      · exact .inl rfl
      · have hprop : cm.proposal = .prepare q := h
        cases List.mem_singleton.mp hy
        rw [hprop] at hm
        right
        simpa [Message.nested, CertifiedMessage.nested] using hm
  | viewChange => cases h
  | newView => cases h

def Output.proposals (o : Output) : List Prepare :=
  (certified o.generated).filterMap CertifiedMessage.prepare?

namespace Output

variable {o o' : Output}

theorem mem_proposals {q : Prepare} : q ∈ o.proposals ↔ .prepare q ∈ certified o.generated := by
  rw [proposals, List.mem_filterMap]
  constructor
  · rintro ⟨m, hm, heq⟩
    cases m with
    | prepare q' =>
        cases heq
        exact hm
    | _ => cases heq
  · intro hq
    exact ⟨_, hq, rfl⟩

theorem proposals_append {l : List CertifiedMessage}
    (h : certified o'.generated = certified o.generated ++ l) :
    o'.proposals = o.proposals ++ l.filterMap CertifiedMessage.prepare? := by
  rw [proposals, h, List.filterMap_append]
  rfl

/-- The primary of the view proposes the request. -/
theorem proposals_applyRequest {p : Params} {v : UInt64}
    (hprimary : isPrimary v p.id p.config.n = true) (r : Request) (o : Output) :
    ∃ q, q.request = r ∧ (o.applyRequest p v r).proposals = o.proposals ++ [q] := by
  obtain ⟨ps, hps, -, hreqs⟩ := proposes_applyRequest (p := p) v r o
  rw [if_pos hprimary] at hreqs
  obtain ⟨q, rfl, hq⟩ : ∃ q, ps = [q] ∧ q.request = r := by
    simpa [List.map_eq_singleton_iff] using hreqs
  exact ⟨q, hq, proposals_append hps⟩

theorem proposals_mono (h : o.generated <+: o'.generated) : o.proposals <+: o'.proposals :=
  (h.filterMap _).filterMap _

end Output

theorem Increasing.concat {ps : List Prepare} {q : Prepare} (h : Increasing (contents ps))
    (hpos : 0 < q.request.sequence.toNat)
    (hlt : ∀ q₀ ∈ ps, q₀.request.clientID = q.request.clientID →
      q₀.request.sequence.toNat < q.request.sequence.toNat) :
    Increasing (contents (ps ++ [q])) := by
  have happend : contents (ps ++ [q]) = contents ps ++ [q.request.content] := by
    simp [contents]
  rw [happend]
  constructor
  · intro c hc
    rcases List.mem_append.mp hc with hc | hc
    · exact h.pos c hc
    · rw [List.mem_singleton.mp hc]
      exact hpos
  · apply List.pairwise_append.mpr
    refine ⟨h.lt, List.pairwise_singleton _ _, ?_⟩
    intro c hc c' hc' hkey
    obtain ⟨q₀, hq₀, rfl⟩ := List.mem_map.mp hc
    rw [List.mem_singleton.mp hc'] at hkey ⊢
    exact hlt q₀ hq₀ hkey

/-- Everything in the section is the proposal with its own counter, or a Commit to it. -/
theorem Section.initial {p : Params} {l : List CertifiedMessage} {k : ℕ} {g : CertifiedMessage}
    (h : Section p 0 l) (hl : Numbered 0 l) (hg : l[k]? = some g) :
    ∃ q, g.proposed = .prepare q ∧ q.view = 0 ∧ q.replicaID = 0 ∧ q.ui.counter = g.counter := by
  have hcounter := hl k g hg
  cases h with
  | proposals _ hprimary hall =>
      obtain ⟨q, rfl, hid, hview⟩ := hall g (List.mem_of_getElem? hg)
      exact ⟨q, rfl, hview, hid.trans (isPrimary_zero.mp hprimary), rfl⟩
  | commits _ _ hall =>
      have hcv := (hall.proposed hg).2
      obtain ⟨qs, rfl, hqs, -⟩ := hall
      obtain ⟨x, hx, rfl⟩ := List.mem_map.mp (List.mem_of_getElem? hg)
      obtain ⟨hview, hprimary⟩ := hqs x hx
      refine ⟨x.1, rfl, hview, isPrimary_zero.mp hprimary, UInt64.toNat_inj.mp ?_⟩
      rw [hcounter]
      exact hcv
  | empty hv => exact absurd rfl hv
  | announced hv => exact absurd rfl hv
  | followed hv => exact absurd rfl hv

/-- A backup has sent a Commit for each commitment it has accepted from the primary. -/
theorem Following.length_initial {p : Params} {r : UInt32} {c : Commitments}
    {l : List CertifiedMessage} (h : Following p 0 r c l) :
    (c.lastPrimaryCVs r).toNat = l.length := by
  cases h with
  | initial _ _ hlast => exact hlast
  | waiting hv => exact absurd rfl hv
  | following hv => exact absurd rfl hv

/-- The primary certifies nothing but its proposals. -/
theorem Section.eq_map_prepare {p : Params} {l : List CertifiedMessage} (h : Section p 0 l)
    (hprimary : isPrimary 0 p.id p.config.n = true) :
    l = (l.filterMap CertifiedMessage.prepare?).map .prepare := by
  cases h with
  | proposals _ _ hl =>
      induction l with
      | nil => rfl
      | cons g l ih =>
          obtain ⟨q, rfl, -⟩ := hl g List.mem_cons_self
          have htail := ih fun x hx => hl x (.tail _ hx)
          rw [List.filterMap_cons, CertifiedMessage.prepare?, List.map_cons, ← htail]
  | commits _ hbackup => exact absurd hprimary (Bool.eq_false_iff.mp hbackup)
  | empty => rfl
  | announced hv => exact absurd rfl hv
  | followed hv => exact absurd rfl hv

namespace Replica

variable {p : Params} {order : List Request} {C : Replica → Message → Prop} {s s' : Replica}
  {m : Message}

theorem proposals_requestViewChange (newView : UInt64) (s : Replica) :
    (s.requestViewChange p newView).output.proposals = s.output.proposals := by
  rw [Output.proposals, certified_requestViewChange]
  rfl

/-- What processing a message adds to the output: a proposal of the request just captured, a Commit,
or nothing. -/
theorem Transition.initial_output_cases (h : Transition p order m s s') (hwf : DeeplyWellFormed p m)
    (hexp : s.expectedView = 0) (hexp' : s'.expectedView = 0) :
    (s'.output = s.output ∧ ∀ r, m = .request r →
        s.execution.requests.captureReq r = none ∨ s.currentView ≠ s.expectedView) ∨
      (∃ r, m = .request r ∧ s.execution.requests.captureReq r = some s'.execution.requests ∧
        s'.output = s.output.applyRequest p s.currentView r) ∨
      ∃ q, m = .certified (.prepare q) ∧
        s'.output = s.output.generate p fun ui => .commit ⟨p.id, .prepare q, ui⟩ := by
  cases h with
  | refused hfails =>
      left
      refine ⟨rfl, ?_⟩
      rintro r rfl
      cases hfails
  | known hcap =>
      left
      refine ⟨rfl, ?_⟩
      rintro r ⟨⟩
      exact .inl hcap
  | captured _ hview =>
      left
      refine ⟨rfl, ?_⟩
      rintro r ⟨⟩
      exact .inr hview
  | requested hcap => exact .inr (.inl ⟨_, rfl, hcap, rfl⟩)
  | @newView vc cert _ _ _ hview =>
      have hpos : 1 ≤ vc.newView := hwf.self.2.2
      rw [hview, hexp] at hpos
      exact absurd hpos (by decide)
  | @applied c _ x happ =>
      cases c with
      | prepare q =>
          by_cases hown : p.id = q.replicaID
          · have hout : respond p order x.requests.pendingReqs (.prepare q) s.output = s.output :=
              if_pos hown
            exact .inl ⟨hout, fun _ hr => nomatch hr⟩
          · exact .inr (.inr ⟨q, rfl, if_neg hown⟩)
      | newView nv =>
          have hpos : 1 ≤ nv.newView := hwf.self.2.2.1
          rw [show nv.newView = s.expectedView from Option.some.inj happ.messageView, hexp] at hpos
          exact absurd hpos (by decide)
      | commit => exact .inl ⟨rfl, fun _ hr => nomatch hr⟩
      | viewChange => cases happ.messageView
  | @leftView rvc cert _ _ hlt =>
      have hzero : rvc.newView = 0 := hexp'
      rw [hzero] at hlt
      exact absurd UInt64.zero_le (UInt64.not_le.mpr hlt)
  | _ => exact .inl ⟨rfl, fun _ hr => nomatch hr⟩

/-- Only capturing a request can add a proposal. -/
theorem Transition.proposals_cases (h : Transition p order m s s') (hwf : DeeplyWellFormed p m)
    (hexp : s.expectedView = 0) (hexp' : s'.expectedView = 0) :
    s'.output.proposals = s.output.proposals ∨
      ∃ q, m = .request q.request ∧
        s.execution.requests.captureReq q.request = some s'.execution.requests ∧
        s'.output.proposals = s.output.proposals ++ [q] := by
  rcases h.initial_output_cases hwf hexp hexp' with ⟨heq, -⟩ | ⟨r, rfl, hcap, heq⟩ | ⟨q, -, heq⟩
  · exact .inl (congrArg _ heq)
  · rw [heq]
    by_cases hprimary : isPrimary s.currentView p.id p.config.n = true
    · obtain ⟨q, rfl, happend⟩ := Output.proposals_applyRequest hprimary r s.output
      exact .inr ⟨q, rfl, hcap, happend⟩
    · left
      unfold Output.applyRequest
      rw [if_neg hprimary]
      rfl
  · left
    rw [heq]
    obtain ⟨ui, hui⟩ := Output.exists_certified_generate (p := p)
      (fun ui => .commit ⟨p.id, .prepare q, ui⟩) s.output
    exact (Output.proposals_append hui).trans (List.append_nil _)

/-- The proposals are of requests captured, in the order of each client. -/
structure Ascending (s : Replica) : Prop where
  captured : ∀ q ∈ s.output.proposals, q.request.sequence ≤
    (s.execution.requests.clients q.request.clientID).lastCapturedSeq
  increasing : Increasing (contents s.output.proposals)

theorem Ascending.transition (h : Ascending s) (htrans : Transition p order m s s')
    (hwf : DeeplyWellFormed p m) (hexp : s.expectedView = 0) (hexp' : s'.expectedView = 0) :
    Ascending s' := by
  have hcaptured : ∀ q ∈ s.output.proposals, q.request.sequence ≤
      (s'.execution.requests.clients q.request.clientID).lastCapturedSeq := by
    intro q hq
    exact UInt64.le_trans (h.captured q hq) (htrans.lastCapturedSeq_le _)
  rcases htrans.proposals_cases hwf hexp hexp' with heq | ⟨q, -, hcap, heq⟩
  · exact ⟨heq ▸ hcaptured, heq ▸ h.increasing⟩
  · have hlt := (Requests.captured_of_captureReq hcap).1
    constructor
    · intro q' hq'
      rw [heq] at hq'
      rcases List.mem_append.mp hq' with hq' | hq'
      · exact hcaptured q' hq'
      · rw [List.mem_singleton.mp hq']
        exact UInt64.le_of_eq ((Requests.captureReq_lastCapturedSeq hcap _).2 rfl).symm
    · rw [heq]
      have hnat := UInt64.lt_iff_toNat_lt.mp hlt
      apply h.increasing.concat (by omega)
      intro q₀ hq₀ hclient
      have hle := UInt64.le_iff_toNat_le.mp (h.captured q₀ hq₀)
      rw [hclient] at hle
      omega

theorem Run.ascending (hid : p.id < p.config.n) (h : s.Run p C) (hexp : s.expectedView = 0) :
    Ascending s := by
  induction h with
  | init =>
      refine ⟨?_, ?_, List.Pairwise.nil⟩ <;> exact fun _ hx => absurd hx List.not_mem_nil
  | process hrun hadmits _ htrans _ ih =>
      have hzero := UInt64.le_antisymm (hexp ▸ htrans.expectedView_le) UInt64.zero_le
      exact (ih hzero).transition htrans (hrun.admitted hid hadmits) hzero hexp
  | @timeout s view _ _ _ ih =>
      rw [expectedView_requestViewChange] at hexp
      obtain ⟨hcaptured, hincreasing⟩ := ih hexp
      constructor
      · rw [proposals_requestViewChange, execution_requestViewChange]
        exact hcaptured
      · rw [proposals_requestViewChange]
        exact hincreasing

/-- The primary proposes every request it captures while the initial view is the current one. -/
theorem Run.proposed_of_captured (hid : p.id < p.config.n)
    (hprimary : isPrimary 0 p.id p.config.n = true) (h : s.Run p C) (hexp : s.expectedView = 0)
    (hcur : s.currentView = 0) (id : UInt32) :
    (s.execution.requests.clients id).lastCapturedSeq = 0 ∨
      ∃ q ∈ s.output.proposals, q.request.clientID = id ∧
        q.request.sequence = (s.execution.requests.clients id).lastCapturedSeq := by
  induction h with
  | init => exact .inl rfl
  | @process s s' m order hrun hadmits _ htrans _ ih =>
      have hzero := UInt64.le_antisymm (hexp ▸ htrans.expectedView_le) UInt64.zero_le
      have hold := UInt64.le_antisymm (hcur ▸ htrans.currentView_le) UInt64.zero_le
      have hsub := (Output.proposals_mono htrans.output_steps.generated_prefix).subset
      have hkeep (heq : (s'.execution.requests.clients id).lastCapturedSeq =
          (s.execution.requests.clients id).lastCapturedSeq) :
          (s'.execution.requests.clients id).lastCapturedSeq = 0 ∨
            ∃ q ∈ s'.output.proposals, q.request.clientID = id ∧
              q.request.sequence = (s'.execution.requests.clients id).lastCapturedSeq := by
        rw [heq]
        rcases ih hzero hold with hz | ⟨q, hq, hrest⟩
        · exact .inl hz
        · exact .inr ⟨q, hsub hq, hrest⟩
      rcases htrans.requests_cases with ⟨r, rfl, hcap⟩ | hsteps | ⟨-, heq⟩
      · by_cases hclient : id = r.clientID
        · -- the request has just been captured, and is proposed in the same step
          subst hclient
          right
          rcases htrans.initial_output_cases (hrun.admitted hid hadmits) hzero hexp with
            ⟨-, hnot⟩ | ⟨r', heq, -, hout⟩ | ⟨q, heq, -⟩
          · rcases hnot r rfl with hnone | hne
            · rw [hnone] at hcap
              cases hcap
            · exact absurd (hold.trans hzero.symm) hne
          · cases heq
            rw [hold] at hout
            obtain ⟨q, rfl, happend⟩ := Output.proposals_applyRequest hprimary r s.output
            refine ⟨q, ?_, rfl, ((Requests.captureReq_lastCapturedSeq hcap _).2 rfl).symm⟩
            rw [hout, happend]
            exact List.mem_append_right _ List.mem_cons_self
          · cases heq
        · apply hkeep
          rcases Requests.captureReq_cases r s.execution.requests with ⟨-, hnone⟩ | ⟨-, hsome⟩
          · rw [hnone] at hcap
            cases hcap
          · rw [hsome] at hcap
            rw [← Option.some.inj hcap]
            simp [hclient]
      · exact hkeep (hsteps.lastCapturedSeq id)
      · apply hkeep
        rw [heq]
        exact Requests.unprepareReqs_lastCapturedSeq _ id
  | @timeout s view _ _ _ ih =>
      rw [expectedView_requestViewChange] at hexp
      rw [currentView_requestViewChange] at hcur
      rw [execution_requestViewChange, proposals_requestViewChange]
      exact ih hexp hcur

/-- A replica generates certified messages and ReqViewChanges; Replies are not logged. -/
theorem Run.generated_kind (h : s.Run p C) {g : Message} (hg : g ∈ s.output.generated) :
    (∃ c, g = .certified c) ∨ ∃ rvc, g = .reqViewChange rvc := by
  induction h with
  | init => exact absurd hg List.not_mem_nil
  | process _ _ _ htrans _ ih =>
      rcases htrans.generated_cases hg with hold | hmade
      · exact ih hold
      · cases hmade with
        | _ => exact .inl ⟨_, rfl⟩
  | timeout _ _ _ ih =>
      unfold requestViewChange at hg
      split_ifs at hg
      · exact ih hg
      · exact ih hg
      · rcases List.mem_append.mp hg with hg | hg
        · exact ih hg
        · exact .inr ⟨_, List.mem_singleton.mp hg⟩

/-- The log is never reset in the initial view. -/
theorem Run.log_eq_generated (hid : p.id < p.config.n) (h : s.Run p C)
    (hexp : s.expectedView = 0) :
    s.output.log = s.output.generated ∧ s.output.resets = 0 := by
  induction h with
  | init => exact ⟨rfl, rfl⟩
  | process hrun hadmits _ htrans _ ih =>
      have hzero := UInt64.le_antisymm (hexp ▸ htrans.expectedView_le) UInt64.zero_le
      obtain ⟨hlog, hresets⟩ := ih hzero
      rcases htrans.initial_output_cases (hrun.admitted hid hadmits) hzero hexp with
        ⟨heq, -⟩ | ⟨r, -, -, heq⟩ | ⟨q, -, heq⟩
      · rw [heq]
        exact ⟨hlog, hresets⟩
      · rw [heq]
        unfold Output.applyRequest
        split_ifs
        · exact ⟨congrArg (· ++ _) hlog, hresets⟩
        · exact ⟨hlog, hresets⟩
      · rw [heq]
        exact ⟨congrArg (· ++ _) hlog, hresets⟩
  | @timeout s view _ _ _ ih =>
      rw [expectedView_requestViewChange] at hexp
      obtain ⟨hlog, hresets⟩ := ih hexp
      unfold requestViewChange
      split_ifs
      · exact ⟨hlog, hresets⟩
      · exact ⟨hlog, hresets⟩
      · exact ⟨congrArg (· ++ _) hlog, hresets⟩

end Replica

end MinBFT
