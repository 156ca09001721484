import MinBFT.OwnLog

/-!
# The replica's own messages

Whatever a replica comes to process in its own name it has generated before. So its ViewChanges are
for views it expects or has expected, its current view is one it is the primary of only with its own
NewView generated, and it generates one NewView for a view at most.
-/

namespace MinBFT

namespace Replica

variable {p : Params} {order : List Request} {C : Replica → Message → Prop} {s s' : Replica}
  {m : Message}

theorem Sources.mono {P Q : Message → Prop} (hPQ : ∀ x, P x → Q x) (h : Sources P s) :
    Sources Q s :=
  ⟨fun g hg => (h.generated g hg).mono hPQ, fun x hx => (h.reqViewChanges x hx).mono hPQ,
    fun x hx => (h.viewChanges x hx).mono hPQ, ⟨fun r hr => hPQ _ (h.requests.pending r hr),
      fun r hr => hPQ _ (h.requests.prepared r hr),
      fun r hr => hPQ _ (h.requests.delivered r hr)⟩, h.log⟩

theorem Sources.authentic (h : Sources (s.OwnAuthentic p) s) (hadmits : s.Admits p m) :
    Hereditarily (s.OwnAuthentic p) m := by
  rcases hadmits.source with ⟨-, hall⟩ | ⟨g, hg, hm⟩
  · exact hereditarily_iff.mpr hall
  · exact (h.generated g hg).of_nested hm

/-- Everything a replica builds messages from is authentic as far as it is in its own name. -/
theorem Run.authenticSources (h : s.Run p C) : Sources (s.OwnAuthentic p) s := by
  induction h with
  | init =>
      exact ⟨fun _ hg => absurd hg List.not_mem_nil, fun _ hx => absurd hx List.not_mem_nil,
        fun _ hx => absurd hx List.not_mem_nil, Requests.holding_init, List.suffix_refl _⟩
  | @process s s' m order hrun hadmits _ htrans _ ih =>
      have hext := Node.extends_of_transition htrans
      have hmono : ∀ x, s.OwnAuthentic p x → s'.OwnAuthentic p x :=
        fun x hx => hext.ownAuthentic hx
      refine (ih.mono hmono).transition ((ih.authentic hadmits).mono hmono) htrans
        fun g hg _ => ?_
      cases g with
      | certified c => exact fun _ _ => ⟨c, hg, rfl, rfl⟩
      | _ => trivial
  | @timeout s view _ _ _ ih =>
      have hext := @Node.extends_requestViewChange p (view + 1) s
      exact (ih.mono fun x hx => hext.ownAuthentic hx).requestViewChange fun _ _ _ => trivial

/-- A certified message of the replica itself is processed only if it has generated it. -/
theorem Run.ownGenerated {c : CertifiedMessage} (hid : p.id < p.config.n) (h : s.Run p C)
    (hadmits : s.Admits p (.certified c)) (hown : c.replicaID = p.id) : s.OwnGenerated p c :=
  (h.authenticSources.authentic hadmits).self hown (h.admitted hid hadmits).self.2.1

theorem OwnGenerated.viewChange {vc : ViewChange} (h : s.OwnGenerated p (.viewChange vc)) :
    ∃ vc', .certified (.viewChange vc') ∈ s.output.generated ∧ vc'.newView = vc.newView := by
  obtain ⟨g, hg, -, hbytes⟩ := h
  obtain ⟨vc', rfl, hview⟩ := CertifiedMessage.eq_viewChange_of_authenBytes_eq hbytes.symm
  exact ⟨vc', hg, hview.symm⟩

theorem OwnGenerated.newView {nv : NewView} (h : s.OwnGenerated p (.newView nv)) :
    ∃ nv', .certified (.newView nv') ∈ s.output.generated ∧ nv'.newView = nv.newView := by
  obtain ⟨g, hg, -, hbytes⟩ := h
  obtain ⟨nv', rfl, heq⟩ := CertifiedMessage.eq_newView_of_authenBytes_eq hbytes.symm
  exact ⟨nv', hg, (NewView.authenBytes_inj heq).1.symm⟩

/-- How the views of what the replica has generated relate to its state. -/
structure Announcing (p : Params) (s : Replica) : Prop where
  length : s.expectedView.toNat ≤ (Output.certified s.output.generated).length
  viewChanges : ∀ vc, .certified (.viewChange vc) ∈ s.output.generated →
    vc.newView ≤ s.expectedView
  own : ∀ vc, s.viewChanges.own = some vc → vc.newView = s.viewChanges.view ∧
    vc.newView ≤ s.expectedView
  newViews : ∀ nv, .certified (.newView nv) ∈ s.output.generated →
    nv.newView < s.viewChanges.view
  current : s.currentView ≠ 0 → isPrimary s.currentView p.id p.config.n = true →
    ∃ nv, .certified (.newView nv) ∈ s.output.generated ∧ nv.newView = s.currentView

/-- The USIG has counted every certified message. -/
theorem Run.counters (hid : p.id < p.config.n) (h : s.Run p C) :
    (Output.certified s.output.generated).map (·.counter.toNat) =
        List.range' 1 (Output.certified s.output.generated).length ∧
      s.output.usigCounter.toNat = (Output.certified s.output.generated).length := by
  have hcounted : s.output.Counted := by
    induction h with
    | init => exact fun _ => ⟨rfl, rfl⟩
    | process _ _ _ htrans _ ih => exact htrans.output_steps.counted ih
    | timeout _ _ _ ih => exact (requestViewChange_steps _ _).counted ih
  refine hcounted fun m hm => ?_
  exact ((h.sources hid).generated _ (Output.mem_certified.mp hm)).self.2.1.1

theorem mem_respond_of_startsView {c : CertifiedMessage} {pendingReqs : RequestList}
    {msg : CertifiedMessage} {o : Output} (hstarts : c.startsView ≠ none)
    (h : .certified c ∈ (respond p order pendingReqs msg o).generated) :
    .certified c ∈ o.generated := by
  have hpending : ∀ {view}, .certified c ∈ (o.applyPendingRequests p pendingReqs order
      view).generated → .certified c ∈ o.generated := by
    intro view hc
    rcases Output.mem_applyPendingRequests hc with hc | ⟨-, r, ui, -, heq⟩
    · exact hc
    · cases heq
      exact absurd rfl hstarts
  cases msg with
  | prepare q =>
      simp only [respond] at h
      split_ifs at h
      · exact h
      · rcases List.mem_append.mp h with h | h
        · exact h
        · cases List.mem_singleton.mp h
          exact absurd rfl hstarts
  | newView nv =>
      simp only [respond] at h
      split_ifs at h
      · exact hpending h
      · rcases List.mem_append.mp h with h | h
        · exact hpending h
        · cases List.mem_singleton.mp h
          exact absurd rfl hstarts
  | _ => exact h

theorem mem_applyRequest_of_startsView {c : CertifiedMessage} {view : UInt64} {r : Request}
    {o : Output} (hstarts : c.startsView ≠ none)
    (h : .certified c ∈ (o.applyRequest p view r).generated) : .certified c ∈ o.generated := by
  rcases Output.mem_applyRequest h with h | ⟨-, ui, heq⟩
  · exact h
  · cases heq
    exact absurd rfl hstarts

/-- The collector after a ViewChange, whether or not a NewView follows. -/
theorem Announcing.collect {vc : ViewChange} (h : Announcing p s)
    (hown : vc.replicaID = p.id → s.OwnGenerated p (.viewChange vc))
    (hroom : vc.newView = s.expectedView → s.newViewCert p vc = none ∨
      s.expectedView.toNat + 1 < 2 ^ 64) :
    (∀ x, (s.collectViewChange p vc).viewChanges.own = some x →
      x.newView = (s.collectViewChange p vc).viewChanges.view ∧ x.newView ≤ s.expectedView) ∧
    s.viewChanges.view ≤ (s.collectViewChange p vc).viewChanges.view ∧
    (s.newViewCert p vc ≠ none → vc.newView < (s.collectViewChange p vc).viewChanges.view) := by
  have hvc : vc.replicaID = p.id → vc.newView ≤ s.expectedView := by
    intro hid
    obtain ⟨vc', hgen, hview⟩ := (hown hid).viewChange
    exact hview ▸ h.viewChanges vc' hgen
  obtain ⟨hslot, hcert⟩ := ViewChangeCollector.own_collect (p := p) h.own hvc
  refine ⟨hslot, ?_⟩
  rcases ViewChangeCollector.view_collect (p := p) vc s.viewChanges with
    ⟨hnone, hle⟩ | ⟨⟨cert, hsome⟩, hle, heq⟩
  · exact ⟨hle, fun hne => absurd hnone hne⟩
  · -- the view of a certificate is one the replica has got to, so that the next one exists
    obtain ⟨x, -, hx, hxle⟩ := hcert cert hsome
    have hlt : vc.newView < vc.newView + 1 := by
      have hmax := s.expectedView.toNat_lt
      rw [hx, UInt64.le_iff_toNat_le] at hxle
      rw [UInt64.lt_iff_toNat_lt, UInt64.toNat_add, UInt64.toNat_one]
      by_cases heq : vc.newView = s.expectedView
      · rcases hroom heq with hnone | hroom
        · rw [newViewCert, hsome] at hnone
          cases hnone
        · rw [heq]
          omega
      · have hne : vc.newView.toNat ≠ s.expectedView.toNat := fun h => heq (UInt64.toNat_inj.mp h)
        omega
    rw [collectViewChange, heq]
    exact ⟨UInt64.le_of_lt (UInt64.lt_of_le_of_lt hle hlt), fun _ => hlt⟩

theorem viewFor_cases {c : CertifiedMessage} (happ : s.Applicable c) :
    s.viewFor c = s.currentView ∨ ∃ nv, c = .newView nv ∧ s.viewFor c = nv.newView := by
  cases c with
  | newView nv => exact .inr ⟨nv, rfl, (Option.some.inj happ.messageView).symm⟩
  | _ => exact .inl rfl

/-- Only a NewView moves the current view. -/
theorem Transition.currentView_cases (h : Transition p order m s s') :
    s'.currentView = s.currentView ∨
      ∃ nv, m = .certified (.newView nv) ∧ s'.currentView = nv.newView := by
  have hview : ∀ {c : CertifiedMessage}, s.Applicable c → s.viewFor c = s.currentView ∨
      ∃ nv, Message.certified c = .certified (.newView nv) ∧ s.viewFor c = nv.newView := by
    intro c happ
    refine (viewFor_cases happ).imp_right fun ⟨nv, hc, heq⟩ => ⟨nv, congrArg _ hc, heq⟩
  cases h with
  | skipped => exact .inr ⟨_, rfl, rfl⟩
  | failed happ => exact hview happ
  | applied happ => exact hview happ
  | _ => exact .inl rfl

theorem Announcing.current_of_transition (h : Announcing p s) (hid : p.id < p.config.n)
    (hrun : s.Run p C) (hadmits : s.Admits p m) (htrans : Transition p order m s s')
    (hne : s'.currentView ≠ 0) (hprimary : isPrimary s'.currentView p.id p.config.n = true) :
    ∃ nv, .certified (.newView nv) ∈ s'.output.generated ∧ nv.newView = s'.currentView := by
  have hpre := htrans.output_steps.generated_prefix.subset
  rcases htrans.currentView_cases with heq | ⟨nv, rfl, heq⟩
  · rw [heq] at hne hprimary ⊢
    obtain ⟨nv, hnv, hview⟩ := h.current hne hprimary
    exact ⟨nv, hpre hnv, hview⟩
  · rw [heq] at hprimary ⊢
    have hown : nv.replicaID = p.id :=
      isPrimary_unique (hrun.admitted hid hadmits).self.2.2.2 hprimary
    obtain ⟨nv', hnv', hview⟩ := (hrun.ownGenerated hid hadmits hown).newView
    exact ⟨nv', hpre hnv', hview⟩

theorem length_certified_le {o o' : Output} (h : o.generated <+: o'.generated) :
    (Output.certified o.generated).length ≤ (Output.certified o'.generated).length := by
  obtain ⟨new, hnew⟩ := h
  rw [← hnew, Output.certified_append, List.length_append]
  exact Nat.le_add_right _ _

theorem Announcing.transition (h : Announcing p s) (hid : p.id < p.config.n)
    (htol : p.config.Tolerant) (hrun : s.Run p C) (hadmits : s.Admits p m)
    (htrans : Transition p order m s s') (hrun' : s'.Run p C) : Announcing p s' := by
  have hcurrent := h.current_of_transition hid hrun hadmits htrans
  have hlen := length_certified_le htrans.output_steps.generated_prefix
  have hstarts : ∀ {v}, some v ≠ (none : Option UInt64) := fun {v} => Option.some_ne_none v
  cases htrans with
  | requested =>
      exact ⟨h.length.trans hlen,
        fun vc hvc => h.viewChanges vc (mem_applyRequest_of_startsView hstarts hvc), h.own,
        fun nv hnv => h.newViews nv (mem_applyRequest_of_startsView hstarts hnv), hcurrent⟩
  | viewChange _ hcert =>
      obtain ⟨hslot, hle, -⟩ := h.collect (hrun.ownGenerated hid hadmits)
        fun heq => .inl (hcert.resolve_right (not_not_intro heq))
      exact ⟨h.length, h.viewChanges, hslot,
        fun nv hnv => UInt64.lt_of_lt_of_le (h.newViews nv hnv) hle, hcurrent⟩
  | @newView vc cert _ _ hcert hview =>
      -- the NewView has a counter, which leaves room for one more view
      have hroom : s.expectedView.toNat + 1 < 2 ^ 64 := by
        have hmax := UInt64.toNat_lt (s.announceNewView p vc cert).output.usigCounter
        have hcount : (s.announceNewView p vc cert).output.usigCounter.toNat =
            (Output.certified (s.announceNewView p vc cert).output.generated).length :=
          (hrun'.counters hid).2
        have hlength := h.length
        rw [hcount, announceNewView, Output.generated_generate, Output.certified_append,
          Output.certified_singleton, List.length_append, List.length_singleton] at hmax
        exact Nat.lt_of_le_of_lt (Nat.succ_le_succ hlength) hmax
      obtain ⟨hslot, hle, hlt⟩ := h.collect (hrun.ownGenerated hid hadmits) fun _ => .inr hroom
      refine ⟨h.length.trans hlen, ?_, hslot, ?_, hcurrent⟩
      · intro x hx
        rcases List.mem_append.mp hx with hx | hx
        · exact h.viewChanges x hx
        · cases List.mem_singleton.mp hx
      · intro nv hnv
        rcases List.mem_append.mp hnv with hnv | hnv
        · exact UInt64.lt_of_lt_of_le (h.newViews nv hnv) hle
        · cases List.mem_singleton.mp hnv
          exact hlt (hcert ▸ Option.some_ne_none _)
  | skipped => exact ⟨h.length, h.viewChanges, h.own, h.newViews, hcurrent⟩
  | failed => exact ⟨h.length, h.viewChanges, h.own, h.newViews, hcurrent⟩
  | applied =>
      exact ⟨h.length.trans hlen,
        fun vc hvc => h.viewChanges vc (mem_respond_of_startsView hstarts hvc), h.own,
        fun nv hnv => h.newViews nv (mem_respond_of_startsView hstarts hnv), hcurrent⟩
  | @leftView rvc cert _ hcert hlt =>
      have hview := (ReqViewChangeCollector.of_cert hcert).1
      rw [(hrun.collecting hid htol).view] at hview
      refine ⟨?_, ?_, ?_, ?_, hcurrent⟩
      · have hne : s.expectedView + 1 ≠ 0 := by
          rw [← hview]
          exact (UInt64.ne_of_lt (UInt64.lt_of_le_of_lt UInt64.zero_le hlt)).symm
        have hsucc := UInt64.toNat_add_one_of_ne_zero hne
        have hlength := h.length
        change rvc.newView.toNat ≤ (Output.certified (_ ++ [_])).length
        rw [hview, hsucc, Output.certified_append, Output.certified_singleton, List.length_append,
          List.length_singleton]
        exact Nat.succ_le_succ hlength
      · intro x hx
        rcases List.mem_append.mp hx with hx | hx
        · exact UInt64.le_trans (h.viewChanges x hx) (UInt64.le_of_lt hlt)
        · cases List.mem_singleton.mp hx
          exact UInt64.le_refl _
      · intro x hx
        obtain ⟨hxview, hle⟩ := h.own x hx
        exact ⟨hxview, UInt64.le_trans hle (UInt64.le_of_lt hlt)⟩
      · intro nv hnv
        rcases List.mem_append.mp hnv with hnv | hnv
        · exact h.newViews nv hnv
        · cases List.mem_singleton.mp hnv
  | _ => exact ⟨h.length, h.viewChanges, h.own, h.newViews, h.current⟩

@[simp] theorem certified_requestViewChange (newView : UInt64) (s : Replica) :
    Output.certified (s.requestViewChange p newView).output.generated =
      Output.certified s.output.generated := by
  unfold requestViewChange
  split_ifs
  · rfl
  · rfl
  · simp [Output.generateReqViewChange, Output.append]

theorem Announcing.requestViewChange (h : Announcing p s) (newView : UInt64) :
    Announcing p (s.requestViewChange p newView) := by
  have hmem : ∀ {c}, .certified c ∈ (s.requestViewChange p newView).output.generated →
      .certified c ∈ s.output.generated := by
    intro c hc
    rw [← Output.mem_certified, certified_requestViewChange] at hc
    exact Output.mem_certified.mp hc
  refine ⟨?_, ?_, ?_, ?_, ?_⟩
  · rw [expectedView_requestViewChange, certified_requestViewChange]
    exact h.length
  · rw [expectedView_requestViewChange]
    exact fun vc hvc => h.viewChanges vc (hmem hvc)
  · rw [expectedView_requestViewChange, viewChanges_requestViewChange]
    exact h.own
  · rw [viewChanges_requestViewChange]
    exact fun nv hnv => h.newViews nv (hmem hnv)
  · rw [currentView_requestViewChange]
    intro hne hprimary
    obtain ⟨nv, hnv, hview⟩ := h.current hne hprimary
    exact ⟨nv, (Node.extends_requestViewChange newView s).generated.subset hnv, hview⟩

theorem Run.announcing (hid : p.id < p.config.n) (htol : p.config.Tolerant) (h : s.Run p C) :
    Announcing p s := by
  induction h with
  | init =>
      exact ⟨Nat.le_refl _, fun _ hx => absurd hx List.not_mem_nil, fun _ hx => (nomatch hx),
        fun _ hx => absurd hx List.not_mem_nil, fun hne => absurd rfl hne⟩
  | process hrun hadmits hcond htrans htags ih =>
      exact ih.transition hid htol hrun hadmits htrans (.process hrun hadmits hcond htrans htags)
  | timeout _ _ _ ih => exact ih.requestViewChange _

end Replica

end MinBFT
