import MinBFT.Interleaving
import MinBFT.Taking

/-!
# Well-formed messages

What validation guarantees of every message a replica processes, apart from certificates and logs.
The replica's own messages are processed without validation, and satisfy the same because of what
they are generated from.
-/

namespace MinBFT

/-- A view has one primary. -/
theorem isPrimary_unique {view : UInt64} {id id' n : UInt32} (h : isPrimary view id n = true)
    (h' : isPrimary view id' n = true) : id = id' := by
  have heq : id.toUInt64 = id'.toUInt64 := (beq_iff_eq.mp h).trans (beq_iff_eq.mp h').symm
  rw [← UInt64.toNat_inj, UInt32.toNat_toUInt64, UInt32.toNat_toUInt64] at heq
  exact UInt32.toNat_inj.mp heq

theorem isPrimary_eq_false {view : UInt64} {id id' n : UInt32} (h : isPrimary view id n = true)
    (hne : id' ≠ id) : isPrimary view id' n = false :=
  Bool.eq_false_iff.mpr fun h' => hne (isPrimary_unique h' h)

def CertifiedMessage.Shaped (config : Config) : CertifiedMessage → Prop
  | .prepare m => isPrimary m.view m.replicaID config.n = true
  | .commit m => m.replicaID ≠ m.proposal.replicaID ∧
      ((∃ prop, m.proposal = .prepare prop) ∨ ∃ prop, m.proposal = .newView prop)
  | .viewChange m => 1 ≤ m.newView
  | .newView m => 1 ≤ m.newView ∧ isPrimary m.newView m.replicaID config.n = true

def WellFormed (crypto : Crypto) (config : Config) : Message → Prop
  | .certified m => m.replicaID < config.n ∧ UIValid crypto m ∧ m.Shaped config
  | .reqViewChange m => m.replicaID < config.n ∧ 1 ≤ m.newView
  | .request _ => True
  | _ => False

theorem Valid.wellFormed {crypto : Crypto} {config : Config} {m : Message}
    (h : Valid crypto config m) : WellFormed crypto config m := by
  cases m with
  | certified m =>
      refine ⟨h.replicaID_lt, h.uiValid, ?_⟩
      cases m with
      | prepare m => exact h.isPrimary
      | commit m => exact h.commit
      | viewChange m => exact h.viewChange.1
      | newView m => exact ⟨h.newView.1, h.newView.2.1⟩
  | reqViewChange m => exact h.reqViewChange
  | request m => trivial
  | hello m =>
      rw [Valid, validateMessage, check_bind_eq_ok] at h
      cases h.2
  | reply m => cases h

abbrev DeeplyWellFormed (p : Params) : Message → Prop :=
  Hereditarily (WellFormed p.crypto p.config)

theorem uiValid_of_tagAccepted {p : Params} {m : CertifiedMessage}
    (h : Node.tagAccepted p (.certified m) = true) : UIValid p.crypto m := by
  simpa [Node.tagAccepted, UIValid] using h

namespace Output

variable {p : Params} {o : Output}

theorem mem_applyRequest {view : UInt64} {r : Request} {g : Message}
    (h : g ∈ (o.applyRequest p view r).generated) :
    g ∈ o.generated ∨ isPrimary view p.id p.config.n = true ∧
      ∃ ui, g = .certified (.prepare ⟨p.id, view, r, ui⟩) := by
  unfold applyRequest at h
  split_ifs at h with hprimary
  · rcases List.mem_append.mp h with h | h
    · exact .inl h
    · exact .inr ⟨hprimary, _, List.mem_singleton.mp h⟩
  · exact .inl h

theorem mem_applyPendingRequests {pendingReqs : RequestList} {order : List Request} {view : UInt64}
    {g : Message} (h : g ∈ (o.applyPendingRequests p pendingReqs order view).generated) :
    g ∈ o.generated ∨ isPrimary view p.id p.config.n = true ∧
      ∃ r ui, r ∈ pendingReqs.messages ∧ g = .certified (.prepare ⟨p.id, view, r, ui⟩) := by
  unfold applyPendingRequests at h
  have hmem : ∀ r ∈ pendingReqs.all order, r ∈ pendingReqs.messages :=
    fun r hr => RequestList.mem_all.mp hr
  generalize pendingReqs.all order = reqs at h hmem
  induction reqs generalizing o with
  | nil => exact .inl h
  | cons r reqs ih =>
      rcases ih h fun x hx => hmem x (.tail r hx) with h | h
      · rcases mem_applyRequest h with h | ⟨hprimary, ui, rfl⟩
        · exact .inl h
        · exact .inr ⟨hprimary, r, ui, hmem r List.mem_cons_self, rfl⟩
      · exact .inr h

end Output

namespace Replica

variable {p : Params} {order : List Request} {C : Replica → Message → Prop} {P : Message → Prop}

inductive Made (p : Params) (s : Replica) : Message → Message → Prop where
  | prepare {m : Message} {view : UInt64} {r : Request} {ui : UI}
      (hprimary : isPrimary view p.id p.config.n = true)
      (hr : m = .request r ∨ r ∈ s.execution.requests.pendingReqs.messages) :
      Made p s m (.certified (.prepare ⟨p.id, view, r, ui⟩))
  | commit {c : CertifiedMessage} {ui : UI}
      (hprop : (∃ x, c = .prepare x) ∨ ∃ x, c = .newView x) (hne : p.id ≠ c.replicaID) :
      Made p s (.certified c) (.certified (.commit ⟨p.id, c, ui⟩))
  | viewChange {rvc : ReqViewChange} {cert : List ReqViewChange} {ui : UI}
      (hcert : s.viewChangeCert p rvc = some cert)
      (hui : ui.counter = s.output.usigCounter + 1) :
      Made p s (.reqViewChange rvc) (.certified (.viewChange
        ⟨p.id, rvc.newView, Output.certified s.output.log, cert, ui⟩))
  | newView {vc : ViewChange} {cert : List ViewChange} {ui : UI}
      (hnext : s.Next (.viewChange vc)) (hcert : s.newViewCert p vc = some cert)
      (hview : vc.newView = s.expectedView) (hui : ui.counter = s.output.usigCounter + 1) :
      Made p s (.certified (.viewChange vc)) (.certified (.newView ⟨p.id, vc.newView, cert, ui⟩))

theorem made_of_respond {m : CertifiedMessage} {s : Replica} {pendingReqs : RequestList}
    {g : Message} (hsub : pendingReqs.messages ⊆ s.execution.requests.pendingReqs.messages)
    (h : g ∈ (respond p order pendingReqs m s.output).generated) :
    g ∈ s.output.generated ∨ Made p s (.certified m) g := by
  cases m with
  | prepare m =>
      simp only [respond] at h
      split_ifs at h with hown
      · exact .inl h
      · rcases List.mem_append.mp h with h | h
        · exact .inl h
        · cases List.mem_singleton.mp h
          exact .inr (.commit (.inl ⟨m, rfl⟩) hown)
  | newView m =>
      have hpending : ∀ g ∈ (s.output.applyPendingRequests p pendingReqs order
          m.newView).generated, g ∈ s.output.generated ∨ Made p s (.certified (.newView m)) g := by
        intro g hg
        rcases Output.mem_applyPendingRequests hg with hg | ⟨hprimary, r, ui, hr, rfl⟩
        · exact .inl hg
        · exact .inr (.prepare hprimary (.inr (hsub hr)))
      simp only [respond] at h
      split_ifs at h with hown
      · exact hpending g h
      · rcases List.mem_append.mp h with h | h
        · exact hpending g h
        · cases List.mem_singleton.mp h
          exact .inr (.commit (.inr ⟨m, rfl⟩) hown)
  | commit m => exact .inl h
  | viewChange m => exact .inl h

theorem Transition.generated_cases {m g : Message} {s s' : Replica}
    (h : Transition p order m s s') (hg : g ∈ s'.output.generated) :
    g ∈ s.output.generated ∨ Made p s m g := by
  cases h with
  | requested =>
      rcases Output.mem_applyRequest hg with hg | ⟨hprimary, ui, rfl⟩
      · exact .inl hg
      · exact .inr (.prepare hprimary (.inl rfl))
  | newView hnext hcert hview =>
      rcases List.mem_append.mp hg with hg | hg
      · exact .inl hg
      · cases List.mem_singleton.mp hg
        exact .inr (.newView hnext hcert hview rfl)
  | applied happ htake =>
      exact made_of_respond (Transition.taken happ htake).requests_steps.pending_subset hg
  | leftView hcert =>
      rcases List.mem_append.mp hg with hg | hg
      · exact .inl hg
      · cases List.mem_singleton.mp hg
        exact .inr (.viewChange hcert rfl)
  | _ => exact .inl hg

/-- Everything a replica may build a message from has a property through and through. -/
structure Sources (P : Message → Prop) (s : Replica) : Prop where
  generated : ∀ g ∈ s.output.generated, Hereditarily P g
  reqViewChanges : ∀ rvc ∈ s.reqViewChanges.collected, Hereditarily P (.reqViewChange rvc)
  viewChanges : ∀ vc ∈ s.viewChanges.members, Hereditarily P (.certified (.viewChange vc))
  requests : s.execution.requests.Holding fun r => P (.request r)
  log : s.output.log <:+ s.output.generated

theorem Sources.admitted {s : Replica} {m : Message} (h : Sources P s)
    (hvalid : ∀ x, Valid p.crypto p.config x → P x) (hadmits : s.Admits p m) :
    Hereditarily P m := by
  rcases hadmits.source with ⟨hm, -⟩ | ⟨g, hg, hm⟩
  · exact hm.mono hvalid
  · exact (h.generated g hg).of_nested hm

/-- What is embedded in a generated message has the property already. -/
theorem Sources.made {s : Replica} {m g : Message} (h : Sources P s) (hm : Hereditarily P m)
    (hmade : Made p s m g) (hg : P g) : Hereditarily P g := by
  refine ⟨hg, fun x hx => ?_⟩
  cases hmade with
  | prepare _ hr =>
      cases List.mem_singleton.mp hx
      refine ⟨?_, fun _ hx => absurd hx List.not_mem_nil⟩
      rcases hr with rfl | hr
      · exact hm.self
      · exact h.requests.pending _ hr
  | commit =>
      cases List.mem_singleton.mp hx
      exact hm
  | @viewChange rvc cert ui hcert =>
      rcases List.mem_append.mp hx with hx | hx
      · obtain ⟨y, hy, rfl⟩ := List.mem_map.mp hx
        obtain ⟨-, -, -, rfl, -⟩ := ReqViewChangeCollector.of_cert hcert
        rcases List.mem_append.mp hy with hy | hy
        · exact h.reqViewChanges y hy
        · cases List.mem_singleton.mp hy
          exact hm
      · obtain ⟨y, hy, rfl⟩ := List.mem_map.mp hx
        exact h.generated _ (h.log.subset (Output.mem_certified.mp hy))
  | newView _ hcert =>
      obtain ⟨y, hy, rfl⟩ := List.mem_map.mp hx
      rcases ViewChangeCollector.mem_of_mem_cert hcert hy with rfl | hy
      · exact hm
      · exact h.viewChanges y hy

theorem Sources.collectReqViewChange {s : Replica} {rvc : ReqViewChange} (h : Sources P s)
    (hm : Hereditarily P (.reqViewChange rvc)) :
    ∀ x ∈ (s.collectReqViewChange p rvc).reqViewChanges.collected,
      Hereditarily P (.reqViewChange x) := by
  intro x hx
  rcases ReqViewChangeCollector.mem_of_mem_collect hx with rfl | hx
  · exact hm
  · exact h.reqViewChanges x hx

theorem Sources.collectViewChange {s : Replica} {vc : ViewChange} (h : Sources P s)
    (hm : Hereditarily P (.certified (.viewChange vc))) :
    ∀ x ∈ (s.collectViewChange p vc).viewChanges.members,
      Hereditarily P (.certified (.viewChange x)) := by
  intro x hx
  rcases ViewChangeCollector.mem_of_mem_collect hx with rfl | hx
  · exact hm
  · exact h.viewChanges x hx

/-- Requests come to be kept only from the messages processed. -/
theorem Transition.holding {m : Message} {s s' : Replica} (h : Transition p order m s s')
    (hs : s.execution.requests.Holding fun r => P (.request r))
    (hself : ∀ r, m = .request r → P m) (hemb : ∀ x ∈ m.embedded, Hereditarily P x) :
    s'.execution.requests.Holding fun r => P (.request r) := by
  have htaken : ∀ {c : CertifiedMessage} {res : EStateM.Result Fault Execution Unit},
      m = .certified c → Execution.Taken c s.expectedView s.execution res →
      res.state.requests.Holding fun r => P (.request r) := by
    rintro c res rfl htake
    exact htake.holding hs (fun _ hreqs => CertifiedMessage.of_requests hemb hreqs)
      fun _ hreqs => CertifiedMessage.of_requests_proposed hemb hreqs
  cases h with
  | captured hcap => exact hs.captureReq (hself _ rfl) hcap
  | requested hcap => exact hs.captureReq (hself _ rfl) hcap
  | failed happ htake => exact htaken rfl (Transition.taken happ htake)
  | applied happ htake => exact htaken rfl (Transition.taken happ htake)
  | leftView => exact hs.unprepareReqs
  | _ => exact hs

theorem Sources.transition {m : Message} {s s' : Replica} (h : Sources P s)
    (hm : Hereditarily P m) (htrans : Transition p order m s s')
    (hmade : ∀ g ∈ s'.output.generated, Made p s m g → P g) : Sources P s' := by
  have hlog := htrans.output_steps.log_suffix h.log
  have hreqs := htrans.holding h.requests (fun _ _ => hm.self) fun _ hx => hm.of_embedded hx
  have hgen : ∀ g ∈ s'.output.generated, Hereditarily P g := by
    intro g hg
    rcases htrans.generated_cases hg with hold | hnew
    · exact h.generated g hold
    · exact h.made hm hnew (hmade g hg hnew)
  cases htrans with
  | viewChange => exact ⟨hgen, h.reqViewChanges, h.collectViewChange hm, hreqs, hlog⟩
  | newView => exact ⟨hgen, h.reqViewChanges, h.collectViewChange hm, hreqs, hlog⟩
  | reqViewChange => exact ⟨hgen, h.collectReqViewChange hm, h.viewChanges, hreqs, hlog⟩
  | leftView => exact ⟨hgen, h.collectReqViewChange hm, h.viewChanges, hreqs, hlog⟩
  | _ => exact ⟨hgen, h.reqViewChanges, h.viewChanges, hreqs, hlog⟩

theorem Sources.requestViewChange {s : Replica} {newView : UInt64} (h : Sources P s)
    (hrvc : ∀ v sig, 1 ≤ v → P (.reqViewChange ⟨p.id, v, sig⟩)) :
    Sources P (s.requestViewChange p newView) := by
  have hlog := (@requestViewChange_steps p newView s).log_suffix h.log
  unfold Replica.requestViewChange at hlog ⊢
  split_ifs at hlog ⊢ with hreq hexp
  · exact h
  · exact ⟨h.generated, h.reqViewChanges, h.viewChanges, h.requests, hlog⟩
  · refine ⟨?_, h.reqViewChanges, h.viewChanges, h.requests, hlog⟩
    intro g hg
    rcases List.mem_append.mp hg with hg | hg
    · exact h.generated g hg
    · cases List.mem_singleton.mp hg
      exact ⟨hrvc _ _ (by grind), fun _ hx => absurd hx List.not_mem_nil⟩

/-- A property holds through and through of all that a replica builds messages from, if validation
guarantees it and generated messages have it when what they are built from does. -/
theorem Run.sources_of {s : Replica} (hvalid : ∀ x, Valid p.crypto p.config x → P x)
    (hrvc : ∀ v sig, 1 ≤ v → P (.reqViewChange ⟨p.id, v, sig⟩))
    (hmade : ∀ s m g, s.Run p C → s.Admits p m → Hereditarily P m → Made p s m g →
      Node.tagAccepted p g = true → P g) (h : s.Run p C) : Sources P s := by
  induction h with
  | init =>
      exact ⟨fun _ hg => absurd hg List.not_mem_nil, fun _ hx => absurd hx List.not_mem_nil,
        fun _ hx => absurd hx List.not_mem_nil, Requests.holding_init, List.suffix_refl _⟩
  | process hrun hadmits _ htrans htags ih =>
      have hm := ih.admitted hvalid hadmits
      exact ih.transition hm htrans fun g hg hnew =>
        hmade _ _ g hrun hadmits hm hnew (htags g hg)
  | timeout _ _ _ ih => exact ih.requestViewChange hrvc

theorem Made.wellFormed {s : Replica} {m g : Message} (hid : p.id < p.config.n)
    (h : Made p s m g) (hm : DeeplyWellFormed p m) (htag : Node.tagAccepted p g = true) :
    WellFormed p.crypto p.config g := by
  cases h with
  | prepare hprimary => exact ⟨hid, uiValid_of_tagAccepted htag, hprimary⟩
  | commit hprop hne => exact ⟨hid, uiValid_of_tagAccepted htag, hne, hprop⟩
  | viewChange => exact ⟨hid, uiValid_of_tagAccepted htag, hm.self.2⟩
  | newView _ hcert =>
      exact ⟨hid, uiValid_of_tagAccepted htag, hm.self.2.2,
        ViewChangeCollector.isPrimary_of_cert hcert⟩

theorem Run.sources {s : Replica} (hid : p.id < p.config.n) (h : s.Run p C) :
    Sources (WellFormed p.crypto p.config) s :=
  h.sources_of (fun _ hx => hx.wellFormed) (fun _ _ hv => ⟨hid, hv⟩)
    fun _ _ _ _ _ hm hmade htag => hmade.wellFormed hid hm htag

/-- Every message that is processed is well-formed through and through. -/
theorem Run.admitted {s : Replica} {m : Message} (hid : p.id < p.config.n) (h : s.Run p C)
    (hadmits : s.Admits p m) : DeeplyWellFormed p m :=
  (h.sources hid).admitted (fun _ hx => hx.wellFormed) hadmits

end Replica

end MinBFT
