import MinBFT.OwnMessages
import MinBFT.Views

/-!
# The shape of a replica's certified output

What a replica certifies falls into sections, one for each view it has expected, with the ViewChange
to a view in front of its section. In a section the primary of the view announces it and proposes,
and a backup commits to the NewView and then to the proposals that follow it.
-/

namespace MinBFT

def Proposals (p : Params) (v : UInt64) (l : List CertifiedMessage) : Prop :=
  ∀ m ∈ l, ∃ q, m = .prepare q ∧ q.replicaID = p.id ∧ q.view = v

def CommitsFrom (p : Params) (v : UInt64) (cv : ℕ) (l : List CertifiedMessage) : Prop :=
  ∃ qs : List (Prepare × UI), l = qs.map (fun q => .commit ⟨p.id, .prepare q.1, q.2⟩) ∧
    (∀ q ∈ qs, q.1.view = v ∧ isPrimary v q.1.replicaID p.config.n = true) ∧
    qs.map (·.1.ui.counter.toNat) = List.range' (cv + 1) qs.length

/-- What a replica certifies while it expects a view, after the ViewChange to it. -/
inductive Section (p : Params) (v : UInt64) : List CertifiedMessage → Prop where
  | proposals {l : List CertifiedMessage} (hv : v = 0)
      (hprimary : isPrimary v p.id p.config.n = true) (hl : Proposals p v l) : Section p v l
  | commits {l : List CertifiedMessage} (hv : v = 0)
      (hbackup : isPrimary v p.id p.config.n = false) (hl : CommitsFrom p v 0 l) : Section p v l
  | empty (hv : v ≠ 0) : Section p v []
  | announced {nv : NewView} {l : List CertifiedMessage} (hv : v ≠ 0)
      (hprimary : isPrimary v p.id p.config.n = true) (hview : nv.newView = v)
      (hl : Proposals p v l) : Section p v (.newView nv :: l)
  | followed {nv : NewView} {ui : UI} {l : List CertifiedMessage} (hv : v ≠ 0)
      (hbackup : isPrimary v p.id p.config.n = false) (hview : nv.newView = v)
      (hnv : isPrimary v nv.replicaID p.config.n = true)
      (hl : CommitsFrom p v nv.ui.counter.toNat l) :
      Section p v (.commit ⟨p.id, .newView nv, ui⟩ :: l)

/-- What a replica certifies up to and including the ViewChange to a view. -/
inductive Opened (p : Params) : UInt64 → List CertifiedMessage → Prop where
  | initial : Opened p 0 []
  | viewChange {v : UInt64} {before l : List CertifiedMessage} {vc : ViewChange}
      (h : Opened p v before) (hsection : Section p v l) (hlt : v < v + 1)
      (hview : vc.newView = v + 1) : Opened p (v + 1) (before ++ l ++ [.viewChange vc])

section Sections

variable {p : Params} {v : UInt64} {l : List CertifiedMessage}

theorem Proposals.append {l' : List CertifiedMessage} (h : Proposals p v l)
    (h' : Proposals p v l') : Proposals p v (l ++ l') := by
  intro m hm
  rcases List.mem_append.mp hm with hm | hm
  · exact h m hm
  · exact h' m hm

theorem commitsFrom_nil (cv : ℕ) : CommitsFrom p v cv [] :=
  ⟨[], rfl, fun _ hq => absurd hq List.not_mem_nil, rfl⟩

theorem CommitsFrom.concat {cv : ℕ} {q : Prepare} (h : CommitsFrom p v cv l) (hview : q.view = v)
    (hprimary : isPrimary v q.replicaID p.config.n = true)
    (hcv : q.ui.counter.toNat = cv + l.length + 1) (ui : UI) :
    CommitsFrom p v cv (l ++ [.commit ⟨p.id, .prepare q, ui⟩]) := by
  obtain ⟨qs, rfl, hqs, hmap⟩ := h
  rw [List.length_map] at hcv
  refine ⟨qs ++ [(q, ui)], by simp, ?_, ?_⟩
  · intro x hx
    rcases List.mem_append.mp hx with hx | hx
    · exact hqs x hx
    · cases List.mem_singleton.mp hx
      exact ⟨hview, hprimary⟩
  · rw [List.map_append, hmap, List.length_append, List.length_singleton, List.range'_concat,
      List.map_singleton, hcv]
    congr 2
    omega

theorem Proposals.messageView (h : Proposals p v l) {m : CertifiedMessage} (hm : m ∈ l) :
    m.messageView = some v := by
  obtain ⟨q, rfl, -, hview⟩ := h m hm
  exact congrArg some hview

theorem CommitsFrom.messageView {cv : ℕ} (h : CommitsFrom p v cv l) {m : CertifiedMessage}
    (hm : m ∈ l) : m.messageView = some v := by
  obtain ⟨qs, rfl, hqs, -⟩ := h
  obtain ⟨q, hq, rfl⟩ := List.mem_map.mp hm
  exact congrArg some (hqs q hq).1

/-- What is in a section belongs to its view. -/
theorem Section.messageView (h : Section p v l) {m : CertifiedMessage} (hm : m ∈ l) :
    m.messageView = some v := by
  cases h with
  | proposals _ _ hl => exact hl.messageView hm
  | commits _ _ hl => exact hl.messageView hm
  | empty => exact absurd hm List.not_mem_nil
  | announced _ _ hview hl =>
      rcases List.mem_cons.mp hm with rfl | hm
      · exact congrArg some hview
      · exact hl.messageView hm
  | followed _ _ hview _ hl =>
      rcases List.mem_cons.mp hm with rfl | hm
      · exact congrArg some hview
      · exact hl.messageView hm

/-- What comes before a section belongs to earlier views. -/
theorem Opened.messageView_lt {before : List CertifiedMessage} (h : Opened p v before)
    {m : CertifiedMessage} (hm : m ∈ before) {w : UInt64} (hw : m.messageView = some w) :
    w < v := by
  induction h with
  | initial => exact absurd hm List.not_mem_nil
  | viewChange _ hsection hlt _ ih =>
      rcases List.mem_append.mp hm with hm | hm
      · rcases List.mem_append.mp hm with hm | hm
        · exact UInt64.lt_trans (ih hm) hlt
        · exact Option.some.inj ((hsection.messageView hm).symm.trans hw) ▸ hlt
      · cases List.mem_singleton.mp hm
        cases hw

/-- The ViewChange to a view comes right before the section. -/
theorem Opened.viewChange_last {before : List CertifiedMessage} (h : Opened p v before)
    {vc : ViewChange} (hvc : .viewChange vc ∈ before) :
    vc.newView ≤ v ∧ (vc.newView = v → before.getLast? = some (.viewChange vc)) := by
  induction h with
  | initial => exact absurd hvc List.not_mem_nil
  | viewChange _ hsection hlt hview ih =>
      rcases List.mem_append.mp hvc with hvc | hvc
      · rcases List.mem_append.mp hvc with hvc | hvc
        · have hle := UInt64.lt_of_le_of_lt (ih hvc).1 hlt
          exact ⟨UInt64.le_of_lt hle, fun heq => absurd heq (UInt64.ne_of_lt hle)⟩
        · cases hsection.messageView hvc
      · cases List.mem_singleton.mp hvc
        exact ⟨UInt64.le_of_eq hview, fun _ => List.getLast?_concat⟩

end Sections

inductive Following (p : Params) (v : UInt64) (r : UInt32) (c : Commitments) :
    List CertifiedMessage → Prop where
  | initial {l : List CertifiedMessage} (hv : v = 0) (hl : CommitsFrom p v 0 l)
      (hlast : (c.lastPrimaryCVs r).toNat = l.length) : Following p v r c l
  | waiting (hv : v ≠ 0) (hviews : c.replicaViews r ≠ v) : Following p v r c []
  | following {nv : NewView} {ui : UI} {l : List CertifiedMessage} (hv : v ≠ 0)
      (hviews : c.replicaViews r = v) (hview : nv.newView = v)
      (hnv : isPrimary v nv.replicaID p.config.n = true)
      (hl : CommitsFrom p v nv.ui.counter.toNat l)
      (hlast : (c.lastPrimaryCVs r).toNat = nv.ui.counter.toNat + l.length) :
      Following p v r c (.commit ⟨p.id, .newView nv, ui⟩ :: l)

namespace Following

variable {p : Params} {v : UInt64} {r : UInt32} {c c' : Commitments} {l : List CertifiedMessage}
  {done : Bool}

theorem toSection (h : Following p v r c l) (hbackup : isPrimary v p.id p.config.n = false) :
    Section p v l := by
  cases h with
  | initial hv hl => exact .commits hv hbackup hl
  | waiting hv => exact .empty hv
  | following hv _ hview hnv hl => exact .followed hv hbackup hview hnv hl

/-- Commitments of others do not matter. -/
theorem congr (h : Following p v r c l) (hviews : c'.replicaViews r = c.replicaViews r)
    (hlast : c'.lastPrimaryCVs r = c.lastPrimaryCVs r) : Following p v r c' l := by
  cases h with
  | initial hv hl heq => exact .initial hv hl (hlast ▸ heq)
  | waiting hv hne => exact .waiting hv (hviews ▸ hne)
  | following hv heq hview hnv hl hcv =>
      exact .following hv (hviews.trans heq) hview hnv hl (hlast ▸ hcv)

theorem record_of_ne {m : CertifiedMessage} {w : UInt64} (h : Following p v r c l)
    (hrec : Commitments.Recorded m w c done c') (hne : r ≠ m.replicaID) :
    Following p v r c' l := by
  refine h.congr ?_ ?_
  · rw [hrec.replicaViews, Function.update_of_ne hne]
  · rw [hrec.lastPrimaryCVs, Function.update_of_ne hne]

theorem record_prepare {q : Prepare} (h : Following p v q.replicaID c l)
    (hrec : Commitments.Recorded (.prepare q) v c done c') (hview : q.view = v)
    (hprimary : isPrimary v q.replicaID p.config.n = true) (hcv : q.ui.counter ≠ 0) (ui : UI) :
    Following p v q.replicaID c' (l ++ [.commit ⟨p.id, .prepare q, ui⟩]) := by
  have hfits : c.replicaViews q.replicaID = v ∧
      q.ui.counter = c.lastPrimaryCVs q.replicaID + 1 := by
    have hfits := hrec.fits
    rw [Commitments.Fits, if_neg (by simp [CertifiedMessage.proposed,
      CertifiedMessage.kind])] at hfits
    exact ⟨hfits.1, hfits.2.1⟩
  have hviews : c'.replicaViews q.replicaID = v := by
    rw [hrec.replicaViews]
    exact Function.update_self ..
  have hlast : c'.lastPrimaryCVs q.replicaID = q.ui.counter := by
    rw [hrec.lastPrimaryCVs]
    exact Function.update_self ..
  have hnext := (UInt64.eq_add_one_iff hcv).mp hfits.2
  cases h with
  | initial hv hl heq =>
      refine .initial hv (hl.concat hview hprimary (by omega) ui) ?_
      rw [hlast, List.length_append, List.length_singleton]
      omega
  | waiting _ hne => exact absurd hfits.1 hne
  | following hv _ hnvview hnv hl heq =>
      rw [List.cons_append]
      refine .following hv hviews hnvview hnv (hl.concat hview hprimary (by omega) ui) ?_
      rw [hlast, List.length_append, List.length_singleton]
      omega

theorem record_newView {nv : NewView} (h : Following p v nv.replicaID c l)
    (hrec : Commitments.Recorded (.newView nv) v c done c') (hview : nv.newView = v)
    (hprimary : isPrimary v nv.replicaID p.config.n = true) (ui : UI) :
    Following p v nv.replicaID c' (l ++ [.commit ⟨p.id, .newView nv, ui⟩]) := by
  have hfits : c.replicaViews nv.replicaID < v := by
    have hfits := hrec.fits
    rwa [← hview, Commitments.fits_newView, hview] at hfits
  have hv : v ≠ 0 := (UInt64.ne_of_lt (UInt64.lt_of_le_of_lt UInt64.zero_le hfits)).symm
  cases h with
  | initial hzero => exact absurd hzero hv
  | waiting =>
      refine .following hv ?_ hview hprimary (commitsFrom_nil _) ?_
      · rw [hrec.replicaViews]
        exact Function.update_self ..
      · rw [hrec.lastPrimaryCVs]
        exact congrArg _ (Function.update_self ..)
  | following _ heq => exact absurd heq (UInt64.ne_of_lt hfits)

end Following

namespace Section

variable {p : Params} {v : UInt64} {l : List CertifiedMessage}

/-- The primary proposes once it has announced the view. -/
theorem append_proposals {ps : List CertifiedMessage} (h : Section p v l)
    (hprimary : isPrimary v p.id p.config.n = true) (hne : v ≠ 0 → l ≠ [])
    (hps : Proposals p v ps) : Section p v (l ++ ps) := by
  cases h with
  | proposals hv _ hl => exact .proposals hv hprimary (hl.append hps)
  | commits _ hbackup =>
      rw [hprimary] at hbackup
      cases hbackup
  | empty hv => exact absurd rfl (hne hv)
  | announced hv _ hview hl => exact .announced hv hprimary hview (hl.append hps)
  | followed _ hbackup =>
      rw [hprimary] at hbackup
      cases hbackup

theorem eq_nil_of_primary (h : Section p v l) (hv : v ≠ 0)
    (hprimary : isPrimary v p.id p.config.n = true)
    (hnone : ∀ nv, .newView nv ∈ l → nv.newView ≠ v) : l = [] := by
  cases h with
  | proposals hzero => exact absurd hzero hv
  | commits hzero => exact absurd hzero hv
  | empty => rfl
  | announced _ _ hview => exact absurd hview (hnone _ List.mem_cons_self)
  | followed _ hbackup =>
      rw [hprimary] at hbackup
      cases hbackup

end Section

namespace Output

variable {p : Params} {o : Output}

theorem exists_certified_generate (mk : UI → CertifiedMessage) (o : Output) :
    ∃ ui, certified (o.generate p mk).generated = certified o.generated ++ [mk ui] :=
  ⟨_, certified_append _ _⟩

def Proposes (p : Params) (v : UInt64) (reqs : List Request) (o o' : Output) : Prop :=
  ∃ ps : List Prepare, certified o'.generated = certified o.generated ++ ps.map .prepare ∧
    (∀ q ∈ ps, q.replicaID = p.id ∧ q.view = v) ∧
    ps.map (·.request) = if isPrimary v p.id p.config.n then reqs else []

theorem proposes_applyRequest (v : UInt64) (r : Request) (o : Output) :
    Proposes p v [r] o (o.applyRequest p v r) := by
  unfold applyRequest Proposes
  split_ifs with hprimary
  · refine ⟨[⟨p.id, v, r, _⟩], certified_append _ _, fun q hq => ?_, rfl⟩
    cases List.mem_singleton.mp hq
    exact ⟨rfl, rfl⟩
  · exact ⟨[], (List.append_nil _).symm, fun _ hq => absurd hq List.not_mem_nil, rfl⟩

theorem Proposes.trans {v : UInt64} {reqs reqs' : List Request} {o o' o'' : Output}
    (h : Proposes p v reqs o o') (h' : Proposes p v reqs' o' o'') :
    Proposes p v (reqs ++ reqs') o o'' := by
  obtain ⟨ps, hps, hmem, hmap⟩ := h
  obtain ⟨ps', hps', hmem', hmap'⟩ := h'
  refine ⟨ps ++ ps', ?_, fun q hq => (List.mem_append.mp hq).elim (hmem q) (hmem' q), ?_⟩
  · rw [hps', hps, List.map_append, List.append_assoc]
  · rw [List.map_append, hmap, hmap']
    split_ifs <;> rfl

theorem proposes_applyPendingRequests (pendingReqs : RequestList) (order : List Request)
    (v : UInt64) (o : Output) :
    Proposes p v (pendingReqs.all order) o (o.applyPendingRequests p pendingReqs order v) := by
  unfold applyPendingRequests
  generalize pendingReqs.all order = reqs
  induction reqs generalizing o with
  | nil => exact ⟨[], (List.append_nil _).symm, fun _ hq => absurd hq List.not_mem_nil, by simp⟩
  | cons r reqs ih => exact (proposes_applyRequest v r o).trans (ih (o.applyRequest p v r))

/-- What is proposed are proposals, and a backup proposes nothing. -/
theorem Proposes.proposals {v : UInt64} {reqs : List Request} {o o' : Output}
    (h : Proposes p v reqs o o') :
    ∃ ps, certified o'.generated = certified o.generated ++ ps ∧ Proposals p v ps ∧
      (isPrimary v p.id p.config.n = false → ps = []) := by
  obtain ⟨ps, hps, hmem, hmap⟩ := h
  refine ⟨ps.map .prepare, hps, fun m hm => ?_, fun hbackup => ?_⟩
  · obtain ⟨q, hq, rfl⟩ := List.mem_map.mp hm
    exact ⟨q, rfl, hmem q hq⟩
  · rw [if_neg (by simp [hbackup]), List.map_eq_nil_iff] at hmap
    rw [hmap]
    rfl

end Output

namespace Execution

variable {m : CertifiedMessage} {w : UInt64} {x y : Execution}

/-- Without a panic, a message not taken into account leaves the commitments alone. -/
theorem Taken.commitments_of_error {e : Fault} (h : Taken m w x (.error e y))
    (hlive : ∀ q, e ≠ .panic q) : y.commitments = x.commitments := by
  cases h with
  | unprepared => rfl
  | failed wrap _ hcollect =>
      cases hcollect with
      | rejected => rfl
      | unexpected => exact absurd rfl (hlive _)
      | panicked _ _ hexec =>
          rw [Requests.executeAll_panics hexec] at hlive
          exact absurd rfl (hlive _)

end Execution

namespace Replica

variable {p : Params} {order : List Request} {C : Replica → Message → Prop} {s s' : Replica}
  {m : Message} {before l : List CertifiedMessage}

/-- The certified output so far, divided before the section for the expected view. -/
structure Divided (p : Params) (s : Replica) (before l : List CertifiedMessage) : Prop where
  output : Output.certified s.output.generated = before ++ l
  opened : Opened p s.expectedView before
  current : Section p s.expectedView l

def Follows (p : Params) (s : Replica) (l : List CertifiedMessage) : Prop :=
  ∀ r, r ≠ p.id → isPrimary s.expectedView r p.config.n = true →
    Following p s.expectedView r s.execution.commitments l

theorem follows_of_primary (h : isPrimary s.expectedView p.id p.config.n = true) :
    s.Follows p l :=
  fun _ hne hprimary => absurd (isPrimary_unique hprimary h) hne

theorem Divided.mem_current (h : Divided p s before l) {nv : NewView}
    (hnv : .certified (.newView nv) ∈ s.output.generated) (hview : nv.newView = s.expectedView) :
    .newView nv ∈ l := by
  rw [← Output.mem_certified, h.output] at hnv
  rcases List.mem_append.mp hnv with hnv | hnv
  · exact absurd (h.opened.messageView_lt hnv rfl) (hview ▸ UInt64.lt_irrefl _)
  · exact hnv

theorem Divided.requested (h : Divided p s before l) (hann : Announcing p s)
    (hview : s.currentView = s.expectedView) (r : Request) :
    ∃ ps, Output.certified (s.output.applyRequest p s.currentView r).generated =
        before ++ (l ++ ps) ∧ Section p s.expectedView (l ++ ps) ∧
      (isPrimary s.expectedView p.id p.config.n = false → ps = []) := by
  obtain ⟨ps, hps, hprop, hnil⟩ :=
    (Output.proposes_applyRequest (p := p) s.currentView r s.output).proposals
  rw [hview] at hprop hnil
  refine ⟨ps, by rw [hps, h.output, List.append_assoc], ?_, hnil⟩
  cases hprimary : isPrimary s.expectedView p.id p.config.n with
  | false =>
      rw [hnil hprimary, List.append_nil]
      exact h.current
  | true =>
      refine h.current.append_proposals hprimary (fun hv => ?_) hprop
      obtain ⟨nv, hnv, heq⟩ := hann.current (hview ▸ hv) (hview ▸ hprimary)
      exact List.ne_nil_of_mem (h.mem_current hnv (heq.trans hview))

theorem Divided.announced {vc : ViewChange} {cert : List ViewChange} (h : Divided p s before l)
    (hann : Announcing p s) (hpos : 1 ≤ vc.newView) (hcert : s.newViewCert p vc = some cert)
    (hview : vc.newView = s.expectedView) :
    l = [] ∧ isPrimary s.expectedView p.id p.config.n = true ∧ s.expectedView ≠ 0 := by
  have hprimary := hview ▸ ViewChangeCollector.isPrimary_of_cert hcert
  have hv : s.expectedView ≠ 0 := by
    rw [← hview]
    rintro hz
    rw [hz] at hpos
    exact absurd hpos (by decide)
  refine ⟨h.current.eq_nil_of_primary hv hprimary fun nv hnv heq => ?_, hprimary, hv⟩
  have hgen : .certified (.newView nv) ∈ s.output.generated := by
    rw [← Output.mem_certified, h.output]
    exact List.mem_append_right _ hnv
  have hlt := hann.newViews nv hgen
  rcases ViewChangeCollector.view_collect (p := p) vc s.viewChanges with ⟨hnone, -⟩ | ⟨-, hle, -⟩
  · rw [newViewCert, hnone] at hcert
    cases hcert
  · rw [heq, ← hview] at hlt
    exact absurd hle (UInt64.not_le.mpr hlt)

/-- What applying a message adds to the section. -/
theorem Divided.applied {c : CertifiedMessage} {x : Execution} (h : Divided p s before l)
    (hf : s.Follows p l) (hid : p.id < p.config.n) (htol : p.config.Tolerant) (hrun : s.Run p C)
    (hadmits : s.Admits p (.certified c)) (happ : s.Applicable c)
    (htake : Execution.take c s.execution = .ok () x) :
    ∃ l', Output.certified (respond p order x.requests.pendingReqs c s.output).generated =
        before ++ l' ∧ l <+: l' ∧ Section p s.expectedView l' ∧
      ∀ r, r ≠ p.id → isPrimary s.expectedView r p.config.n = true →
        Following p s.expectedView r x.commitments l' := by
  have hwf := hrun.admitted hid hadmits
  have hprimary := hwf.isPrimary_proposed happ.messageView
  obtain ⟨done, hrecord⟩ := (Transition.taken happ htake).recorded
  have hrec := Commitments.recorded (hrun.tracks hid htol).bound hrecord
  cases c with
  | prepare q =>
      have hview : q.view = s.expectedView := Option.some.inj happ.messageView
      by_cases hown : p.id = q.replicaID
      · refine ⟨l, ?_, List.prefix_refl l, h.current, fun r hne hr => ?_⟩
        · rw [respond, if_pos hown]
          exact h.output
        · exact absurd ((isPrimary_unique hr hprimary).trans hown.symm) hne
      · have hfollow := (hf q.replicaID (Ne.symm hown) hprimary).record_prepare hrec hview hprimary
          hwf.self.2.1.1
        obtain ⟨ui, hui⟩ := Output.exists_certified_generate (p := p)
          (fun ui => .commit ⟨p.id, .prepare q, ui⟩) s.output
        refine ⟨_, ?_, List.prefix_append _ _,
          (hfollow ui).toSection (isPrimary_eq_false hprimary hown), fun r _ hr => ?_⟩
        · rw [respond, if_neg hown, hui, h.output, List.append_assoc]
        · cases isPrimary_unique hr hprimary
          exact hfollow _
  | newView nv =>
      have hview : nv.newView = s.expectedView := Option.some.inj happ.messageView
      have hv : s.expectedView ≠ 0 := by
        have hlt := happ.newView rfl
        exact (UInt64.ne_of_lt (UInt64.lt_of_le_of_lt UInt64.zero_le hlt)).symm
      obtain ⟨ps, hps, hprop, hnil⟩ := (Output.proposes_applyPendingRequests (p := p)
        x.requests.pendingReqs order nv.newView s.output).proposals
      rw [hview] at hprop hnil
      by_cases hown : p.id = nv.replicaID
      · refine ⟨l ++ ps, ?_, List.prefix_append _ _, ?_, fun r hne hr => ?_⟩
        · simp only [respond, if_pos hown]
          rw [hps, h.output, List.append_assoc]
        · refine h.current.append_proposals (hown ▸ hprimary) (fun _ => ?_) hprop
          obtain ⟨nv', hnv', heq⟩ := (hrun.ownGenerated hid hadmits hown.symm).newView
          exact List.ne_nil_of_mem (h.mem_current hnv' (heq.trans hview))
        · exact absurd ((isPrimary_unique hr hprimary).trans hown.symm) hne
      · have hbackup := isPrimary_eq_false hprimary hown
        have hfollow := (hf nv.replicaID (Ne.symm hown) hprimary).record_newView hrec hview hprimary
        obtain ⟨ui, hui⟩ := Output.exists_certified_generate (p := p)
          (fun ui => .commit ⟨p.id, .newView nv, ui⟩)
          (s.output.applyPendingRequests p x.requests.pendingReqs order nv.newView)
        refine ⟨_, ?_, List.prefix_append _ _, (hfollow ui).toSection hbackup, fun r _ hr => ?_⟩
        · simp only [respond, if_neg hown]
          rw [hui, hps, hnil hbackup, List.append_nil, h.output, List.append_assoc]
        · cases isPrimary_unique hr hprimary
          exact hfollow _
  | commit commit =>
      refine ⟨l, h.output, List.prefix_refl l, h.current,
        fun r hne hr => (hf r hne hr).record_of_ne hrec ?_⟩
      cases isPrimary_unique hr hprimary
      exact Ne.symm hwf.self.2.2.1
  | viewChange vc => cases happ.messageView

/-- How one division follows another: the section grows, or the next one begins. -/
inductive Continues (s s' : Replica) (before l before' l' : List CertifiedMessage) : Prop where
  | grown (hexp : s'.expectedView = s.expectedView) (hbefore : before' = before) (hl : l <+: l')
  | begun (hexp : s.expectedView < s'.expectedView) (hl : l' = [])
      (hbefore : (before ++ l).length ≤ before'.length)

/-- One step keeps the division, and with it the agreement with the primary unless it panics. -/
theorem Divided.transition (h : Divided p s before l) (hf : s.Follows p l)
    (hid : p.id < p.config.n) (htol : p.config.Tolerant) (hrun : s.Run p C)
    (hadmits : s.Admits p m) (htrans : Transition p order m s s') :
    ∃ before' l', Divided p s' before' l' ∧ Continues s s' before l before' l' ∧
      ((∀ q r, processMessage p order m s ≠ .error (.panic q) r) → s'.Follows p l') := by
  have hann := hrun.announcing hid htol
  cases htrans with
  | @requested r _ _ _ hview =>
      obtain ⟨ps, hps, hsection, hnil⟩ := h.requested hann hview r
      refine ⟨before, l ++ ps, ⟨hps, h.opened, hsection⟩, .grown rfl rfl (List.prefix_append _ _),
        fun _ r' hne hprimary => ?_⟩
      rw [hnil (isPrimary_eq_false hprimary (Ne.symm hne)), List.append_nil]
      exact hf r' hne hprimary
  | @newView vc cert _ _ hcert hview =>
      obtain ⟨rfl, hprimary, hv⟩ := h.announced hann (hrun.admitted hid hadmits).self.2.2 hcert
        hview
      have hsection : ∀ ui, Section p s.expectedView [.newView ⟨p.id, vc.newView, cert, ui⟩] :=
        fun _ => .announced hv hprimary hview fun _ hm => absurd hm List.not_mem_nil
      obtain ⟨ui, hui⟩ := Output.exists_certified_generate (p := p)
        (fun ui => .newView ⟨p.id, vc.newView, cert, ui⟩) s.output.resetLog
      refine ⟨before, _, ⟨hui.trans ?_, h.opened, hsection ui⟩, .grown rfl rfl List.nil_prefix,
        fun _ => follows_of_primary hprimary⟩
      exact congrArg (· ++ _) (h.output.trans (List.append_nil _))
  | @failed c _ e x happ htake =>
      refine ⟨before, l, ⟨h.output, h.opened, h.current⟩, .grown rfl rfl (List.prefix_refl l),
        fun hlive r hne hprimary => ?_⟩
      refine (hf r hne hprimary).congr ?_ ?_ <;>
        · rw [show (s.attempt c x).execution.commitments = s.execution.commitments from
            (Transition.taken happ htake).commitments_of_error (ne_panic_of_live hlive happ htake)]
  | applied happ htake =>
      obtain ⟨l', houtput, hl, hsection, hfollow⟩ :=
        h.applied hf hid htol hrun hadmits happ htake
      exact ⟨before, l', ⟨houtput, h.opened, hsection⟩, .grown rfl rfl hl, fun _ => hfollow⟩
  | @leftView rvc cert _ hcert hlt =>
      have hview := (ReqViewChangeCollector.of_cert hcert).1
      rw [(hrun.collecting hid htol).view] at hview
      have hv : rvc.newView ≠ 0 :=
        (UInt64.ne_of_lt (UInt64.lt_of_le_of_lt UInt64.zero_le hlt)).symm
      obtain ⟨ui, hui⟩ := Output.exists_certified_generate (p := p) (fun ui => .viewChange
        ⟨p.id, rvc.newView, Output.certified s.output.log, cert, ui⟩)
        (s.output.resetLog.startTimer rvc.newView)
      have hopened : ∀ vc : ViewChange, vc.newView = rvc.newView →
          Opened p rvc.newView (before ++ l ++ [.viewChange vc]) := by
        intro vc hvc
        rw [hview] at hvc hlt ⊢
        exact .viewChange h.opened h.current hlt hvc
      refine ⟨_, [], ⟨hui.trans ?_,
        hopened ⟨p.id, rvc.newView, Output.certified s.output.log, cert, ui⟩ rfl, .empty hv⟩,
        .begun hlt rfl ?_, fun _ r _ _ => .waiting hv ?_⟩
      · rw [List.append_nil]
        exact congrArg (· ++ _) h.output
      · simp
      · have ht := hrun.tracks hid htol
        exact UInt64.ne_of_lt (UInt64.lt_of_le_of_lt (UInt64.le_trans (ht.views r) ht.bound) hlt)
  | _ => exact ⟨before, l, ⟨h.output, h.opened, h.current⟩, .grown rfl rfl (List.prefix_refl l),
      fun _ => hf⟩

theorem divided_init : Divided p (Replica.init p) [] [] ∧ (Replica.init p).Follows p [] := by
  refine ⟨⟨rfl, .initial, ?_⟩, fun r _ _ => .initial rfl (commitsFrom_nil 0) rfl⟩
  cases hprimary : isPrimary 0 p.id p.config.n with
  | true => exact .proposals rfl hprimary fun _ hm => absurd hm List.not_mem_nil
  | false => exact .commits rfl hprimary (commitsFrom_nil 0)

theorem Divided.requestViewChange {view : UInt64} (h : Divided p s before l) :
    Divided p (s.requestViewChange p view) before l := by
  refine ⟨?_, ?_, ?_⟩
  · rw [certified_requestViewChange]
    exact h.output
  · rw [expectedView_requestViewChange]
    exact h.opened
  · rw [expectedView_requestViewChange]
    exact h.current

theorem Follows.requestViewChange {view : UInt64} (h : s.Follows p l) :
    (s.requestViewChange p view).Follows p l := by
  rw [Follows, expectedView_requestViewChange, execution_requestViewChange]
  exact h

end Replica

namespace Node

/-- The certified output of a replica: counters without gaps in the order of the log, a section for
each view, and ViewChanges that pass validation. -/
structure WellShaped (p : Params) (s : Replica) : Prop where
  counters : (Output.certified s.output.generated).map (·.counter.toNat) =
    List.range' 1 (Output.certified s.output.generated).length
  log : s.output.log <:+ s.output.generated
  sections : ∃ before l, Output.certified s.output.generated = before ++ l ∧
    Opened p s.expectedView before ∧ Section p s.expectedView l
  viewChanges : ∀ vc, .viewChange vc ∈ Output.certified s.output.generated →
    validateViewChange p.config vc = .ok ()

theorem Reachable.divided {p : Params} {C : Replica → Message → Prop} {s : Node}
    (hid : p.id < p.config.n) (htol : p.config.Tolerant) (h : s.Reachable p C) :
    ∃ before l, s.replica.Divided p before l ∧ (s.crashed = none → s.replica.Follows p l) := by
  induction h with
  | init => exact ⟨[], [], Replica.divided_init.1, fun _ => Replica.divided_init.2⟩
  | @step s s' l' hreach hstep hcond ih =>
      obtain ⟨before, l, hdiv, hfollows⟩ := ih
      obtain ⟨hlive, hstepped, -⟩ := step_cases hstep
      obtain ⟨hrun, hlinked⟩ := hreach.linked
      rcases hstepped.replica_cases with heq | ⟨view, -, heq⟩ | ⟨m, order, hproc, heq, halive⟩
      · rw [heq]
        exact ⟨before, l, hdiv, fun _ => hfollows hlive⟩
      · rw [heq]
        exact ⟨before, l, hdiv.requestViewChange, fun _ => (hfollows hlive).requestViewChange⟩
      · rw [heq]
        obtain ⟨before', l', hdiv', -, hfollows'⟩ := hdiv.transition (hfollows hlive) hid htol hrun
          (hlinked.admits hproc) (Replica.processMessage_transition _ _)
        exact ⟨before', l', hdiv', fun hc => hfollows' (halive hc)⟩

/-- Whatever its peers and clients do, a replica's certified output has the right shape. -/
theorem wellShaped {p : Params} {s : Node} (hid : p.id < p.config.n) (htol : p.config.Tolerant)
    (h : s.Reachable p fun _ _ => True) : WellShaped p s.replica := by
  obtain ⟨before, l, hdiv, -⟩ := h.divided hid htol
  refine ⟨(h.run.counters hid).1, h.linked.2.log,
    ⟨before, l, hdiv.output, hdiv.opened, hdiv.current⟩, fun vc hvc => ?_⟩
  exact ((h.run.proper hid htol).generated _ (Output.mem_certified.mp hvc)).self.2 vc rfl

end Node

namespace Concrete

theorem wellShaped_of_promotion : ∃ s : Node, s.Reachable promotedParams (fun _ _ => True) ∧
    s.replica.expectedView = 1 ∧ Node.WellShaped promotedParams s.replica := by
  have h : ((Node.init promotedParams).exec promotedParams (fun _ _ => true) promotion).any
      (fun s => s.replica.expectedView == 1) = true := by
    decide +kernel
  obtain ⟨s, hreach, hs⟩ := Node.exists_reachable promotedParams (fun _ _ _ => trivial) h
  exact ⟨s, hreach, beq_iff_eq.mp hs, Node.wellShaped (by decide)
    (by unfold Config.Tolerant; decide) hreach⟩

end Concrete

end MinBFT
