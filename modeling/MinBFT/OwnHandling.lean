import MinBFT.Bookkeeping
import MinBFT.Handling
import MinBFT.OwnProgress

/-!
# A replica handles its own messages without fail

Handling one of its own messages must not fail, or the replica panics. It does not as long as the
proposals it has not come to yet are of requests not yet prepared. A primary proposes a request when
it is captured, or the pending ones when it enters a view. So the proposals are in order where the
pending request of each client is the last one captured.
-/

namespace MinBFT

def Newer (m m' : CertifiedMessage) : Prop :=
  ∀ q q', m = .prepare q → m' = .prepare q' → q.request.clientID = q'.request.clientID →
    q.request.sequence < q'.request.sequence

/-- A backup proposes nothing. -/
theorem Section.not_prepare {p : Params} {v : UInt64} {l : List CertifiedMessage}
    (h : Section p v l) (hbackup : isPrimary v p.id p.config.n = false) (q : Prepare) :
    .prepare q ∉ l := by
  have hcommits {cv : ℕ} {l : List CertifiedMessage} (hl : CommitsFrom p v cv l) :
      .prepare q ∉ l := by
    obtain ⟨qs, rfl, -⟩ := hl
    intro hq
    obtain ⟨x, -, hx⟩ := List.mem_map.mp hq
    cases hx
  cases h with
  | proposals _ hprimary => cases hprimary.symm.trans hbackup
  | commits _ _ hl => exact hcommits hl
  | empty => exact List.not_mem_nil
  | announced _ hprimary => cases hprimary.symm.trans hbackup
  | followed _ _ _ _ hl =>
      intro hq
      rcases List.mem_cons.mp hq with hq | hq
      · cases hq
      · exact hcommits hl hq

namespace Execution

variable {c : CertifiedMessage} {w : UInt64} {x y : Execution}

theorem Collected.lastPreparedSeq (h : Collected c w x (.ok () y)) (id : UInt32) :
    (y.requests.clients id).lastPreparedSeq = (x.requests.clients id).lastPreparedSeq := by
  cases h with
  | counted => rfl
  | @executed _ reqs r _ _ hexec =>
      have heq := Requests.executeAll_lastPreparedSeq reqs x.requests id
      rwa [hexec] at heq

/-- A Prepare that is taken into account prepares its request and nothing else. -/
theorem Taken.lastPreparedSeq_prepare {q : Prepare} (h : Taken (.prepare q) w x (.ok () y))
    (id : UInt32) : (y.requests.clients id).lastPreparedSeq =
      if id = q.request.clientID then q.request.sequence
      else (x.requests.clients id).lastPreparedSeq := by
  cases h with
  | @taken r _ hprep hcollect =>
      rw [hcollect.lastPreparedSeq]
      rcases prepareFor_prepare_cases q x.requests with
        ⟨-, heq⟩ | ⟨-, ⟨-, heq⟩ | ⟨-, heq⟩⟩ <;> cases hprep.symm.trans heq
      split_ifs with hid
      · subst hid
        simp [Requests.markPrepared]
      · simp [Requests.markPrepared, hid]

/-- A Commit prepares nothing. -/
theorem Taken.lastPreparedSeq_commit {m : Commit} (h : Taken (.commit m) w x (.ok () y))
    (id : UInt32) :
    (y.requests.clients id).lastPreparedSeq = (x.requests.clients id).lastPreparedSeq := by
  cases h with
  | taken hprep hcollect =>
      cases hprep
      exact hcollect.lastPreparedSeq id

/-- A Commit that is refused changes nothing. -/
theorem Taken.requests_of_error {m : Commit} {e : Fault} (h : Taken (.commit m) w x (.error e y))
    (hlive : ∀ q, e ≠ .panic q) : y.requests = x.requests := by
  cases h with
  | unprepared hprep => cases hprep
  | failed wrap hprep hcollect =>
      cases hprep
      cases hcollect with
      | rejected => rfl
      | unexpected => exact absurd rfl (hlive _)
      | panicked _ _ hexec =>
          rw [Requests.executeAll_panics hexec] at hlive
          exact absurd rfl (hlive _)

end Execution

namespace Replica

variable {p : Params} {order : List Request} {C : Replica → Message → Prop} {s s' : Replica}
  {m : Message} {before l before' l' : List CertifiedMessage}

structure Proposing (p : Params) (s : Replica) (l : List CertifiedMessage) : Prop where
  captured : ∀ q, .prepare q ∈ l → q.request.sequence ≤
    (s.execution.requests.clients q.request.clientID).lastCapturedSeq
  increasing : l.Pairwise Newer
  fresh : ∀ q, .prepare q ∈ l → s.lastUI p.id < q.ui.counter →
    (s.execution.requests.clients q.request.clientID).lastPreparedSeq < q.request.sequence
  idle : s.currentView ≠ s.expectedView → ∀ q, .prepare q ∉ l

namespace Proposing

theorem of_none (h : ∀ q, .prepare q ∉ l) : Proposing p s l := by
  refine ⟨fun q hq => absurd hq (h q), ?_, fun q hq => absurd hq (h q), fun _ => h⟩
  refine List.Pairwise.imp_of_mem ?_ (List.pairwise_of_forall fun _ _ => trivial)
  rintro a b ha - - q - rfl
  exact absurd ha (h q)

theorem keep (h : Proposing p s l) (hview : s'.currentView ≠ s'.expectedView →
      s.currentView ≠ s.expectedView) (hlast : s.lastUI p.id ≤ s'.lastUI p.id)
    (hcap : ∀ id, (s.execution.requests.clients id).lastCapturedSeq ≤
      (s'.execution.requests.clients id).lastCapturedSeq)
    (hprep : ∀ id, (s'.execution.requests.clients id).lastPreparedSeq =
      (s.execution.requests.clients id).lastPreparedSeq) : Proposing p s' l := by
  refine ⟨fun q hq => UInt64.le_trans (h.captured q hq) (hcap _), h.increasing, fun q hq hlt => ?_,
    fun hne => h.idle (hview hne)⟩
  rw [hprep]
  exact h.fresh q hq (UInt64.lt_of_le_of_lt hlast hlt)

/-- New proposals are of later requests, one for each client. -/
theorem append {qs : List Prepare} (h : Proposing p s l)
    (hview : s'.currentView = s'.expectedView) (hlast : s.lastUI p.id ≤ s'.lastUI p.id)
    (hcap : ∀ id, (s.execution.requests.clients id).lastCapturedSeq ≤
      (s'.execution.requests.clients id).lastCapturedSeq)
    (hold : ∀ q, .prepare q ∈ l →
      (s'.execution.requests.clients q.request.clientID).lastPreparedSeq =
        (s.execution.requests.clients q.request.clientID).lastPreparedSeq ∧
      ∀ q' ∈ qs, q.request.clientID = q'.request.clientID →
        q.request.sequence < q'.request.sequence)
    (hnodup : ((qs.map (·.request)).map (·.clientID)).Nodup)
    (hnew : ∀ r ∈ qs.map (·.request),
      (s'.execution.requests.clients r.clientID).lastPreparedSeq < r.sequence ∧
        r.sequence ≤ (s'.execution.requests.clients r.clientID).lastCapturedSeq) :
    Proposing p s' (l ++ qs.map .prepare) := by
  have hmem {q : Prepare} (hq : .prepare q ∈ l ++ qs.map .prepare) : .prepare q ∈ l ∨ q ∈ qs := by
    rcases List.mem_append.mp hq with hq | hq
    · exact .inl hq
    · obtain ⟨x, hx, heq⟩ := List.mem_map.mp hq
      cases heq
      exact .inr hx
  refine ⟨fun q hq => ?_, ?_, fun q hq hlt => ?_, fun hne => absurd hview hne⟩
  · rcases hmem hq with hq | hq
    · exact UInt64.le_trans (h.captured q hq) (hcap _)
    · exact (hnew _ (List.mem_map.mpr ⟨q, hq, rfl⟩)).2
  · refine List.pairwise_append.mpr ⟨h.increasing, ?_, ?_⟩
    · rw [List.map_map, List.Nodup, List.pairwise_map] at hnodup
      rw [List.pairwise_map]
      refine hnodup.imp ?_
      rintro a b hne q q' ⟨⟩ ⟨⟩ heq
      exact absurd heq hne
    · rintro a ha b hb q q' rfl rfl
      obtain ⟨x, hx, heq⟩ := List.mem_map.mp hb
      cases heq
      exact (hold q ha).2 q' hx
  · rcases hmem hq with hq | hq
    · rw [(hold q hq).1]
      exact h.fresh q hq (UInt64.lt_of_le_of_lt hlast hlt)
    · exact (hnew _ (List.mem_map.mpr ⟨q, hq, rfl⟩)).1

/-- The request of the next own Prepare for the expected view has not been prepared. -/
theorem own_fresh {q : Prepare} (h : Proposing p s l) (hdiv : Divided p s before l)
    (hid : p.id < p.config.n) (hsha : Function.Injective p.crypto.sha256) (hrun : s.Run p C)
    (hadmits : s.Admits p (.certified (.prepare q))) (hown : q.replicaID = p.id)
    (happ : s.Applicable (.prepare q)) :
    (s.execution.requests.clients q.request.clientID).lastPreparedSeq < q.request.sequence := by
  obtain ⟨g, i, hsame, hn, hg⟩ := hdiv.own_current hid hsha hrun hadmits hown happ
  obtain ⟨q', rfl, hbytes⟩ := CertifiedMessage.eq_prepare_of_authenBytes_eq hsame.authenBytes
  obtain ⟨-, hclient, hseq, -⟩ := Prepare.authenBytes_inj hsha hbytes
  rw [hclient, hseq]
  refine h.fresh q' (List.mem_of_getElem? hg) (UInt64.lt_iff_toNat_lt.mpr ?_)
  have hcounter : q'.ui.counter.toNat = _ := hdiv.numbered hid hrun i _ hg
  omega

/-- An own Prepare is applied. -/
theorem apply_prepare {q : Prepare} (h : Proposing p s l) (hdiv : Divided p s before l)
    (hid : p.id < p.config.n) (hsha : Function.Injective p.crypto.sha256) (hrun : s.Run p C)
    (hadmits : s.Admits p (.certified (.prepare q))) (hown : q.replicaID = p.id)
    (happ : s.Applicable (.prepare q)) (hview : s'.currentView ≠ s'.expectedView →
      s.currentView ≠ s.expectedView) (hlast : s'.lastUI p.id = q.ui.counter)
    (hcap : ∀ id, (s.execution.requests.clients id).lastCapturedSeq ≤
      (s'.execution.requests.clients id).lastCapturedSeq)
    (hprep : ∀ id, (s'.execution.requests.clients id).lastPreparedSeq =
      if id = q.request.clientID then q.request.sequence
      else (s.execution.requests.clients id).lastPreparedSeq) : Proposing p s' l := by
  refine ⟨fun q hq => UInt64.le_trans (h.captured q hq) (hcap _), h.increasing,
    fun q' hq' hlt => ?_, fun hne => h.idle (hview hne)⟩
  have hnumbered := hdiv.numbered hid hrun
  have hnext := (UInt64.eq_add_one_iff (hrun.admitted hid hadmits).self.2.1.1).mp happ.next
  rw [hlast] at hlt
  rw [hprep]
  split_ifs with hclient
  · -- what is left comes after the Prepare applied
    obtain ⟨g, i, hsame, hn, hg⟩ := hdiv.own_current hid hsha hrun hadmits hown happ
    obtain ⟨q₀, rfl, hbytes⟩ := CertifiedMessage.eq_prepare_of_authenBytes_eq hsame.authenBytes
    obtain ⟨-, hclient₀, hseq₀, -⟩ := Prepare.authenBytes_inj hsha hbytes
    obtain ⟨j, hj⟩ := List.getElem?_of_mem hq'
    have hlt' : q.ui.counter.toNat < q'.ui.counter.toNat := UInt64.lt_iff_toNat_lt.mp hlt
    have hi : q₀.ui.counter.toNat = _ := hnumbered i _ hg
    have hcounter : q'.ui.counter.toNat = _ := hnumbered j _ hj
    have heq : q.ui.counter = q₀.ui.counter := hsame.counter
    rw [heq] at hlt'
    obtain ⟨hib, hgi⟩ := List.getElem?_eq_some_iff.mp hg
    obtain ⟨hjb, hgj⟩ := List.getElem?_eq_some_iff.mp hj
    have hnewer := List.pairwise_iff_getElem.mp h.increasing i j hib hjb (by omega)
    rw [hgi, hgj] at hnewer
    rw [hseq₀]
    exact hnewer q₀ q' rfl rfl (hclient₀.symm.trans hclient.symm)
  · refine h.fresh q' hq' (UInt64.lt_trans (UInt64.lt_iff_toNat_lt.mpr ?_) hlt)
    have hcounter : q.ui.counter.toNat = (s.lastUI q.replicaID).toNat + 1 := hnext
    rw [hown] at hcounter
    omega

/-- A primary enters its view and proposes what is pending. -/
theorem apply_newView {nv : NewView} {x : Execution} {qs : List Prepare} (h : Proposing p s l)
    (hview : s'.currentView = s'.expectedView) (hlast : s.lastUI p.id ≤ s'.lastUI p.id)
    (happ : s.Applicable (.newView nv)) (hexec : s'.execution = x)
    (hsteps : Requests.Steps s.execution.requests x.requests)
    (hnewest : ∀ id, s.execution.requests.Newest id)
    (hqs : qs.map (·.request) = x.requests.pendingReqs.all order) :
    Proposing p s' (l ++ qs.map .prepare) := by
  subst hexec
  have hidle := h.idle (UInt64.ne_of_lt (happ.newView rfl))
  refine h.append hview hlast (fun id => UInt64.le_of_eq (hsteps.lastCapturedSeq id).symm)
    (fun q hq => absurd hq (hidle q)) ?_ fun r hr => ?_
  · rw [hqs]
    exact ((RequestList.all_perm order _).map _).nodup_iff.mpr
      s'.execution.requests.pendingReqs.nodup
  · rw [hqs, RequestList.mem_all] at hr
    obtain ⟨hlt, heq⟩ := (hsteps.newest (hnewest r.clientID)).pending r hr rfl
    exact ⟨hlt, UInt64.le_of_eq heq⟩

/-- A primary proposes a request it has captured. -/
theorem request {r : Request} {requests : Requests} {qs : List Prepare} (h : Proposing p s l)
    (hcap : s.execution.requests.captureReq r = some requests)
    (hexec : s'.execution.requests = requests) (hview : s'.currentView = s'.expectedView)
    (hlast : s.lastUI p.id ≤ s'.lastUI p.id)
    (hranked : s.execution.requests.Ranked r.clientID)
    (hqs : qs.map (·.request) = [r]) : Proposing p s' (l ++ qs.map .prepare) := by
  obtain ⟨hlt, -⟩ := Requests.captured_of_captureReq hcap
  have hprep := (Requests.captureReq_frame hcap).2.2
  have hcaptured := Requests.captureReq_lastCapturedSeq hcap
  subst hexec
  refine h.append hview hlast (fun id => (hcaptured id).1) (fun q hq => ⟨hprep _, ?_⟩) ?_ ?_
  · intro q' hq' hclient
    have hr : q'.request = r :=
      List.mem_singleton.mp (hqs ▸ List.mem_map.mpr ⟨q', hq', rfl⟩)
    rw [hr] at hclient ⊢
    exact UInt64.lt_of_le_of_lt (h.captured q hq) (hclient ▸ hlt)
  · rw [hqs]
    exact List.nodup_singleton _
  · intro r' hr'
    rw [hqs] at hr'
    cases List.mem_singleton.mp hr'
    rw [hprep, (hcaptured r.clientID).2 rfl]
    exact ⟨UInt64.lt_of_le_of_lt hranked.prepared_le hlt, UInt64.le_refl _⟩

theorem transition (h : Proposing p s l) (hacc : Accounted p s before l)
    (hdiv : Divided p s before l) (hdiv' : Divided p s' before' l')
    (hcont : Continues s s' before l before' l') (hid : p.id < p.config.n)
    (htol : p.config.Tolerant) (hsha : Function.Injective p.crypto.sha256) (hrun : s.Run p C)
    (hnewest : ∀ id, s.execution.requests.Newest id) (hordered : Ordered s) (hc : s.Timely m)
    (hadmits : s.Admits p m) (hlive : ∀ q r, processMessage p order m s ≠ .error (.panic q) r)
    (htrans : Transition p order m s s') : Proposing p s' l' := by
  cases hcont with
  | begun _ hl =>
      subst hl
      exact of_none fun _ => List.not_mem_nil
  | grown hexp hbefore hl =>
      subst hbefore
      cases hprimary : isPrimary s.expectedView p.id p.config.n with
      | false => exact of_none (hdiv'.current.not_prepare (hexp ▸ hprimary))
      | true =>
          have hlast : s.lastUI p.id ≤ s'.lastUI p.id := by
            refine htrans.lastUI_le ?_ p.id
            rintro c rfl
            exact (hrun.admitted hid hadmits).self.2.1.1
          have happend {t : List CertifiedMessage} (ht : Output.certified s'.output.generated =
              Output.certified s.output.generated ++ t) : l' = l ++ t := by
            rw [hdiv.output, hdiv'.output, List.append_assoc] at ht
            exact List.append_cancel_left ht
          have hkeep (hgen : s'.output.generated = s.output.generated)
              (hview : s'.currentView ≠ s'.expectedView → s.currentView ≠ s.expectedView)
              (hcap : ∀ id, (s.execution.requests.clients id).lastCapturedSeq ≤
                (s'.execution.requests.clients id).lastCapturedSeq)
              (hprep : ∀ id, (s'.execution.requests.clients id).lastPreparedSeq =
                (s.execution.requests.clients id).lastPreparedSeq) : Proposing p s' l' := by
            obtain rfl : l' = l := by simpa using happend (t := []) (by simp [hgen])
            exact h.keep hview hlast hcap hprep
          have hcaptured := htrans.lastCapturedSeq_le
          cases htrans with
          | captured hcap hne =>
              exact hkeep rfl id hcaptured (Requests.captureReq_frame hcap).2.2
          | @requested r _ requests hcap hview =>
              obtain ⟨qs, hqs, -, hreqs⟩ :=
                Output.proposes_applyRequest (p := p) s.currentView r s.output
              rw [hview, if_pos hprimary] at hreqs
              rw [happend hqs]
              exact h.request hcap rfl hview hlast (hrun.ranked _) hreqs
          | @newView vc cert _ hnext hcert hview =>
              obtain ⟨rfl, -, -⟩ := hdiv.announced (hrun.announcing hid htol)
                (hrun.admitted hid hadmits).self.2.2 hcert hview
              obtain ⟨ui, hui⟩ := Output.exists_certified_generate (p := p)
                (fun ui => .newView ⟨p.id, vc.newView, cert, ui⟩) s.output.resetLog
              rw [happend hui]
              refine of_none fun q hq => ?_
              cases List.mem_singleton.mp hq
          | @skipped nv _ hnext hlt hne =>
              refine hkeep rfl (fun _ => ?_) (fun _ => UInt64.le_refl _) fun _ => rfl
              exact UInt64.ne_of_lt (UInt64.lt_of_lt_of_le hlt (hc hnext))
          | @failed c _ e x happ htake =>
              have htaken := Transition.taken happ htake
              have hno := ne_panic_of_live hlive happ htake
              cases c with
              | commit c =>
                  refine hkeep rfl id hcaptured fun id => ?_
                  rw [show (s.attempt (.commit c) x).execution.requests = s.execution.requests from
                    htaken.requests_of_error hno]
              | viewChange vc => cases happ.messageView
              | prepare q =>
                  -- the replica is the primary, and its own Prepares are taken into account
                  have hown := isPrimary_unique
                    ((hrun.admitted hid hadmits).isPrimary_proposed happ.messageView) hprimary
                  obtain ⟨q, rfl⟩ := htaken.panics_of_fits
                    (hacc.fits hdiv hid hsha hrun hadmits hown happ)
                    (by rintro _ ⟨⟩; exact h.own_fresh hdiv hid hsha hrun hadmits hown happ)
                  exact absurd rfl (hno q)
              | newView nv =>
                  obtain ⟨q, rfl⟩ := htaken.panics_of_fits (happ.fits hordered.replicaViews)
                    (by rintro _ ⟨⟩)
                  exact absurd rfl (hno q)
          | @applied c _ x happ htake =>
              have htaken := Transition.taken happ htake
              have hprim := (hrun.admitted hid hadmits).isPrimary_proposed happ.messageView
              cases c with
              | commit c => exact hkeep rfl id hcaptured htaken.lastPreparedSeq_commit
              | viewChange vc => cases happ.messageView
              | prepare q =>
                  have hown : q.replicaID = p.id := isPrimary_unique hprim hprimary
                  have hgen : respond p order x.requests.pendingReqs (.prepare q) s.output =
                      s.output := if_pos hown.symm
                  obtain rfl : l' = l := by
                    refine (happend (t := []) ?_).trans (List.append_nil l)
                    rw [List.append_nil]
                    exact congrArg (Output.certified ·.generated) hgen
                  exact h.apply_prepare hdiv hid hsha hrun hadmits hown happ id
                    (hown ▸ Function.update_self ..) hcaptured htaken.lastPreparedSeq_prepare
              | newView nv =>
                  have hown : nv.replicaID = p.id := isPrimary_unique hprim hprimary
                  have hview : nv.newView = s.expectedView := Option.some.inj happ.messageView
                  obtain ⟨qs, hqs, -, hreqs⟩ := Output.proposes_applyPendingRequests (p := p)
                    x.requests.pendingReqs order nv.newView s.output
                  rw [hview, if_pos hprimary] at hreqs
                  have hgen : respond p order x.requests.pendingReqs (.newView nv) s.output =
                      s.output.applyPendingRequests p x.requests.pendingReqs order nv.newView :=
                    if_pos hown.symm
                  rw [happend ((congrArg (Output.certified ·.generated) hgen).trans hqs)]
                  have hcur : s.viewFor (.newView nv) = s.expectedView := if_pos rfl
                  exact h.apply_newView hcur hlast happ rfl htaken.requests_steps hnewest hreqs
          | leftView _ hlt => exact absurd hexp (UInt64.ne_of_lt hlt).symm
          | _ => exact hkeep rfl id (fun _ => UInt64.le_refl _) fun _ => rfl

theorem requestViewChange {view : UInt64} (h : Proposing p s l) :
    Proposing p (s.requestViewChange p view) l := by
  refine h.keep ?_ ?_ ?_ ?_
  · rw [currentView_requestViewChange, expectedView_requestViewChange]
    exact id
  · rw [lastUI_requestViewChange]
    exact UInt64.le_refl _
  · rw [execution_requestViewChange]
    exact fun _ => UInt64.le_refl _
  · rw [execution_requestViewChange]
    exact fun _ => rfl

end Proposing

/-- The counter of the last message processed from the sender is not the greatest there is. -/
def Unexhausted (s : Replica) : Message → Prop
  | .certified c => s.lastUI c.replicaID + 1 ≠ 0
  | _ => True

structure Regular (p : Params) (s : Replica) (m : Message) : Prop where
  timely : s.Timely m
  unequivocal : s.Unequivocal m
  newestPrepared : s.NewestPrepared p m
  unexhausted : s.Unexhausted m

instance (s : Replica) : (m : Message) → Decidable (s.Unexhausted m)
  | .certified c => inferInstanceAs (Decidable (s.lastUI c.replicaID + 1 ≠ 0))
  | .hello _ => .isTrue trivial
  | .request _ => .isTrue trivial
  | .reply _ => .isTrue trivial
  | .reqViewChange _ => .isTrue trivial

instance (p : Params) (s : Replica) (m : Message) : Decidable (s.Regular p m) :=
  decidable_of_iff (s.Timely m ∧ s.Unequivocal m ∧ s.NewestPrepared p m ∧ s.Unexhausted m)
    ⟨fun ⟨h₁, h₂, h₃, h₄⟩ => ⟨h₁, h₂, h₃, h₄⟩, fun ⟨h₁, h₂, h₃, h₄⟩ => ⟨h₁, h₂, h₃, h₄⟩⟩

/-- What a message adds to the output, apart from a NewView, is for the view of the message. -/
theorem messageView_respond {c g : CertifiedMessage} {pendingReqs : RequestList} {o : Output}
    (hg : g ∈ Output.certified (respond p order pendingReqs c o).generated) :
    g ∈ Output.certified o.generated ∨ g.messageView = c.messageView := by
  have hgenerate {mk : UI → CertifiedMessage} {o' : Output}
      (hg : g ∈ Output.certified (o'.generate p mk).generated)
      (hmk : ∀ ui, (mk ui).messageView = c.messageView) :
      g ∈ Output.certified o'.generated ∨ g.messageView = c.messageView := by
    obtain ⟨ui, hui⟩ := Output.exists_certified_generate (p := p) mk o'
    rw [hui] at hg
    rcases List.mem_append.mp hg with hg | hg
    · exact .inl hg
    · exact .inr (List.mem_singleton.mp hg ▸ hmk ui)
  cases c with
  | prepare q =>
      simp only [respond] at hg
      split_ifs at hg
      · exact .inl hg
      · exact hgenerate hg fun _ => rfl
  | newView nv =>
      have hpending (hg : g ∈ Output.certified
            (o.applyPendingRequests p pendingReqs order nv.newView).generated) :
          g ∈ Output.certified o.generated ∨
            g.messageView = (CertifiedMessage.newView nv).messageView := by
        obtain ⟨ps, hps, hprop, -⟩ := (Output.proposes_applyPendingRequests (p := p)
          pendingReqs order nv.newView o).proposals
        rw [hps] at hg
        exact (List.mem_append.mp hg).imp_right fun hg => hprop.messageView hg
      simp only [respond] at hg
      split_ifs at hg
      · exact hpending hg
      · exact (hgenerate hg fun _ => rfl).elim hpending .inr
  | commit => exact .inl hg
  | viewChange => exact .inl hg

theorem Applicable.expectedView_le_viewFor {c : CertifiedMessage} (h : s.Applicable c) :
    s.expectedView ≤ s.viewFor c := by
  unfold viewFor
  split_ifs with hkind
  · exact UInt64.le_refl _
  · exact h.other hkind

theorem Transition.currentView_le (h : Transition p order m s s') :
    s.currentView ≤ s'.currentView := by
  have hview {c : CertifiedMessage} (happ : s.Applicable c) : s.currentView ≤ s.viewFor c := by
    unfold viewFor
    split_ifs with hkind
    · exact UInt64.le_of_lt (happ.newView hkind)
    · exact UInt64.le_refl _
  cases h with
  | skipped _ hlt => exact UInt64.le_of_lt hlt
  | failed happ => exact hview happ
  | applied happ => exact hview happ
  | _ => exact UInt64.le_refl _

/-- What the replica has generated, apart from NewViews, is not ahead of the current view. -/
theorem Run.generated_not_ahead (h : s.Run p C) : ∀ c ∈ Output.certified s.output.generated,
    c.kind ≠ .newView → ∀ w, c.messageView = some w → w ≤ s.currentView := by
  induction h with
  | init => exact fun _ hc => absurd hc List.not_mem_nil
  | @process s s' m order hrun _ _ htrans _ ih =>
      intro c hc hkind w hw
      have hold (hc : c ∈ Output.certified s.output.generated) : w ≤ s'.currentView :=
        UInt64.le_trans (ih c hc hkind w hw) htrans.currentView_le
      cases htrans with
      | @requested r =>
          obtain ⟨ps, hps, hprop, -⟩ :=
            (Output.proposes_applyRequest (p := p) s.currentView r s.output).proposals
          have hc : c ∈ Output.certified (s.output.applyRequest p s.currentView r).generated := hc
          rw [hps] at hc
          rcases List.mem_append.mp hc with hc | hc
          · exact hold hc
          · cases hw.symm.trans (hprop.messageView hc)
            exact UInt64.le_refl _
      | @newView vc cert =>
          obtain ⟨ui, hui⟩ := Output.exists_certified_generate (p := p)
            (fun ui => .newView ⟨p.id, vc.newView, cert, ui⟩) s.output.resetLog
          have hc := hui ▸ hc
          rcases List.mem_append.mp hc with hc | hc
          · exact hold hc
          · cases List.mem_singleton.mp hc
            exact absurd rfl hkind
      | @applied c' _ x happ htake =>
          rcases messageView_respond hc with hc | heq
          · exact hold hc
          · cases (hw.symm.trans heq).trans happ.messageView
            exact happ.expectedView_le_viewFor
      | @leftView rvc cert =>
          obtain ⟨ui, hui⟩ := Output.exists_certified_generate (p := p) (fun ui => .viewChange
            ⟨p.id, rvc.newView, Output.certified s.output.log, cert, ui⟩)
            (s.output.resetLog.startTimer rvc.newView)
          have hc := hui ▸ hc
          rcases List.mem_append.mp hc with hc | hc
          · exact hold hc
          · cases List.mem_singleton.mp hc
            cases hw
      | _ => exact hold hc
  | timeout _ _ _ ih =>
      rw [certified_requestViewChange, currentView_requestViewChange]
      exact ih

end Replica

namespace Node

variable {p : Params} {C : Replica → Message → Prop} {s : Node}

theorem Reachable.progress (hid : p.id < p.config.n) (htol : p.config.Tolerant)
    (hsha : Function.Injective p.crypto.sha256) (h : s.Reachable p C)
    (hC : ∀ r m, C r m → r.Timely m ∧ r.NewestPrepared p m) (hlive : s.crashed = none) :
    ∃ before l, s.replica.Divided p before l ∧ s.replica.Follows p l ∧
      s.replica.Accounted p before l ∧ s.replica.Proposing p l := by
  induction h with
  | init =>
      exact ⟨[], [], Replica.divided_init.1, Replica.divided_init.2, .initial rfl rfl rfl rfl rfl,
        .of_none fun _ => List.not_mem_nil⟩
  | @step s s' l' hreach hstep hcond ih =>
      obtain ⟨hlive', hstepped, -⟩ := step_cases hstep
      obtain ⟨before, l, hdiv, hfollows, hacc, hprop⟩ := ih hlive'
      obtain ⟨hrun, hlinked⟩ := hreach.linked
      rcases hstepped.replica_cases with heq | ⟨view, -, heq⟩ | ⟨m, order, hproc, heq, halive⟩
      · rw [heq]
        exact ⟨before, l, hdiv, hfollows, hacc, hprop⟩
      · rw [heq]
        exact ⟨before, l, hdiv.requestViewChange, hfollows.requestViewChange,
          hacc.requestViewChange, hprop.requestViewChange⟩
      · have htrans := @Replica.processMessage_transition p order m s.replica
        have hadmits := hlinked.admits hproc
        have hordered := (hreach.ordered fun r m hc => (hC r m hc).1).1
        have hnewest := hrun.newest fun r m hc => (hC r m hc).2
        have htimely := (hC _ _ (hcond m hproc)).1
        rw [heq]
        obtain ⟨before', l', hdiv', hcont, hfollows'⟩ := hdiv.transition hfollows hid htol hrun
          hadmits htrans
        have hpanic := halive hlive
        exact ⟨before', l', hdiv', hfollows' hpanic,
          hacc.transition hdiv hcont hid htol hsha hrun hordered htimely hadmits hpanic htrans,
          hprop.transition hacc hdiv hdiv' hcont hid htol hsha hrun hnewest hordered htimely hadmits
            hpanic htrans⟩

/-- A message that the own-message goroutine comes to is handled without fail. -/
theorem Reachable.own_handled {m : Message} {tasks : List Task} {order : List Request} {e : Fault}
    {r : Replica} (hid : p.id < p.config.n) (htol : p.config.Tolerant)
    (hsha : Function.Injective p.crypto.sha256) (huniq : UniqueUI p.crypto)
    (h : s.Reachable p (Replica.Regular p)) (hlive : s.crashed = none)
    (htasks : s.own = .process m :: tasks) (hm : s.replica.Regular p m) :
    Replica.processMessage p order m s.replica ≠ .error e r := by
  intro herror
  obtain ⟨hrun, hlinked⟩ := h.linked
  have hadmits := hlinked.ownAdmits htasks
  have hproc : s.processing (.own order) = some m := processing_own htasks
  have hno (q : Panic) : e ≠ .panic q := by
    rintro rfl
    exact h.processMessage_ne_panic hid htol hsha huniq
      (fun _ _ hc => ⟨hc.timely, hc.unequivocal⟩) hlive hproc hm herror
  -- what is next in sequence has not been handled, so it has been generated
  have hgen {c : CertifiedMessage} (hc : m = .certified c) (hnext : s.replica.Next c) :
      .certified c ∈ s.replica.output.generated := by
    subst hc
    have hne := (hrun.admitted hid hadmits).self.2.1.1
    refine ((h.streaming hid htol hlive).tasks _ (htasks ▸ List.mem_cons_self)).resolve_left ?_
    intro hhandled
    have hle := UInt64.le_iff_toNat_le.mp ((hrun.history hid).certified c hhandled)
    have hlast := (UInt64.eq_add_one_iff hne).mp hnext
    omega
  have hfails := Replica.processMessage_fails herror
  cases hfails with
  | hello => exact hno _ rfl
  | reply => exact hno _ rfl
  | noView => exact hno _ rfl
  | @gap c hgap =>
      have hle := h.own_not_gap hid htol hlive htasks
      have hlt := UInt64.lt_iff_toNat_lt.mp hgap
      rw [(UInt64.eq_add_one_iff hm.unexhausted).mp rfl] at hlt
      omega
  | @ahead c w hnext hkind hview hgt =>
      have hle := hrun.generated_not_ahead c (Output.mem_certified.mpr (hgen rfl hnext)) hkind w
        hview
      exact absurd hgt (UInt64.not_lt.mpr hle)
  | @notTaken c e x happ htake =>
      obtain ⟨before, l, hdiv, -, hacc, hprop⟩ := h.progress hid htol hsha
        (fun _ _ hc => ⟨hc.timely, hc.newestPrepared⟩) hlive
      have hown := hrun.replicaID_generated (hgen rfl happ.next)
      obtain ⟨q, rfl⟩ := (Replica.Transition.taken happ htake).panics_of_fits
        (hacc.fits hdiv hid hsha hrun hadmits hown happ)
        (by rintro q rfl; exact hprop.own_fresh hdiv hid hsha hrun hadmits hown happ)
      exact hno q rfl

/-- In a regular run only a type switch of a validator can end in a panic. -/
theorem Reachable.crashed_cases (hid : p.id < p.config.n) (htol : p.config.Tolerant)
    (hsha : Function.Injective p.crypto.sha256) (huniq : UniqueUI p.crypto)
    (h : s.Reachable p (Replica.Regular p)) :
    s.crashed = none ∨ s.crashed = some .unknownMessageType ∨
      s.crashed = some .unexpectedProposalType := by
  cases h with
  | init => exact .inl rfl
  | @step s s' l hreach hstep hcond =>
      obtain ⟨hlive, hstepped, -⟩ := step_cases hstep
      have hno {m : Message} {order : List Request} {q : Panic} {r : Replica}
          (hproc : s.processing l = some m) :
          Replica.processMessage p order m s.replica ≠ .error (.panic q) r :=
        hreach.processMessage_ne_panic hid htol hsha huniq
          (fun _ _ hc => ⟨hc.timely, hc.unequivocal⟩) hlive hproc (hcond m hproc)
      cases hstepped with
      | unknown _ hpanic =>
          exact .inr ((validateMessage_panic hpanic).imp (congrArg some) (congrArg some))
      | panicked ht htasks hpanic => exact absurd hpanic (hno (processing_run ht htasks))
      | ownFailed htasks herror =>
          exact absurd herror (hreach.own_handled hid htol hsha huniq hlive htasks
            (hcond _ (processing_own htasks)))
      | ownPanicked htasks hpanic => exact absurd hpanic (hno (processing_own htasks))
      | _ => exact .inl hlive

/-- In a regular run, no request is prepared before it is captured or executed before it is
prepared, and handling an own message never fails. -/
theorem panics_unreachable (hid : p.id < p.config.n) (htol : p.config.Tolerant)
    (hsha : Function.Injective p.crypto.sha256) (huniq : UniqueUI p.crypto)
    (h : s.Reachable p (Replica.Regular p)) :
    s.crashed ≠ some .requestNotCaptured ∧ s.crashed ≠ some .requestNotPrepared ∧
      ∀ e, s.crashed ≠ some (.ownMessage e) := by
  rcases h.crashed_cases hid htol hsha huniq with hcrashed | hcrashed | hcrashed <;>
    simp [hcrashed]

end Node

namespace Concrete

/-- The new primary goes on to handle the proposal it has made on entering its view. -/
theorem promotion_without_panic : ∃ s : Node,
    s.Reachable promotedParams (Replica.Regular promotedParams) ∧ s.replica.lastUI 1 = 3 ∧
      s.crashed ≠ some .requestNotCaptured ∧ s.crashed ≠ some .requestNotPrepared ∧
      ∀ e, s.crashed ≠ some (.ownMessage e) := by
  have h : ((Node.init promotedParams).exec promotedParams
      (fun r m => decide (r.Regular promotedParams m))
      (promotion ++ ownHandling (.certified (.prepare (prepare 1 1 (request 0 1) 3))))).any
      (fun s => s.replica.lastUI 1 == 3) = true := by
    decide +kernel
  obtain ⟨s, hreach, hs⟩ := Node.exists_reachable promotedParams (fun _ _ => of_decide_eq_true) h
  exact ⟨s, hreach, beq_iff_eq.mp hs, Node.panics_unreachable (by decide)
    (by unfold Config.Tolerant; decide) (injective_sha256_ledgerCrypto _)
    (uniqueUI_ledgerCrypto (by decide +kernel)) hreach⟩

/-- The first primary proposes two requests of one client. -/
def olderPrepare : CertifiedMessage := .prepare (prepare 0 0 (request 0 5) 1)

def newerPrepare : CertifiedMessage := .prepare (prepare 0 0 (request 0 6) 2)

def olderViewChange : ViewChange := viewChange 1 1 [commit 1 olderPrepare 1] [1, 2] 2

/-- Replica 2 is faulty: it commits to the second one twice. -/
def newerViewChange : ViewChange :=
  viewChange 2 1 [commit 2 newerPrepare 1, commit 2 newerPrepare 2] [1, 2] 3

def newerNewView : NewView := newView 1 1 [olderViewChange, newerViewChange] 3

def repeatedPrepare : CertifiedMessage := .prepare (prepare 1 1 (request 0 5) 4)

def repeatingNetwork : Network :=
  ⟨⟨3, 1⟩, ledgerCrypto [olderPrepare, newerPrepare, commit 1 olderPrepare 1,
    commit 2 newerPrepare 1, commit 2 newerPrepare 2, .viewChange olderViewChange,
    .viewChange newerViewChange, .newView newerNewView, repeatedPrepare], {0, 1}⟩

theorem repeatingNetwork_admissible : repeatingNetwork.Admissible where
  tolerant := by
    unfold Config.Tolerant
    decide
  sha256 := injective_sha256_ledgerCrypto _
  uniqueUI := uniqueUI_ledgerCrypto (by decide +kernel)
  replicas := by decide +kernel
  faulty := by decide +kernel

/-- Replica 1 prepares the first request and captures the second. When it leaves the view, the first
takes the place of the second among the pending ones. The NewView then makes it prepare the second
request, before it proposes the first. -/
def repeating : List (UInt32 × Label) :=
  (handling 0 (.request (request 0 5)) ++ handling 1 (.request (request 0 6))).map (0, ·) ++
    (handling 0 (.request (request 0 4)) ++ [Label.timeout 0] ++
      ownHandling (.reqViewChange (reqViewChange 1 1)) ++ handling 1 (.certified olderPrepare) ++
      handling 2 (.request (request 0 6)) ++ handling 3 (.reqViewChange (reqViewChange 2 1)) ++
      ownHandling (.certified (.viewChange olderViewChange)) ++
      handling 4 (.certified (.viewChange newerViewChange)) ++
      ownHandling (.certified (.newView newerNewView)) ++
      ownHandling (.certified repeatedPrepare)).map (1, ·)

def refusesOwn (s : Node) : Bool :=
  match s.crashed with
  | some (.ownMessage (.failedToApply .requestAlreadyPrepared)) => true
  | _ => false

theorem own_prepare_refused : repeatingNetwork.Admissible ∧
    ∃ sys, System.Reachable repeatingNetwork (fun _ _ _ => True) sys ∧
      ∃ i ∈ repeatingNetwork.correct, (sys.nodes i).crashed =
        some (.ownMessage (.failedToApply .requestAlreadyPrepared)) := by
  refine ⟨repeatingNetwork_admissible, ?_⟩
  have h : ((System.init repeatingNetwork).exec repeatingNetwork (fun _ _ _ => true)
      repeating).any (fun sys => refusesOwn (sys.nodes 1)) = true := by
    decide +kernel
  obtain ⟨sys, hreach, hsys⟩ := System.exists_reachable (fun _ _ _ _ => trivial) h
  refine ⟨sys, hreach, 1, by decide, ?_⟩
  unfold refusesOwn at hsys
  split at hsys
  · assumption
  · cases hsys

end Concrete

end MinBFT
