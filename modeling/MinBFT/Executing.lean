import MinBFT.Completing

/-!
# What has been delivered

While a replica runs, it has delivered what is new in the chronicle of the last proposal that has
got enough commitments. A panic may stop it within that chronicle.
-/

namespace MinBFT

namespace Requests

variable {s s' : Requests} {l : List Content}

theorem Delivered.captureReq {r : Request} (h : s.Delivered l) (hcap : s.captureReq r = some s') :
    s'.Delivered l :=
  have ⟨hdel, hret, _⟩ := captureReq_frame hcap
  h.congr hdel hret

theorem Delivered.unprepareReqs (h : s.Delivered l) : s.unprepareReqs.Delivered l := by
  refine h.congr s.unprepared_unprepareReqs.delivered (funext fun id => ?_)
  rw [Requests.retired, Requests.retired, s.unprepared_unprepareReqs.clients]
  split_ifs <;> rfl

end Requests

namespace Execution

variable {crypto : Crypto} {config : Config} {Known : CertifiedMessage → Prop}
  {m : CertifiedMessage} {w : UInt64} {x : Execution} {l : List Content}
  {res : EStateM.Result Fault Execution Unit}

/-- Preparing requests delivers nothing. -/
theorem delivered_prepareFor {r : Requests} (m : CertifiedMessage) (h : r.Delivered l) :
    (prepareFor m r).state.Delivered l := by
  cases m with
  | prepare m =>
      have hframe := Requests.prepareReq_delivered m.request r
      rw [state_prepareFor_prepare]
      exact h.congr hframe.1 hframe.2
  | newView m =>
      rw [prepareFor]
      cases extractPreparedRequests m.newViewCert with
      | none => exact h
      | some reqs =>
          have hframe := Requests.prepareAll_delivered reqs r
          exact h.congr hframe.1 hframe.2
  | _ => exact h

/-- What has been delivered is what the last completed proposal calls for, up to a panic. -/
def Carried (config : Config) (Known : CertifiedMessage → Prop) (x : Execution) (panicked : Prop) :
    Prop :=
  ∃ l d, Reached config Known x.commitments l ∧ x.requests.Delivered d ∧ d <+: l ∧
    (¬ panicked → d = l)

theorem carried {c : Commitments} {r : Requests} {panicked : Prop} (h : Reached config Known c l)
    (hdel : r.Delivered l) : Carried config Known ⟨r, c⟩ panicked :=
  ⟨l, l, h, hdel, List.prefix_refl l, fun _ => rfl⟩

section Taking

variable (htol : config.Tolerant) (hsha : Function.Injective crypto.sha256)
  (huniq : UniqueUI crypto) (hc : Closed crypto config Known) (hid : m.replicaID < config.n)
  (hview : m.messageView = some w) (hcv : m.proposed.counter ≠ 0)
  (ht : x.commitments.Tracks config.n config.commitCertSize.toNat w)
include htol hsha huniq hc hid hview hcv ht

theorem Collected.carried (h : Collected m w x res)
    (hreached : Reached config Known x.commitments l) (hdel : x.requests.Delivered l)
    (hknown : ∀ a ∈ res.state.commitments.accepted, Known a) :
    res.state.Carried config Known (∃ q y, res = .error (.panic q) y) := by
  have hcompleted {c : Commitments} (hrecord : x.commitments.record m w = .ok (true, c))
      (hknown : ∀ a ∈ c.accepted, Known a) : ∃ reqs l', m.proposed.requests = some reqs ∧
        Reached config Known c l' ∧ Fresh.Absorbs l (reqs.map Request.content) l' := by
    have hrec := Commitments.recorded ht.bound hrecord
    have hm : Known m := hknown m (hrec.accepted ▸ List.mem_append_right _ List.mem_cons_self)
    have hquorate := (ht.done_iff hid hview hcv hrec (hc.aligned hsha huniq hknown w)).mp rfl
    exact hc.reached_completed hknown ht hview hrec hquorate hsha huniq htol
      (ht.record hid hview hcv hrec) hm hreached
  cases h with
  | rejected => exact Execution.carried hreached hdel
  | @counted c hrecord =>
      have hrec := Commitments.recorded ht.bound hrecord
      have hdone := ht.done_iff hid hview hcv hrec (hc.aligned hsha huniq hknown w)
      refine Execution.carried (hreached.keep ht hrec.lastView fun w' cv _ hq => ?_) hdel
      rcases Reached.quorate_cases hview hrec hq with ⟨rfl, rfl⟩ | hq
      · cases hdone.mpr hq
      · exact hq
  | unexpected hrecord hreqs =>
      obtain ⟨reqs, -, hsome, -⟩ := hcompleted hrecord hknown
      cases hreqs.symm.trans hsome
  | @panicked c reqs _ _ hrecord hreqs hexec =>
      obtain ⟨_, l', hsome, hl', habs⟩ := hcompleted hrecord hknown
      cases hreqs.symm.trans hsome
      obtain ⟨r, ⟨hok, -⟩ | ⟨e, done, herr, hpre, hdel'⟩⟩ := hdel.executeAll reqs
      · cases hexec.symm.trans hok
      · cases hexec.symm.trans herr
        obtain ⟨d, hd, hdel'', -⟩ := hdel'.absorb habs (hpre.map _)
        rw [Requests.executeAll_panics hexec]
        exact ⟨l', d, hl', hdel'', hd, fun hno => absurd ⟨_, _, rfl⟩ hno⟩
  | @executed c reqs _ hrecord hreqs hexec =>
      obtain ⟨_, l', hsome, hl', habs⟩ := hcompleted hrecord hknown
      cases hreqs.symm.trans hsome
      obtain ⟨r, ⟨hok, hdel'⟩ | ⟨e, -, herr, -⟩⟩ := hdel.executeAll reqs
      · cases hexec.symm.trans hok
        obtain ⟨d, -, hdel'', heq⟩ := hdel'.absorb habs (List.prefix_refl _)
        exact Execution.carried hl' (heq rfl ▸ hdel'')
      · cases hexec.symm.trans herr

theorem Taken.carried (h : Taken m w x res) (hreached : Reached config Known x.commitments l)
    (hdel : x.requests.Delivered l) (hknown : ∀ a ∈ res.state.commitments.accepted, Known a) :
    res.state.Carried config Known (∃ q y, res = .error (.panic q) y) := by
  have hprepared {r : Requests} {res' : EStateM.Result Fault Requests Unit}
      (hprep : prepareFor m x.requests = res') (hr : res'.state = r) : r.Delivered l := by
    subst hprep hr
    exact delivered_prepareFor m hdel
  cases h with
  | unprepared hprep => exact Execution.carried hreached (hprepared hprep rfl)
  | @failed _ r _ wrap hprep hcollect =>
      obtain ⟨l', d, hl', hd, hpre, heq⟩ := Collected.carried (x := ⟨r, x.commitments⟩) htol hsha
        huniq hc hid hview hcv ht hcollect hreached (hprepared hprep rfl) hknown
      refine ⟨l', d, hl', hd, hpre, fun hno => heq ?_⟩
      rintro ⟨q, y, hq⟩
      cases hq
      exact hno ⟨q, _, rfl⟩
  | @taken r _ hprep hcollect =>
      exact Collected.carried (x := ⟨r, x.commitments⟩) htol hsha huniq hc hid hview hcv ht
        hcollect hreached (hprepared hprep rfl) hknown

end Taking

end Execution

namespace Replica

variable {p : Params} {order : List Request} {s s' : Replica} {m : Message} {l : List Content}

section Conforming

variable (hid : p.id < p.config.n) (htol : p.config.Tolerant)
  (hsha : Function.Injective p.crypto.sha256) (huniq : UniqueUI p.crypto)
include hid htol hsha huniq

theorem Run.carried (hrun : s.Run p (Conforms ∅)) (hrun' : s'.Run p (Conforms ∅))
    (hadmits : s.Admits p m) (htrans : Transition p order m s s')
    (hreached : Reached p.config s.Seen s.execution.commitments l)
    (hdel : s.execution.requests.Delivered l) :
    s'.execution.Carried p.config s'.Seen
      (∃ q r, processMessage p order m s = .error (.panic q) r) := by
  have ht := hrun.tracks hid htol
  have hc := hrun'.closed hid htol hsha huniq
  replace hreached := hreached.mono fun _ hc => htrans.seen_of_seen ht.bound hc
  have htaken {c : CertifiedMessage} {res : EStateM.Result Fault Execution Unit}
      (hadmits : s.Admits p (.certified c)) (happ : s.Applicable c)
      (htake : Execution.take c s.execution = res) (hexec : s'.execution = res.state) :
      s'.execution.Carried p.config s'.Seen (∃ q y, res = .error (.panic q) y) := by
    have hwf := hrun.admitted hid hadmits
    rw [hexec]
    refine (Transition.taken happ htake).carried htol hsha huniq hc hwf.self.1 happ.messageView
      hwf.proposed_counter_ne ht hreached hdel fun a ha => .inr ?_
    rw [hexec]
    exact ha
  cases htrans with
  | captured hcap => exact Execution.carried hreached (hdel.captureReq hcap)
  | requested hcap => exact Execution.carried hreached (hdel.captureReq hcap)
  | failed happ htake =>
      obtain ⟨l', d, hl', hd, hpre, heq⟩ := htaken hadmits happ htake rfl
      refine ⟨l', d, hl', hd, hpre, fun hno => heq ?_⟩
      rintro ⟨q, y, hq⟩
      cases hq
      exact hno ⟨q, _, processMessage_of_notTaken happ htake⟩
  | applied happ htake =>
      obtain ⟨l', d, hl', hd, hpre, heq⟩ := htaken hadmits happ htake rfl
      exact ⟨l', d, hl', hd, hpre, fun _ => heq nofun⟩
  | leftView => exact Execution.carried hreached hdel.unprepareReqs
  | _ => exact Execution.carried hreached hdel

end Conforming

theorem reached_init (htol : p.config.Tolerant) :
    Reached p.config (Replica.init p).Seen (Replica.init p).execution.commitments [] ∧
      (Replica.init p).execution.requests.Delivered [] := by
  refine ⟨.nothing fun w x _ hq => ?_, rfl, rfl⟩
  have hpos := Config.commitCertSize_pos htol
  obtain ⟨r, hr⟩ := Finset.card_pos.mp (hpos.trans_le hq)
  obtain ⟨-, c, hc, -⟩ := Commitments.mem_committers.mp hr
  exact absurd hc List.not_mem_nil

end Replica

namespace Node

variable {p : Params} {s : Node}

/-- A replica has delivered what is new in its history, and after a panic a part of that. -/
theorem Reachable.carried (hid : p.id < p.config.n) (htol : p.config.Tolerant)
    (hsha : Function.Injective p.crypto.sha256) (huniq : UniqueUI p.crypto)
    (h : s.Reachable p (Replica.Conforms ∅)) :
    s.replica.execution.Carried p.config s.replica.Seen (s.crashed ≠ none) := by
  induction h with
  | init => exact Execution.carried (Replica.reached_init htol).1 (Replica.reached_init htol).2
  | @step s s' l hreach hstep hcond ih =>
      obtain ⟨hlive, hstepped, -⟩ := step_cases hstep
      obtain ⟨hrun, hlinked⟩ := hreach.linked
      have hrun' := (hreach.step hstep hcond).run
      obtain ⟨l, d, hreached, hdel, -, heq⟩ := ih
      cases heq (not_not_intro hlive)
      rcases hstepped.replica_cases with heq | ⟨view, -, heq⟩ | ⟨m, order, hproc, heq, halive⟩
      · rw [heq]
        exact Execution.carried hreached hdel
      · rw [heq]
        rw [Replica.execution_requestViewChange]
        exact Execution.carried (hreached.mono fun c hc => by simpa [Replica.Seen] using hc) hdel
      · rw [heq] at hrun' ⊢
        obtain ⟨l', d, hl', hd, hpre, heq⟩ := hrun.carried hid htol hsha huniq hrun'
          (hlinked.admits hproc) (Replica.processMessage_transition _ _) hreached hdel
        refine ⟨l', d, hl', hd, hpre, fun hno => heq ?_⟩
        rintro ⟨q, r, hq⟩
        exact halive (not_not.mp hno) q r hq

end Node

end MinBFT
