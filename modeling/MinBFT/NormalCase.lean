import MinBFT.Applying
import MinBFT.Genuine
import MinBFT.InitialOutput

/-!
# The normal case

The initial view, with a correct primary and for as long as no correct replica leaves it. Whatever
the faulty replicas do, a correct replica can process what correct replicas send, provided that it
gets the messages of each of them in order: their commitments fit, and the requests they propose
have not been prepared before. Once the correct replicas have handled all that they have sent each
other, each of them has executed all that the primary has proposed.
-/

namespace MinBFT

/-- Valid proposals of one replica with the same counters have the same contents. -/
theorem contents_eq {crypto : Crypto} (hsha : Function.Injective crypto.sha256)
    (huniq : UniqueUI crypto) {ps ps' : List Prepare} (hlen : ps.length = ps'.length)
    (h : ∀ q ∈ ps, q.replicaID = 0 ∧ UIValid crypto (.prepare q))
    (h' : ∀ q ∈ ps', q.replicaID = 0 ∧ UIValid crypto (.prepare q))
    (hcv : ps.map (·.ui.counter.toNat) = List.range' 1 ps.length)
    (hcv' : ps'.map (·.ui.counter.toNat) = List.range' 1 ps'.length) :
    contents ps = contents ps' := by
  apply List.ext_getElem
  · simpa [contents] using hlen
  · intro k hk hk'
    simp only [contents, List.length_map] at hk hk'
    simp only [contents, List.getElem_map]
    have hcounter : (ps[k]).ui.counter = (ps'[k]).ui.counter := by
      have hget := congrArg (·[k]?) hcv
      have hget' := congrArg (·[k]?) hcv'
      simp only [List.getElem?_map, List.getElem?_eq_getElem hk, List.getElem?_eq_getElem hk',
        Option.map_some, List.getElem?_range' hk, List.getElem?_range' hk'] at hget hget'
      exact UInt64.toNat_inj.mp (Option.some.inj (hget.trans hget'.symm))
    obtain ⟨hzero, hui⟩ := h _ (List.getElem_mem hk)
    obtain ⟨hzero', hui'⟩ := h' _ (List.getElem_mem hk')
    have hsame := huniq.sameAuthen hui hui' (hzero.trans hzero'.symm) hcounter
    obtain ⟨q, heq, -, hcontent⟩ := hsame.of_prepare hsha
    cases heq
    exact hcontent

namespace Replica

variable {p : Params} {order : List Request} {C : Replica → Message → Prop} {s s' : Replica}
  {m : Message}

/-- In the initial view no message takes a replica down once it is found valid. -/
theorem Run.processMessage_ne_panic {q : Panic} (hid : p.id < p.config.n)
    (htol : p.config.Tolerant) (hsha : Function.Injective p.crypto.sha256)
    (huniq : UniqueUI p.crypto) (h : s.Run p C) (hadmits : s.Admits p m)
    (hexp : s.expectedView = 0) : processMessage p order m s ≠ .error (.panic q) s' := by
  intro hpanic
  have hist := h.history hid
  obtain ⟨-, c, reqs, rfl, happ, hreqs, r, hr, hlt⟩ := processMessage_panic hist
    (h.admitted hid hadmits).self (h.sound hid htol hadmits) hadmits.embedded hpanic
  obtain ⟨ps, k, hinit⟩ := h.inInitialView hid htol hsha huniq hexp
  have hview := happ.messageView
  rw [hexp] at hview
  rcases (h.admitted hid hadmits).self.2.2.2 with ⟨q, heq⟩ | ⟨nv, heq⟩
  · -- the Prepare committed to has been accepted, so that its request is prepared
    have hhandled := hadmits.embedded _ (List.mem_singleton.mpr rfl)
    rw [heq] at hhandled hreqs
    cases hreqs
    cases List.mem_singleton.mp hr
    have hzero := Option.some.inj
      ((CertifiedMessage.messageView_of_prepare (m := .commit c) heq).symm.trans hview)
    obtain ⟨q₀, hq₀, -, hcontent⟩ := hinit.exists_prepare hist hsha huniq hhandled hzero
    have hprep := hinit.execution.requests.prepared q₀ hq₀
    rw [show q₀.request.clientID = q.request.clientID from congrArg Prod.fst hcontent,
      show q₀.request.sequence = q.request.sequence from congrArg (·.2.1) hcontent] at hprep
    exact absurd hprep (UInt64.not_le.mpr hlt)
  · have hpos : 1 ≤ nv.newView := by
      have hproposal := (h.admitted hid hadmits).proposal
      rw [heq] at hproposal
      exact hproposal.self.2.2.1
    have hzero := Option.some.inj
      ((CertifiedMessage.messageView_of_newView (m := .commit c) heq).symm.trans hview)
    rw [hzero] at hpos
    exact absurd hpos (by decide)

end Replica

namespace System

variable {net : Network} {C : UInt32 → Replica → Message → Prop} {sys sys' : System}
  {i j : UInt32} {l : Label} {m : Message} {c g : CertifiedMessage} {k : ℕ}

def sent (sys : System) (i : UInt32) : List CertifiedMessage :=
  Output.certified (sys.nodes i).replica.output.generated

def proposals (sys : System) : List Prepare := (sys.nodes 0).replica.output.proposals

/-- The primary of the initial view is correct, and no correct replica has left this view, crashed,
or come to the end of its counter. -/
structure NormalCase (net : Network) (sys : System) : Prop where
  primary : 0 ∈ net.correct
  views : ∀ i ∈ net.correct, (sys.nodes i).replica.expectedView = 0
  alive : ∀ i ∈ net.correct, (sys.nodes i).crashed = none
  unexhausted : ∀ i ∈ net.correct, (sys.sent i).length + 1 < UInt64.size

theorem Grows.sent (h : Grows sys sys') (i : UInt32) : sys.sent i <+: sys'.sent i :=
  (h i).filterMap _

theorem Grows.proposals (h : Grows sys sys') : sys.proposals <+: sys'.proposals :=
  Output.proposals_mono (h 0)

/-- It has been the normal case all along. -/
theorem NormalCase.of_step (h : NormalCase net sys') (hstep : sys.step net i l = some sys') :
    NormalCase net sys := by
  have hgrows := step_grows hstep
  obtain ⟨-, -, s, hs, hnodes⟩ := step_cases hstep
  obtain ⟨hlive, hstepped, -⟩ := Node.step_cases hs
  refine ⟨h.primary, fun j hj => ?_, fun j hj => ?_, fun j hj => ?_⟩
  · have hview := h.views j hj
    by_cases hij : j = i
    · subst hij
      rw [hnodes, Function.update_self] at hview
      exact UInt64.le_antisymm (hview ▸ hstepped.expectedView_le) UInt64.zero_le
    · rwa [hnodes, Function.update_of_ne hij] at hview
  · have halive := h.alive j hj
    by_cases hij : j = i
    · subst hij
      exact hlive
    · rwa [hnodes, Function.update_of_ne hij] at halive
  · have hlt := h.unexhausted j hj
    have hle := (hgrows.sent j).length_le
    omega

section Sent

variable (hnet : net.Admissible) (h : Reachable net C sys) (hn : NormalCase net sys)
  (hi : i ∈ net.correct)
include hnet h hn hi

theorem Reachable.divided_initial :
    (sys.nodes i).replica.Divided (net.params i) [] (sys.sent i) ∧
      (sys.nodes i).replica.Follows (net.params i) (sys.sent i) := by
  obtain ⟨before, l, hdiv, hfollows⟩ := (h.node i).divided (hnet.lt hi) hnet.tolerant
  obtain rfl := (hn.views i hi ▸ hdiv.opened).eq_nil rfl
  have heq : sys.sent i = l := hdiv.output
  rw [heq]
  exact ⟨hdiv, hfollows (hn.alive i hi)⟩

theorem Reachable.numbered : Numbered 0 (sys.sent i) :=
  (h.divided_initial hnet hn hi).1.numbered (hnet.lt hi) (h.node i).run

/-- A correct replica has only sent the proposals of the primary, or Commits to them, with their
counters. -/
theorem Reachable.sent_cases (hg : (sys.sent i)[k]? = some g) :
    ∃ q, g.proposed = .prepare q ∧ q.view = 0 ∧ q.replicaID = 0 ∧ q.ui.counter = g.counter := by
  have hsection := (h.divided_initial hnet hn hi).1.current
  rw [hn.views i hi] at hsection
  exact hsection.initial (h.numbered hnet hn hi) hg

end Sent

structure Recognized (net : Network) (sys : System) (c : CertifiedMessage) : Prop where
  view : c.messageView = some 0
  kind : c.proposed.kind = .prepare
  counter : c.proposed.counter = c.counter
  length : c.counter.toNat ≤ (sys.sent c.replicaID).length
  proposal : ∀ q, c = .prepare q → ∃ q₀, sys.proposals[c.counter.toNat - 1]? = some q₀ ∧
    q₀.request.content = q.request.content

section Recognizing

variable (hnet : net.Admissible) (h : Reachable net C sys) (hn : NormalCase net sys)
include hnet h hn

theorem Reachable.sent_primary : sys.sent 0 = sys.proposals.map .prepare := by
  have hsection := (h.divided_initial hnet hn hn.primary).1.current
  rw [hn.views 0 hn.primary] at hsection
  exact hsection.eq_map_prepare (isPrimary_zero.mpr rfl)

theorem Reachable.recognized (hc : c.replicaID ∈ net.correct) (hui : UIValid net.crypto c)
    (hgen : Genuine net sys (.certified c)) : Recognized net sys c := by
  obtain ⟨g, hg, hcv, hbytes⟩ := hgen hc hui
  have hrun := (h.node c.replicaID).run
  have hsame : SameAuthen net.crypto.sha256 c g :=
    ⟨CertifiedMessage.kind_eq_of_authenBytes_eq hbytes.symm,
      (hrun.replicaID_generated hg).symm, hcv.symm, hbytes.symm⟩
  obtain ⟨k, hk⟩ : ∃ k, (sys.sent c.replicaID)[k]? = some g :=
    List.getElem?_of_mem (Output.mem_certified.mpr hg)
  have hcounter := h.numbered hnet hn hc k g hk
  obtain ⟨q, hq, hview, hid, hqcv⟩ := h.sent_cases hnet hn hc hk
  have hlt := (List.getElem?_eq_some_iff.mp hk).1
  refine ⟨?_, ?_, ?_, ?_, ?_⟩
  · rw [hsame.messageView hnet.sha256, CertifiedMessage.messageView_of_prepare hq, hview]
  · rw [hsame.proposed.kind, hq]
    rfl
  · rw [hsame.proposed.counter, hq, hsame.counter]
    exact hqcv
  · rw [hsame.counter, hcounter]
    omega
  · rintro q' rfl
    obtain ⟨q₀, rfl, hbytes⟩ := CertifiedMessage.eq_prepare_of_authenBytes_eq hsame.authenBytes
    obtain ⟨-, hclient, hseq, hop⟩ := Prepare.authenBytes_inj hnet.sha256 hbytes
    have hprimary : q'.replicaID = 0 := hsame.replicaID.trans (by cases hq; exact hid)
    refine ⟨q₀, ?_, by rw [Request.content, Request.content, hclient, hseq, hop]⟩
    have hsent := hk
    rw [CertifiedMessage.replicaID_prepare, hprimary, h.sent_primary hnet hn,
      List.getElem?_map] at hsent
    obtain ⟨x, hx, heq⟩ := Option.map_eq_some_iff.mp hsent
    cases heq
    rw [hsame.counter, hcounter, Nat.zero_add, Nat.add_sub_cancel]
    exact hx

end Recognizing

/-- How far a replica has come with the messages of the correct replicas: all of them are
commitments it has accepted, and the requests prepared are those of the primary's proposals. -/
structure Abreast (net : Network) (sys : System) (s : Replica) : Prop where
  lastPrimaryCVs : ∀ i ∈ net.correct, s.execution.commitments.lastPrimaryCVs i = s.lastUI i
  lastReplicaCVs : ∀ i ∈ net.correct, s.execution.commitments.lastReplicaCVs i = s.lastUI i
  le_primary : ∀ i ∈ net.correct, s.lastUI i ≤ s.lastUI 0
  le_length : ∀ i ∈ net.correct, (s.lastUI i).toNat ≤ (sys.sent i).length
  prepared : ∀ id, (s.execution.requests.clients id).lastPreparedSeq = 0 ∨
    ∃ q ∈ sys.proposals.take (s.lastUI 0).toNat, q.request.clientID = id ∧
      (s.execution.requests.clients id).lastPreparedSeq ≤ q.request.sequence

namespace Abreast

variable {s s' : Replica} {order : List Request}

theorem mono (hgrows : Grows sys sys') (h : Abreast net sys s) : Abreast net sys' s := by
  refine ⟨h.lastPrimaryCVs, h.lastReplicaCVs, h.le_primary, fun i hi => ?_, fun id => ?_⟩
  · exact (h.le_length i hi).trans (hgrows.sent i).length_le
  · rcases h.prepared id with hz | ⟨q, hq, hrest⟩
    · exact .inl hz
    · exact .inr ⟨q, (hgrows.proposals.take _).subset hq, hrest⟩

/-- Only what is known of faulty replicas has changed. -/
theorem frame (h : Abreast net sys s) (hzero : 0 ∈ net.correct)
    (hlast : ∀ i ∈ net.correct, s'.lastUI i = s.lastUI i)
    (hcvs : ∀ i ∈ net.correct,
      s'.execution.commitments.lastPrimaryCVs i = s.execution.commitments.lastPrimaryCVs i ∧
      s'.execution.commitments.lastReplicaCVs i = s.execution.commitments.lastReplicaCVs i)
    (hprep : ∀ id, (s'.execution.requests.clients id).lastPreparedSeq =
      (s.execution.requests.clients id).lastPreparedSeq) : Abreast net sys s' := by
  refine ⟨fun i hi => ?_, fun i hi => ?_, fun i hi => ?_, fun i hi => ?_, fun id => ?_⟩
  · rw [(hcvs i hi).1, hlast i hi]
    exact h.lastPrimaryCVs i hi
  · rw [(hcvs i hi).2, hlast i hi]
    exact h.lastReplicaCVs i hi
  · rw [hlast i hi, hlast 0 hzero]
    exact h.le_primary i hi
  · rw [hlast i hi]
    exact h.le_length i hi
  · rw [hprep, hlast 0 hzero]
    exact h.prepared id

/-- The next message of a correct replica is a commitment that fits. -/
theorem fits (h : Abreast net sys s) (hc : c.replicaID ∈ net.correct)
    (hrec : Recognized net sys c) (hnext : s.Next c)
    (hview : s.execution.commitments.replicaViews c.replicaID = 0) :
    s.execution.commitments.Fits c 0 := by
  rw [Commitments.Fits, hrec.kind, if_neg (by decide)]
  refine ⟨hview, ?_, ?_⟩
  · rw [hrec.counter, h.lastPrimaryCVs _ hc]
    exact hnext
  · rw [h.lastReplicaCVs _ hc]
    exact hnext

/-- What the primary has proposed after that is of requests not yet prepared. -/
theorem fresh {q : Prepare} (h : Abreast net sys s) (hinc : Increasing (contents sys.proposals))
    (hq : sys.proposals[k]? = some q) (hk : (s.lastUI 0).toNat ≤ k) :
    (s.execution.requests.clients q.request.clientID).lastPreparedSeq < q.request.sequence := by
  rw [UInt64.lt_iff_toNat_lt]
  obtain ⟨hlt, hget⟩ := List.getElem?_eq_some_iff.mp hq
  rcases h.prepared q.request.clientID with hz | ⟨q₀, hq₀, hclient, hle⟩
  · rw [hz]
    exact hinc.pos _ (List.mem_map_of_mem (List.mem_of_getElem? hq))
  · obtain ⟨k₀, hk₀⟩ := List.getElem?_of_mem hq₀
    rw [List.getElem?_take] at hk₀
    split_ifs at hk₀ with hlt₀
    obtain ⟨hb₀, hget₀⟩ := List.getElem?_eq_some_iff.mp hk₀
    have hpair := List.pairwise_iff_getElem.mp hinc.lt k₀ k
      (by simpa [contents] using hb₀) (by simpa [contents] using hlt) (by omega)
    simp only [contents, List.getElem_map, hget, hget₀] at hpair
    have hnat := UInt64.le_iff_toNat_le.mp hle
    have hseq : q₀.request.sequence.toNat < q.request.sequence.toNat := hpair hclient
    omega

/-- The next message of a correct replica has been accepted. -/
theorem advance (h : Abreast net sys s) (hrec : Recognized net sys c)
    (hlast : s'.lastUI = Function.update s.lastUI c.replicaID c.counter)
    (hprimary : s'.execution.commitments.lastPrimaryCVs =
      Function.update s.execution.commitments.lastPrimaryCVs c.replicaID c.proposed.counter)
    (hreplica : s'.execution.commitments.lastReplicaCVs =
      Function.update s.execution.commitments.lastReplicaCVs c.replicaID c.counter)
    (hzero : s.lastUI 0 ≤ s'.lastUI 0) (hle : c.counter ≤ s'.lastUI 0)
    (hprep : ∀ id, (s'.execution.requests.clients id).lastPreparedSeq = 0 ∨
      ∃ q ∈ sys.proposals.take (s'.lastUI 0).toNat, q.request.clientID = id ∧
        (s'.execution.requests.clients id).lastPreparedSeq ≤ q.request.sequence) :
    Abreast net sys s' := by
  refine ⟨fun i hi => ?_, fun i hi => ?_, fun i hi => ?_, fun i hi => ?_, hprep⟩
  · rw [hprimary, hlast, hrec.counter]
    by_cases hic : i = c.replicaID
    · rw [hic, Function.update_self, Function.update_self]
    · rw [Function.update_of_ne hic, Function.update_of_ne hic]
      exact h.lastPrimaryCVs i hi
  · rw [hreplica, hlast]
    by_cases hic : i = c.replicaID
    · rw [hic, Function.update_self, Function.update_self]
    · rw [Function.update_of_ne hic, Function.update_of_ne hic]
      exact h.lastReplicaCVs i hi
  · by_cases hic : i = c.replicaID
    · rw [hlast, hic, Function.update_self, ← hlast]
      exact hle
    · rw [hlast, Function.update_of_ne hic, ← hlast]
      exact UInt64.le_trans (h.le_primary i hi) hzero
  · rw [hlast]
    by_cases hic : i = c.replicaID
    · rw [hic, Function.update_self]
      exact hrec.length
    · rw [Function.update_of_ne hic]
      exact h.le_length i hi

end Abreast

section Processing

variable (hnet : net.Admissible) (h : Reachable net C sys) (hn : NormalCase net sys)
  (hj : j ∈ net.correct)
include hnet h hn hj

theorem Reachable.replicaViews_eq (r : UInt32) :
    (sys.nodes j).replica.execution.commitments.replicaViews r = 0 := by
  have htracks := (h.node j).run.tracks (hnet.lt hj) hnet.tolerant
  rw [hn.views j hj] at htracks
  exact UInt64.le_antisymm (UInt64.le_trans (htracks.views r) htracks.bound) UInt64.zero_le

/-- The next message of a correct replica is taken into account. -/
theorem Reachable.not_refused {e : Fault} {x : Execution}
    (habreast : Abreast net sys (sys.nodes j).replica)
    (hadmits : (sys.nodes j).replica.Admits (net.params j) (.certified c))
    (hc : c.replicaID ∈ net.correct) (hrec : Recognized net sys c)
    (happ : (sys.nodes j).replica.Applicable c) :
    Execution.take c (sys.nodes j).replica.execution ≠ .error e x := by
  intro htake
  have hrun := (h.node j).run
  have hwf := hrun.admitted (hnet.lt hj) hadmits
  have hexp := hn.views j hj
  have htaken := Replica.Transition.taken happ htake
  rw [hexp] at htaken
  have hfits := habreast.fits hc hrec happ.next (h.replicaViews_eq hnet hn hj _)
  have hunprepared : ∀ q, c = .prepare q → ((sys.nodes j).replica.execution.requests.clients
      q.request.clientID).lastPreparedSeq < q.request.sequence := by
    rintro q rfl
    obtain ⟨q₀, hq₀, hcontent⟩ := hrec.proposal q rfl
    have hzero : q.replicaID = 0 := by
      have hprimary : isPrimary q.view q.replicaID net.config.n = true := hwf.self.2.2
      rw [show q.view = 0 from Option.some.inj hrec.view] at hprimary
      exact isPrimary_zero.mp hprimary
    have hnext : q.ui.counter.toNat = ((sys.nodes j).replica.lastUI q.replicaID).toNat + 1 :=
      (UInt64.eq_add_one_iff hwf.self.2.1.1).mp happ.next
    rw [hzero] at hnext
    have hinc := ((h.node 0).run.ascending (hnet.lt hn.primary) (hn.views 0 hn.primary)).increasing
    have hfresh := habreast.fresh hinc hq₀ (by
      rw [show (CertifiedMessage.prepare q).counter = q.ui.counter from rfl]
      omega)
    rwa [show q₀.request.clientID = q.request.clientID from congrArg Prod.fst hcontent,
      show q₀.request.sequence = q.request.sequence from congrArg (·.2.1) hcontent] at hfresh
  obtain ⟨q, rfl⟩ := htaken.panics_of_fits hfits hunprepared
  have hpanic := @Replica.processMessage_of_notTaken (net.params j) [] c _ _ _ happ htake
  exact hrun.processMessage_ne_panic (hnet.lt hj) hnet.tolerant hnet.sha256 hnet.uniqueUI hadmits
    hexp hpanic

theorem Reachable.abreast_applied {x : Execution} {order : List Request}
    (habreast : Abreast net sys (sys.nodes j).replica)
    (hadmits : (sys.nodes j).replica.Admits (net.params j) (.certified c))
    (hrec : c.replicaID ∈ net.correct → Recognized net sys c)
    (happ : (sys.nodes j).replica.Applicable c)
    (htake : Execution.take c (sys.nodes j).replica.execution = .ok () x) :
    Abreast net sys ((((sys.nodes j).replica.complete (net.params j) order c x).advance c).handle
      (.certified c)) := by
  have hrun := (h.node j).run
  have hwf := hrun.admitted (hnet.lt hj) hadmits
  have hexp := hn.views j hj
  have hview := happ.messageView
  have htaken := Replica.Transition.taken happ htake
  rw [hexp] at htaken hview
  obtain ⟨done, hrecord⟩ := htaken.recorded
  have htracks := hrun.tracks (hnet.lt hj) hnet.tolerant
  rw [hexp] at htracks
  have hrecorded := Commitments.recorded htracks.bound hrecord
  have hproposer : c.proposed.replicaID = 0 := isPrimary_zero.mp (hwf.isPrimary_proposed hview)
  cases c with
  | prepare q =>
      have hzero : q.replicaID = 0 := hproposer
      have hc : (CertifiedMessage.prepare q).replicaID ∈ net.correct := by
        rw [CertifiedMessage.replicaID_prepare, hzero]
        exact hn.primary
      have hnext := (UInt64.eq_add_one_iff hwf.self.2.1.1).mp happ.next
      rw [CertifiedMessage.replicaID_prepare, hzero] at hnext
      have hself : Function.update (sys.nodes j).replica.lastUI q.replicaID q.ui.counter 0 =
          q.ui.counter := by
        rw [hzero, Function.update_self]
      obtain ⟨q₀, hq₀, hcontent⟩ := (hrec hc).proposal q rfl
      apply habreast.advance (hrec hc) rfl hrecorded.lastPrimaryCVs hrecorded.lastReplicaCVs
      · refine UInt64.le_trans ?_ (UInt64.le_of_eq hself.symm)
        rw [UInt64.le_iff_toNat_le]
        exact Nat.le_of_lt (hnext ▸ Nat.lt_succ_self _)
      · exact UInt64.le_of_eq hself.symm
      · intro id
        change (x.requests.clients id).lastPreparedSeq = 0 ∨ ∃ q' ∈ sys.proposals.take
          (Function.update (sys.nodes j).replica.lastUI q.replicaID q.ui.counter 0).toNat, _ ∧
          (x.requests.clients id).lastPreparedSeq ≤ _
        rw [hself, htaken.lastPreparedSeq_prepare]
        split_ifs with hid
        · -- the request prepared is the one the primary has proposed with this counter
          right
          refine ⟨q₀, ?_, (congrArg Prod.fst hcontent).trans hid.symm, ?_⟩
          · apply List.mem_of_getElem? (i := q.ui.counter.toNat - 1)
            rw [List.getElem?_take, if_pos (by
              rw [show (CertifiedMessage.prepare q).counter = q.ui.counter from rfl] at hnext
              omega)]
            exact hq₀
          · exact UInt64.le_of_eq (congrArg (·.2.1) hcontent).symm
        · rcases habreast.prepared id with hz | ⟨q', hq', hrest⟩
          · exact .inl hz
          · refine .inr ⟨q', List.take_subset_take_left _ ?_ hq', hrest⟩
            rw [show (CertifiedMessage.prepare q).counter = q.ui.counter from rfl] at hnext
            omega
  | commit cm =>
      have hne : cm.replicaID ≠ 0 := by
        have hshape := hwf.self.2.2.1
        rwa [show cm.proposal.replicaID = 0 from hproposer] at hshape
      have hkeep : Function.update (sys.nodes j).replica.lastUI cm.replicaID cm.ui.counter 0 =
          (sys.nodes j).replica.lastUI 0 := Function.update_of_ne hne.symm _ _
      by_cases hc : cm.replicaID ∈ net.correct
      · apply habreast.advance (hrec hc) rfl hrecorded.lastPrimaryCVs hrecorded.lastReplicaCVs
        · exact UInt64.le_of_eq hkeep.symm
        · -- the proposal has been handled before the Commit
          refine UInt64.le_trans ?_ (UInt64.le_of_eq hkeep.symm)
          have hhandled := hadmits.embedded _ (List.mem_singleton.mpr rfl)
          have hle := (hrun.history (hnet.lt hj)).certified _ hhandled
          rw [show cm.proposal.replicaID = 0 from hproposer] at hle
          rw [← (hrec hc).counter]
          exact hle
        · intro id
          change (x.requests.clients id).lastPreparedSeq = 0 ∨ ∃ q' ∈ sys.proposals.take
            (Function.update (sys.nodes j).replica.lastUI cm.replicaID cm.ui.counter 0).toNat, _ ∧
            (x.requests.clients id).lastPreparedSeq ≤ _
          rw [hkeep, htaken.lastPreparedSeq_commit]
          exact habreast.prepared id
      · have hother : ∀ i ∈ net.correct, i ≠ cm.replicaID := by
          rintro i hi rfl
          exact hc hi
        apply habreast.frame hn.primary
        · exact fun i hi => Function.update_of_ne (hother i hi) _ _
        · intro i hi
          constructor
          · exact (congrFun hrecorded.lastPrimaryCVs i).trans
              (Function.update_of_ne (hother i hi) _ _)
          · exact (congrFun hrecorded.lastReplicaCVs i).trans
              (Function.update_of_ne (hother i hi) _ _)
        · exact htaken.lastPreparedSeq_commit
  | newView nv =>
      have hpos : 1 ≤ nv.newView := hwf.self.2.2.1
      rw [show nv.newView = 0 from Option.some.inj hview] at hpos
      exact absurd hpos (by decide)
  | viewChange vc => cases hview

theorem Reachable.abreast_transition {order : List Request} {s' : Replica}
    (habreast : Abreast net sys (sys.nodes j).replica)
    (hadmits : (sys.nodes j).replica.Admits (net.params j) m)
    (hm : Hereditarily (Genuine net sys) m) (hexp' : s'.expectedView = 0)
    (htrans : Replica.Transition (net.params j) order m (sys.nodes j).replica s') :
    Abreast net sys s' := by
  have hwf := (h.node j).run.admitted (hnet.lt hj) hadmits
  have hrec : ∀ c, m = .certified c → c.replicaID ∈ net.correct → Recognized net sys c := by
    rintro c rfl hc
    exact h.recognized hnet hn hc hwf.self.2.1 hm.self
  have hkeep {s' : Replica} (hlast : s'.lastUI = (sys.nodes j).replica.lastUI)
      (hcomm : s'.execution.commitments = (sys.nodes j).replica.execution.commitments)
      (hprep : ∀ id, (s'.execution.requests.clients id).lastPreparedSeq =
        ((sys.nodes j).replica.execution.requests.clients id).lastPreparedSeq) :
      Abreast net sys s' :=
    habreast.frame hn.primary (fun i _ => congrFun hlast i)
      (fun i _ => by rw [hcomm]; exact ⟨rfl, rfl⟩) hprep
  -- what is not a commitment in the initial view is not from a correct replica
  have hfaulty {s' : Replica} {c : CertifiedMessage} (hc : c.replicaID ∉ net.correct)
      (hlast : s'.lastUI = Function.update (sys.nodes j).replica.lastUI c.replicaID c.counter)
      (hexec : s'.execution = (sys.nodes j).replica.execution) : Abreast net sys s' := by
    apply habreast.frame hn.primary
    · intro i hi
      rw [hlast]
      apply Function.update_of_ne
      rintro rfl
      exact hc hi
    · rw [hexec]
      exact fun _ _ => ⟨rfl, rfl⟩
    · rw [hexec]
      exact fun _ => rfl
  cases htrans with
  | refused => exact habreast
  | known => exact hkeep rfl rfl fun _ => rfl
  | captured hcap => exact hkeep rfl rfl (Requests.captureReq_frame hcap).2.2
  | requested hcap => exact hkeep rfl rfl (Requests.captureReq_frame hcap).2.2
  | old => exact hkeep rfl rfl fun _ => rfl
  | viewChange =>
      refine hfaulty (fun hc => ?_) rfl rfl
      cases (hrec _ rfl hc).view
  | newView =>
      refine hfaulty (fun hc => ?_) rfl rfl
      cases (hrec _ rfl hc).view
  | @dropped c _ w _ hview _ hdrop =>
      refine hfaulty (fun hc => ?_) rfl rfl
      cases hview.symm.trans (hrec _ rfl hc).view
      apply hdrop _ (hn.views j hj).symm
      intro hkind
      have hprepare := (hrec _ rfl hc).kind
      cases c with
      | newView => cases hprepare
      | _ => cases hkind
  | skipped =>
      refine hfaulty (fun hc => ?_) rfl rfl
      cases (hrec _ rfl hc).kind
  | @failed c _ e x happ htake =>
      have htaken := Replica.Transition.taken happ htake
      have hview := happ.messageView
      rw [hn.views j hj] at hview
      have hno : ∀ q, e ≠ .panic q := by
        rintro q rfl
        have hpanic := @Replica.processMessage_of_notTaken (net.params j) [] c _ _ _ happ htake
        exact (h.node j).run.processMessage_ne_panic (hnet.lt hj) hnet.tolerant hnet.sha256
          hnet.uniqueUI hadmits (hn.views j hj) hpanic
      cases c with
      | prepare q =>
          have hzero : q.replicaID = 0 := isPrimary_zero.mp (hwf.isPrimary_proposed hview)
          have hc : (CertifiedMessage.prepare q).replicaID ∈ net.correct := by
            rw [CertifiedMessage.replicaID_prepare, hzero]
            exact hn.primary
          exact absurd htake
            (h.not_refused hnet hn hj habreast hadmits hc (hrec _ rfl hc) happ)
      | commit cm =>
          refine hkeep rfl (htaken.commitments_of_error hno) fun id => ?_
          rw [show ((sys.nodes j).replica.attempt (.commit cm) x).execution.requests =
            (sys.nodes j).replica.execution.requests from htaken.requests_of_error hno]
      | newView nv =>
          have hpos : 1 ≤ nv.newView := hwf.self.2.2.1
          rw [show nv.newView = 0 from Option.some.inj hview] at hpos
          exact absurd hpos (by decide)
      | viewChange vc => cases hview
  | applied happ htake =>
      exact h.abreast_applied hnet hn hj habreast hadmits (hrec _ rfl) happ htake
  | reqViewChange => exact hkeep rfl rfl fun _ => rfl
  | @leftView rvc cert _ _ hlt =>
      have hzero : rvc.newView = 0 := hexp'
      rw [hzero] at hlt
      exact absurd UInt64.zero_le (UInt64.not_le.mpr hlt)

end Processing

theorem Reachable.abreast (hnet : net.Admissible) (h : Reachable net C sys)
    (hn : NormalCase net sys) (hj : j ∈ net.correct) :
    Abreast net sys (sys.nodes j).replica := by
  induction h generalizing j with
  | init =>
      exact ⟨fun _ _ => rfl, fun _ _ => rfl, fun _ _ => UInt64.le_refl _,
        fun _ _ => Nat.zero_le _, fun _ => .inl rfl⟩
  | @step sys sys' i l hreach hstep _ ih =>
      have hn₀ := hn.of_step hstep
      have hgrows := step_grows hstep
      have habreast := ih hn₀ hj
      obtain ⟨-, -, s, hs, hnodes⟩ := step_cases hstep
      by_cases hij : j = i
      · subst hij
        have hexp := hn.views j hj
        apply Abreast.mono hgrows
        rw [hnodes, Function.update_self] at hexp ⊢
        rcases (Node.step_cases hs).2.1.replica_cases with
          heq | ⟨view, -, heq⟩ | ⟨m, order, hproc, heq, -⟩
        · rw [heq]
          exact habreast
        · rw [heq]
          apply habreast.frame hn.primary <;> simp
        · have hlinked := (hreach.node j).linked.2
          rw [heq] at hexp ⊢
          exact hreach.abreast_transition hnet hn₀ hj habreast (hlinked.admits hproc)
            ((hreach.clean j).processing hlinked hproc) hexp
            (Replica.processMessage_transition m _)
      · rw [hnodes, Function.update_of_ne hij]
        exact habreast.mono hgrows

/-- No replica can have a NewView validated, as no correct replica has sent a ViewChange. -/
theorem Reachable.not_newView {nv : NewView} (hnet : net.Admissible) (h : Reachable net C sys)
    (hn : NormalCase net sys) (hm : Hereditarily (Genuine net sys) (.certified (.newView nv))) :
    ¬ HereditarilyValid net.crypto net.config (.certified (.newView nv)) := by
  intro hvalid
  obtain ⟨hlen, -, hnodup, -⟩ := validateNewViewCert_eq_ok.mp hvalid.self.newView.2.2
  rw [Config.toNat_viewChangeCertSize hnet.tolerant] at hlen
  obtain ⟨r, hr, hcorrect⟩ := hnet.exists_correct hnodup (fun r hr => by
    obtain ⟨vc, hvc, rfl⟩ := List.mem_map.mp hr
    exact (hvalid.newViewCert hvc).self.replicaID_lt) (by rwa [List.length_map])
  obtain ⟨vc, hvc, rfl⟩ := List.mem_map.mp hr
  have hrec := h.recognized hnet hn (c := .viewChange vc) hcorrect
    (hvalid.newViewCert hvc).self.uiValid (hm.newViewCert hvc).self
  cases hrec.view

/-- In what a correct replica has generated, there are only messages of it and the primary, with one
counter. -/
theorem Reachable.nested_cases {g : Message} (hnet : net.Admissible) (h : Reachable net C sys)
    (hn : NormalCase net sys) (hi : i ∈ net.correct)
    (hg : g ∈ (sys.nodes i).replica.output.generated) (hm : m ∈ g.nested) :
    (∃ r, m = .request r) ∨ (∃ rvc, m = .reqViewChange rvc ∧ g = .reqViewChange rvc) ∨
      ∃ c c' q, g = .certified c ∧ m = .certified c' ∧ c.replicaID = i ∧
        (c' = c ∨ c'.replicaID = 0 ∧ c'.counter = c.counter) ∧ c'.proposed = .prepare q := by
  rcases (h.node i).run.generated_kind hg with ⟨c, rfl⟩ | ⟨rvc, rfl⟩
  · obtain ⟨k, hk⟩ : ∃ k, (sys.sent i)[k]? = some c :=
      List.getElem?_of_mem (Output.mem_certified.mpr hg)
    obtain ⟨q, hq, -, hid, hcv⟩ := h.sent_cases hnet hn hi hk
    have hown := (h.node i).run.replicaID_generated hg
    rcases CertifiedMessage.mem_nested_of_proposed hq hm with rfl | rfl | rfl
    · exact .inr (.inr ⟨c, c, q, rfl, rfl, hown, .inl rfl, hq⟩)
    · exact .inr (.inr ⟨c, _, q, rfl, rfl, hown, .inr ⟨hid, hcv⟩, rfl⟩)
    · exact .inl ⟨_, rfl⟩
  · exact .inr (.inl ⟨rvc, List.mem_singleton.mp hm, rfl⟩)

/-- The initial view stays the current one. -/
theorem Reachable.currentView_eq (hnet : net.Admissible) (h : Reachable net C sys)
    (hn : NormalCase net sys) (hj : j ∈ net.correct) :
    (sys.nodes j).replica.currentView = 0 := by
  induction h with
  | init => rfl
  | @step sys sys' i l hreach hstep _ ih =>
      have hn₀ := hn.of_step hstep
      have hcur := ih hn₀
      obtain ⟨-, -, s, hs, hnodes⟩ := step_cases hstep
      by_cases hij : j = i
      · subst hij
        rw [hnodes, Function.update_self]
        rcases (Node.step_cases hs).2.1.replica_cases with
          heq | ⟨view, -, heq⟩ | ⟨m, order, hproc, heq, -⟩
        · rw [heq]
          exact hcur
        · rw [heq, Replica.currentView_requestViewChange]
          exact hcur
        · rw [heq]
          have hlinked := (hreach.node j).linked.2
          have htrans := @Replica.processMessage_transition (net.params j) order m
            (sys.nodes j).replica
          rcases htrans.currentView_cases with heq | ⟨nv, rfl, -⟩
          · exact heq.trans hcur
          · -- a NewView is neither valid nor nested in what the replica has generated
            exfalso
            have hgenuine := (hreach.clean j).processing hlinked hproc
            rcases (hlinked.admits hproc).source with ⟨hvalid, -⟩ | ⟨g, hg, hm⟩
            · exact hreach.not_newView hnet hn₀ hgenuine hvalid
            · rcases hreach.nested_cases hnet hn₀ hj hg hm with
                ⟨r, hr⟩ | ⟨rvc, hr, -⟩ | ⟨c, c', q, -, hc', -, -, hproposed⟩
              · cases hr
              · cases hr
              · cases hc'
                cases hproposed
      · rw [hnodes, Function.update_of_ne hij]
        exact hcur

/-- A correct replica can process whatever is from correct replicas or clients, once it has handled
what is embedded and come to its place in the sender's sequence. -/
theorem Reachable.process_ok {order : List Request} (hnet : net.Admissible)
    (h : Reachable net C sys) (hn : NormalCase net sys) (hj : j ∈ net.correct)
    (hadmits : (sys.nodes j).replica.Admits (net.params j) m)
    (hm : Hereditarily (Genuine net sys) m)
    (hcorrect : ∀ c, m = .certified c → c.replicaID ∈ net.correct ∧
      c.counter.toNat ≤ ((sys.nodes j).replica.lastUI c.replicaID).toNat + 1) :
    ∃ new s', Replica.processMessage (net.params j) order m (sys.nodes j).replica = .ok new s' := by
  have hrun := (h.node j).run
  have hwf := hrun.admitted (hnet.lt hj) hadmits
  have habreast := h.abreast hnet hn hj
  cases hproc : Replica.processMessage (net.params j) order m (sys.nodes j).replica with
  | ok new s' => exact ⟨new, s', rfl⟩
  | error e s' =>
      exfalso
      have hrec : ∀ c, m = .certified c → Recognized net sys c := by
        rintro c rfl
        exact h.recognized hnet hn (hcorrect c rfl).1 hwf.self.2.1 hm.self
      have hfails := Replica.processMessage_fails hproc
      cases hfails with
      | hello => exact hwf.self
      | reply => exact hwf.self
      | @gap c hgap =>
          obtain ⟨hc, hle⟩ := hcorrect c rfl
          have hlast := habreast.le_length _ hc
          have hsize := hn.unexhausted _ hc
          unfold UInt64.size at hsize
          have hlt := UInt64.lt_iff_toNat_lt.mp hgap
          rw [UInt64.toNat_add, UInt64.toNat_one, Nat.mod_eq_of_lt (by omega)] at hlt
          omega
      | @noView c _ hview => cases hview.symm.trans (hrec c rfl).view
      | @ahead c w _ _ hview hgt =>
          cases hview.symm.trans (hrec c rfl).view
          exact absurd UInt64.zero_le (UInt64.not_le.mpr hgt)
      | @notTaken c e x happ htake =>
          exact h.not_refused hnet hn hj habreast hadmits (hcorrect c rfl).1 (hrec c rfl) happ htake

/-- Every correct replica has handled all that the correct replicas have generated. -/
def Exchanged (net : Network) (sys : System) : Prop :=
  ∀ i ∈ net.correct, ∀ j ∈ net.correct, ∀ m ∈ (sys.nodes i).replica.output.generated,
    m ∈ (sys.nodes j).replica.handled

section Exchange

variable (hnet : net.Admissible) (h : Reachable net C sys) (hn : NormalCase net sys)
  (hex : Exchanged net sys) (hi : i ∈ net.correct) (hj : j ∈ net.correct)
include hnet h hn hex hi hj

theorem Reachable.lastUI_of_exchanged :
    ((sys.nodes j).replica.lastUI i).toNat = (sys.sent i).length := by
  apply Nat.le_antisymm ((h.abreast hnet hn hj).le_length i hi)
  rcases Nat.eq_zero_or_pos (sys.sent i).length with hz | hpos
  · omega
  · obtain ⟨g, hg⟩ : ∃ g, (sys.sent i)[(sys.sent i).length - 1]? = some g :=
      ⟨_, List.getElem?_eq_getElem (by omega)⟩
    have hgen := Output.mem_certified.mp (List.mem_of_getElem? hg)
    have hcounter := h.numbered hnet hn hi _ g hg
    have hle := ((h.node j).run.history (hnet.lt hj)).certified g (hex i hi j hj _ hgen)
    rw [(h.node i).run.replicaID_generated hgen, UInt64.le_iff_toNat_le] at hle
    change g.counter.toNat ≤ ((sys.nodes j).replica.lastUI i).toNat at hle
    omega

omit hj in
/-- The backups have committed to everything proposed. -/
theorem Reachable.length_of_exchanged : (sys.sent i).length = sys.proposals.length := by
  have hprimary : (sys.sent 0).length = sys.proposals.length := by
    rw [h.sent_primary hnet hn, List.length_map]
  by_cases hzero : i = 0
  · rw [hzero, hprimary]
  · have hfollows := (h.divided_initial hnet hn hi).2 0 (Ne.symm hzero)
    rw [hn.views i hi] at hfollows
    have hlast := (h.abreast hnet hn hi).lastPrimaryCVs 0 hn.primary
    have hall := h.lastUI_of_exchanged hnet hn hex hn.primary hi
    have hlen := (hfollows (isPrimary_zero.mpr rfl)).length_initial
    rw [hlast, hall, hprimary] at hlen
    exact hlen.symm

omit hi in
/-- All correct replicas are counted for everything proposed. -/
theorem Reachable.committers_of_exchanged {cv : UInt64} (hpos : 1 ≤ cv)
    (hcv : cv.toNat ≤ sys.proposals.length) :
    net.correct ⊆ (sys.nodes j).replica.execution.commitments.committers net.config.n 0 cv := by
  intro i hi
  have htracks := (h.node j).run.tracks (hnet.lt hj) hnet.tolerant
  obtain ⟨first, hstart, -, hcommits⟩ := htracks.segment i
  have hview := h.replicaViews_eq hnet hn hj i
  obtain ⟨-, rfl⟩ := hstart.resolve_right fun hs => hs.1 hview
  rw [hview] at hcommits
  refine Commitments.mem_committers.mpr ⟨mem_replicas.mp (hnet.replicas hi), ?_⟩
  apply (hcommits cv).mpr
  refine ⟨hpos, UInt64.le_iff_toNat_le.mpr ?_⟩
  rw [(h.abreast hnet hn hj).lastPrimaryCVs i hi, h.lastUI_of_exchanged hnet hn hex hi hj,
    h.length_of_exchanged hnet hn hex hi]
  exact hcv

omit hi in
theorem Reachable.delivered_of_exchanged :
    (sys.nodes j).replica.execution.requests.delivered.map Request.content =
      contents sys.proposals := by
  have hrun := (h.node j).run
  obtain ⟨ps, k, hinit⟩ := hrun.inInitialView (hnet.lt hj) hnet.tolerant hnet.sha256 hnet.uniqueUI
    (hn.views j hj)
  have horder := hinit.deliveredInOrder (hrun.accepted_wellFormed (hnet.lt hj) hnet.tolerant)
  have hlength : ps.length = sys.proposals.length := by
    rw [← hinit.execution.commitments.last, (h.abreast hnet hn hj).lastPrimaryCVs 0 hn.primary,
      h.lastUI_of_exchanged hnet hn hex hn.primary hj, h.length_of_exchanged hnet hn hex hn.primary]
  have hk : k = ps.length := by
    apply Nat.le_antisymm hinit.execution.commitments.le_length
    rcases Nat.eq_zero_or_pos ps.length with hz | hpos
    · omega
    · -- the last proposal has enough commitments
      have hlt : ps.length < UInt64.size := by
        have hsize := hn.unexhausted 0 hn.primary
        have heq := h.length_of_exchanged hnet hn hex hn.primary
        omega
      have hcv : (UInt64.ofNat ps.length).toNat = ps.length := UInt64.toNat_ofNat_of_lt' hlt
      have hone : 1 ≤ UInt64.ofNat ps.length := by
        rw [UInt64.le_iff_toNat_le, hcv, UInt64.toNat_one]
        exact hpos
      have hsub := h.committers_of_exchanged hnet hn hex hj hone (by omega)
      have hcard := hnet.commitCertSize_le.trans (Finset.card_le_card hsub)
      have hquorum := ((hinit.execution.commitments.quorum _).mp hcard).2
      omega
  rw [hk, List.take_length] at horder
  rw [horder.delivered]
  apply contents_eq hnet.sha256 hnet.uniqueUI hlength
  · intro q hq
    obtain ⟨-, -, hprimary, hui⟩ := horder.proposals q hq
    exact ⟨isPrimary_zero.mp hprimary, hui⟩
  · intro q hq
    have hgen := Output.mem_certified.mp (Output.mem_proposals.mp hq)
    exact ⟨(h.node 0).run.replicaID_generated hgen,
      uiValid_of_tagAccepted ((h.node 0).linked.2.tags _ hgen)⟩
  · exact horder.counters
  · have hcounters := ((h.node 0).run.counters (hnet.lt hn.primary)).1
    have hsent : Output.certified (sys.nodes 0).replica.output.generated = _ :=
      h.sent_primary hnet hn
    rw [hsent, List.map_map, List.length_map] at hcounters
    exact hcounters

end Exchange

/-- A request with a nonzero sequence number has been executed, or a later one of its client. -/
def Executed (s : Replica) (r : Request) : Prop :=
  ∃ x ∈ s.execution.requests.delivered, x.clientID = r.clientID ∧ r.sequence ≤ x.sequence

/-- Once the correct replicas have handled what they have sent each other, they have executed just
what the primary has proposed, in this order, and nothing that the primary has received is
missing. -/
theorem executed_of_exchanged (hnet : net.Admissible) (h : Reachable net C sys)
    (hn : NormalCase net sys) (hex : Exchanged net sys) (hj : j ∈ net.correct) :
    (sys.nodes j).replica.execution.requests.delivered.map Request.content =
        contents sys.proposals ∧
      ∀ r, .request r ∈ (sys.nodes 0).replica.handled → 0 < r.sequence →
        Executed (sys.nodes j).replica r := by
  have hdelivered := h.delivered_of_exchanged hnet hn hex hj
  refine ⟨hdelivered, fun r hr hpos => ?_⟩
  have hrun := (h.node 0).run
  have hcaptured := (hrun.history (hnet.lt hn.primary)).request r hr
  rcases hrun.proposed_of_captured (hnet.lt hn.primary) (isPrimary_zero.mpr rfl)
    (hn.views 0 hn.primary) (h.currentView_eq hnet hn hn.primary) r.clientID with
    hz | ⟨q, hq, hclient, hseq⟩
  · rw [hz] at hcaptured
    exact absurd hpos (UInt64.not_lt.mpr hcaptured)
  · have hmem : q.request.content ∈
        (sys.nodes j).replica.execution.requests.delivered.map Request.content := by
      rw [hdelivered]
      exact List.mem_map_of_mem hq
    obtain ⟨x, hx, hcontent⟩ := List.mem_map.mp hmem
    refine ⟨x, hx, (congrArg Prod.fst hcontent).trans hclient, ?_⟩
    rw [show x.sequence = q.request.sequence from congrArg (·.2.1) hcontent, hseq]
    exact hcaptured

end System

end MinBFT
