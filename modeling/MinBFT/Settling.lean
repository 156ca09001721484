import MinBFT.Work

/-!
# The normal case comes to an end

Left alone, the correct replicas come to the end of their work, whatever the order of their steps.
In the initial view the primary proposes a request only when it has captured it, and there are no
more requests to capture than those in the messages around; a backup commits to a proposal once. So
only so many messages can be generated, and each of them adds only so much work.
-/

namespace MinBFT

def Message.Within (R : Finset Request) (m : Message) : Prop := ∀ r, .request r ∈ m.nested → r ∈ R

theorem Message.Within.of_nested {R : Finset Request} {m x : Message} (h : m.Within R)
    (hx : x ∈ m.nested) : x.Within R := fun r hr => h r (nested_subset hx hr)

structure Node.Pooled (R : Finset Request) (s : Node) : Prop where
  threads : ∀ t ∈ s.threads, t.message.Within R
  generated : ∀ g ∈ s.replica.output.generated, g.Within R
  handled : ∀ m ∈ s.replica.handled, m.Within R

namespace Node

variable {p : Params} {R R' : Finset Request} {s s' : Node} {l : Label} {m : Message}

def requestOf : Message → Option Request
  | .request r => some r
  | _ => none

def requests (s : Node) : Finset Request :=
  ((s.threads.map Thread.message ++ s.replica.output.generated ++ s.replica.handled).flatMap
    fun m => m.nested.filterMap requestOf).toFinset

theorem Pooled.mono (hsub : R ⊆ R') (h : s.Pooled R) : s.Pooled R' :=
  ⟨fun t ht r hr => hsub (h.threads t ht r hr), fun g hg r hr => hsub (h.generated g hg r hr),
    fun m hm r hr => hsub (h.handled m hm r hr)⟩

theorem pooled_requests (s : Node) : s.Pooled s.requests := by
  have hmem {m : Message} (hm : m ∈ s.threads.map Thread.message ++
      s.replica.output.generated ++ s.replica.handled) : m.Within s.requests := by
    intro r hr
    apply List.mem_toFinset.mpr
    apply List.mem_flatMap.mpr
    exact ⟨m, hm, List.mem_filterMap.mpr ⟨_, hr, rfl⟩⟩
  refine ⟨fun t ht => hmem ?_, fun g hg => hmem ?_, fun m hm => hmem ?_⟩
  · simp only [List.mem_append, List.mem_map]
    exact .inl (.inl ⟨t, ht, rfl⟩)
  · simp only [List.mem_append]
    exact .inl (.inr hg)
  · simp only [List.mem_append]
    exact .inr hm

theorem Pooled.processing (h : s.Pooled R) (hlinked : Linked p s)
    (hproc : s.processing l = some m) : m.Within R := by
  rcases processing_cases hproc with ⟨t, ht, tasks, htasks⟩ | ⟨tasks, htasks⟩
  · have hm := (hlinked.threads t ht).nested (.process m) (htasks ▸ List.mem_cons_self)
    exact (h.threads t ht).of_nested hm
  · obtain ⟨g, hg, hm⟩ := hlinked.own (.process m) (htasks ▸ List.mem_cons_self)
    exact (h.generated g hg).of_nested hm

theorem replica_of_internal (h : s.step p l = some s') (hl : l.Internal) :
    s'.replica = s.replica ∨ ∃ m, s.processing l = some m ∧
      s'.replica = (Replica.processMessage p l.order m s.replica).state := by
  apply (replica_of_step h _).imp_left And.right
  rintro view rfl
  exact hl

/-- The messages around a node stay within the same requests unless a new one comes in. -/
theorem Pooled.step (h : s.Pooled R) (hlinked : Linked p s) (hstep : s.step p l = some s')
    (hreceived : ∀ m, l = .receive m → m.Within R)
    (hgen : ∀ g ∈ s'.replica.output.generated, g ∈ s.replica.output.generated ∨ g.Within R) :
    s'.Pooled R := by
  have hstepped := (step_cases hstep).2.1
  refine ⟨fun t ht => ?_, fun g hg => ?_, fun m hm => ?_⟩
  · rcases hstepped.message_cases ht with ⟨t₀, ht₀, heq⟩ | heq
    · rw [← heq]
      exact h.threads t₀ ht₀
    · exact hreceived _ heq
  · exact (hgen g hg).elim (h.generated g) id
  · rcases hstepped.handled_cases hm with hm | hproc
    · exact h.handled m hm
    · exact h.processing hlinked hproc

theorem fetch_eq_self (hbatch : s.stream.batch = [])
    (hnext : s.stream.next = s.replica.output.log.length)
    (hresets : s.stream.resets = s.replica.output.resets) : s.fetch = some s := by
  have hstream : s.stream = ⟨[], s.replica.output.log.length, s.replica.output.resets⟩ := by
    rw [← hbatch, ← hnext, ← hresets]
  rw [fetch, if_neg fun hbusy => hbusy.1 hbatch, if_pos hresets, hnext, List.drop_length, ← hstream]

def Aiming (p : Params) (s : Node) : Prop :=
  ∀ t ∈ s.threads, ∀ r, t.message = .request r → Valid p.crypto p.config (.request r) →
    t.Aims s.replica

theorem Aiming.runThread {order : List Request} {k : ℕ} {t : Thread} (h : Aiming p s)
    (hlinked : Linked p s) (hext : Extends s.replica s'.replica) (ht : t ∈ s.threads)
    (hrun : s.runThread p order k t = some s') : Aiming p s' := by
  intro u hu r hr hvalid
  have hkept : u ∈ s.threads → u.Aims s'.replica := fun hu => (h u hu r hr hvalid).mono hext
  have hnested : ∀ x ∈ t.tasks, t.message = .request r → x.message = .request r := by
    intro x hx heq
    have hmem := (hlinked.threads t ht).nested x hx
    rw [heq] at hmem
    exact List.mem_singleton.mp hmem
  unfold Node.runThread at hrun
  split at hrun
  · cases hrun
  · rename_i m tasks htasks
    split at hrun
    · cases hrun
      rcases List.mem_or_eq_of_mem_set hu with hu | rfl
      · exact hkept hu
      · exact (h t ht r hr hvalid).expand htasks
    · rename_i herror
      cases hrun
      rcases List.mem_or_eq_of_mem_set hu with hu | rfl
      · exact hkept hu
      · have hm : m = .request r := hnested (.handle m) (htasks ▸ List.mem_cons_self) hr
        cases (hm ▸ herror).symm.trans hvalid
    · cases hrun
      exact hkept hu
  · rename_i m tasks htasks
    split at hrun
    · rename_i hproc
      cases hrun
      rcases List.mem_or_eq_of_mem_set hu with hu | rfl
      · exact hkept hu
      · exact (h t ht r hr hvalid).processed htasks (Replica.mem_handled_of_ok hproc)
    · rename_i hproc
      cases hrun
      rcases List.mem_or_eq_of_mem_set hu with hu | rfl
      · exact hkept hu
      · have hm : m = .request r := hnested (.process m) (htasks ▸ List.mem_cons_self) hr
        cases hm ▸ Replica.processMessage_fails hproc
    · cases hrun
      exact hkept hu

theorem Reachable.aiming {C : Replica → Message → Prop} (hid : p.id < p.config.n)
    (h : s.Reachable p C) : Aiming p s := by
  induction h with
  | init => exact fun t ht => absurd ht List.not_mem_nil
  | @step s s' l h hstep _ ih =>
      have hstepped := (step_cases hstep).2.1
      have hext := (hstepped.grown hid h).extends_
      have hkept (heq : s'.threads = s.threads) : Aiming p s' := fun t ht r hr hvalid =>
        (ih t (heq ▸ ht) r hr hvalid).mono hext
      cases l with
      | receive m =>
          cases hstepped
          intro t ht r hr hvalid
          rcases List.mem_append.mp ht with ht | ht
          · exact ih t ht r hr hvalid
          · cases List.mem_singleton.mp ht
            exact .begun rfl
      | run k order =>
          obtain ⟨t, ht, hrun⟩ := Option.bind_eq_some_iff.mp (act_of_step hstep)
          exact ih.runThread h.linked.2 hext (List.mem_of_getElem? ht) hrun
      | fetch => exact hkept (by cases hstepped; rfl)
      | supply => exact hkept (by cases hstepped; rfl)
      | own order => exact hkept (by cases hstepped <;> rfl)
      | timeout view => exact hkept (by cases hstepped; rfl)

end Node

namespace System

variable {net : Network} {C : UInt32 → Replica → Message → Prop} {sys sys' : System}
  {i : UInt32} {l : Label} {R : Finset Request}

inductive Generates (i : UInt32) (s s' : Replica) : Option Message → List Message → Prop where
  | nothing {x : Option Message} : Generates i s s' x []
  | prepare {r : Request} {q : Prepare} (hi : i = 0) (hrequest : q.request = r)
      (hlt : (s.execution.requests.clients r.clientID).lastCapturedSeq < r.sequence)
      (hle : r.sequence ≤ (s'.execution.requests.clients r.clientID).lastCapturedSeq) :
      Generates i s s' (some (.request r)) [.certified (.prepare q)]
  | commit {q : Prepare} {cm : Commit} (hi : i ≠ 0) (hproposal : cm.proposal = .prepare q) :
      Generates i s s' (some (.certified (.prepare q))) [.certified (.commit cm)]

theorem Reachable.generates (hnet : net.Admissible) (h : Reachable net C sys)
    (h' : Reachable net C sys') (hn : NormalCase net sys) (hn' : NormalCase net sys')
    (hl : l.Internal) (hstep : sys.step net i l = some sys') :
    ∃ new, (sys'.nodes i).replica.output.generated =
        (sys.nodes i).replica.output.generated ++ new ∧
      Generates i (sys.nodes i).replica (sys'.nodes i).replica ((sys.nodes i).processing l)
        new := by
  obtain ⟨hi, -, s, hs, hnodes⟩ := step_cases hstep
  have hnode : sys'.nodes i = s := by rw [hnodes, Function.update_self]
  rcases Node.replica_of_internal hs hl with heq | ⟨m, hproc, heq⟩
  · refine ⟨[], ?_, .nothing⟩
    rw [hnode, heq, List.append_nil]
  · have hwf := (h.node i).run.admitted (hnet.lt hi) ((h.node i).linked.2.admits hproc)
    have htrans := @Replica.processMessage_transition (net.params i) l.order m (sys.nodes i).replica
    rw [← heq, ← hnode] at htrans
    rw [hproc]
    rcases htrans.initial_output_cases hwf (hn.views i hi) (hn'.views i hi) with
      ⟨hsame, -⟩ | ⟨r, rfl, hcap, hout⟩ | ⟨q, rfl, hout⟩
    · refine ⟨[], ?_, .nothing⟩
      rw [hsame, List.append_nil]
    · rw [h.currentView_eq hnet hn hi, Output.applyRequest] at hout
      by_cases hprimary : isPrimary 0 (net.params i).id (net.params i).config.n = true
      · rw [if_pos hprimary] at hout
        refine ⟨_, congrArg Output.generated hout, ?_⟩
        rcases Requests.captureReq_cases r (sys.nodes i).replica.execution.requests with
          ⟨-, hnone⟩ | ⟨hlt, -⟩
        · cases hcap.symm.trans hnone
        · refine .prepare (isPrimary_zero.mp hprimary) rfl hlt ?_
          exact UInt64.le_of_eq ((Requests.captureReq_lastCapturedSeq hcap _).2 rfl).symm
      · rw [if_neg hprimary] at hout
        refine ⟨[], ?_, .nothing⟩
        rw [hout, List.append_nil]
        rfl
    · have hgen := congrArg Output.generated hout
      refine ⟨_, hgen, .commit ?_ rfl⟩
      -- the primary has only certified Prepares
      rintro rfl
      have hmem : Output.assignUI (net.params 0) (fun ui => .commit ⟨0, .prepare q, ui⟩)
          (sys.nodes 0).replica.output ∈ sys'.sent 0 := by
        apply Output.mem_certified.mpr
        rw [hgen]
        exact List.mem_append_right _ List.mem_cons_self
      rw [h'.sent_primary hnet hn'] at hmem
      obtain ⟨q', -, heq'⟩ := List.mem_map.mp hmem
      cases heq'

/-- What is generated holds no new requests, and is not much to handle. -/
theorem Generates.bounded {s s' : Replica} {x : Option Message} {new : List Message}
    (h : Generates i s s' x new) (hx : ∀ m, x = some m → m.Within R) :
    (∀ g ∈ new, g.Within R) ∧ queued 3 new ≤ 9 * new.length := by
  cases h with
  | nothing => exact ⟨fun g hg => absurd hg List.not_mem_nil, Nat.le_refl _⟩
  | @prepare r q _ hrequest =>
      refine ⟨fun g hg a ha => ?_, ?_⟩
      · cases List.mem_singleton.mp hg
        apply hx _ rfl a
        simpa [Message.nested, CertifiedMessage.nested, hrequest] using ha
      · simp [queued, Message.weight, Message.nested, CertifiedMessage.nested]
  | @commit q cm _ hproposal =>
      obtain ⟨id, proposal, ui⟩ := cm
      cases hproposal
      refine ⟨fun g hg a ha => ?_, ?_⟩
      · cases List.mem_singleton.mp hg
        apply hx _ rfl a
        simpa [Message.nested, CertifiedMessage.nested, Commit.nested] using ha
      · simp [queued, Message.weight, Message.nested, CertifiedMessage.nested, Commit.nested]

/-- A backup has committed to no more than has been proposed. -/
theorem Reachable.sent_le (hnet : net.Admissible) (h : Reachable net C sys)
    (hn : NormalCase net sys) (hi : i ∈ net.correct) (hne : i ≠ 0) :
    (sys.sent i).length ≤ sys.proposals.length := by
  have hfollows := (h.divided_initial hnet hn hi).2 0 hne.symm
  rw [hn.views i hi] at hfollows
  have hlen := (hfollows (isPrimary_zero.mpr rfl)).length_initial
  have habreast := h.abreast hnet hn hi
  rw [habreast.lastPrimaryCVs 0 hn.primary] at hlen
  have hle := habreast.le_length 0 hn.primary
  rw [h.sent_primary hnet hn, List.length_map] at hle
  omega

def uncaptured (R : Finset Request) (sys : System) : Finset Request :=
  R.filter fun r =>
    ((sys.nodes 0).replica.execution.requests.clients r.clientID).lastCapturedSeq < r.sequence

/-- How many messages the replicas can still generate: a Prepare for each of these requests, and the
Commits to them and to what has been proposed. -/
def outstanding (net : Network) (R : Finset Request) (sys : System) : ℕ :=
  (uncaptured R sys).card + ∑ i ∈ net.correct.erase 0,
    (sys.proposals.length + (uncaptured R sys).card - (sys.sent i).length)

/-- Some requests are captured and no more than these are proposed. -/
theorem outstanding_le {k : ℕ} (hcard : (uncaptured R sys').card + k ≤ (uncaptured R sys).card)
    (hproposals : sys'.proposals.length ≤ sys.proposals.length + k)
    (hsent : ∀ i, (sys.sent i).length ≤ (sys'.sent i).length) :
    outstanding net R sys' + k ≤ outstanding net R sys := by
  have hsum : ∑ i ∈ net.correct.erase 0,
        (sys'.proposals.length + (uncaptured R sys').card - (sys'.sent i).length) ≤
      ∑ i ∈ net.correct.erase 0,
        (sys.proposals.length + (uncaptured R sys).card - (sys.sent i).length) := by
    apply Finset.sum_le_sum
    intro i _
    have hle := hsent i
    omega
  rw [outstanding, outstanding]
  omega

/-- A backup commits to one of the proposals. -/
theorem outstanding_lt (hi : i ∈ net.correct.erase 0)
    (hcard : (uncaptured R sys').card ≤ (uncaptured R sys).card)
    (hproposals : sys'.proposals.length = sys.proposals.length)
    (hsent : ∀ i, (sys.sent i).length ≤ (sys'.sent i).length)
    (hmore : (sys.sent i).length < (sys'.sent i).length)
    (hle : (sys'.sent i).length ≤ sys'.proposals.length) :
    outstanding net R sys' + 1 ≤ outstanding net R sys := by
  have hsum : ∑ i ∈ net.correct.erase 0,
        (sys'.proposals.length + (uncaptured R sys').card - (sys'.sent i).length) <
      ∑ i ∈ net.correct.erase 0,
        (sys.proposals.length + (uncaptured R sys).card - (sys.sent i).length) := by
    apply Finset.sum_lt_sum
    · intro a _
      have hle := hsent a
      omega
    · refine ⟨i, hi, ?_⟩
      omega
  rw [outstanding, outstanding]
  omega

section Steps

variable (hnet : net.Admissible) (h : Reachable net C sys) (h' : Reachable net C sys')
  (hn : NormalCase net sys) (hn' : NormalCase net sys') (hl : l.Internal)
  (hstep : sys.step net i l = some sys')
include hl hstep

theorem uncaptured_subset : uncaptured R sys' ⊆ uncaptured R sys := by
  intro r hr
  obtain ⟨hmem, hlt⟩ := Finset.mem_filter.mp hr
  apply Finset.mem_filter.mpr
  refine ⟨hmem, UInt64.lt_of_le_of_lt ?_ hlt⟩
  obtain ⟨-, -, s, hs, hnodes⟩ := step_cases hstep
  by_cases hi : 0 = i
  · subst hi
    rw [hnodes, Function.update_self]
    rcases Node.replica_of_internal hs hl with heq | ⟨m, -, heq⟩
    · rw [heq]
      exact UInt64.le_refl _
    · rw [heq]
      exact (@Replica.processMessage_transition _ l.order m _).lastCapturedSeq_le _
  · rw [hnodes, Function.update_of_ne hi]
    exact UInt64.le_refl _

include hnet h h' hn hn'

/-- Each message generated is one less to be generated. -/
theorem Reachable.outstanding_of_step (hpool : (sys.nodes i).Pooled R) :
    ∃ new, (sys'.nodes i).replica.output.generated =
        (sys.nodes i).replica.output.generated ++ new ∧ (∀ g ∈ new, g.Within R) ∧
      queued 3 new ≤ 9 * new.length ∧
      outstanding net R sys' + new.length ≤ outstanding net R sys := by
  obtain ⟨new, hgen, hgenerates⟩ := h.generates hnet h' hn hn' hl hstep
  have hwithin : ∀ m, (sys.nodes i).processing l = some m → m.Within R := fun m hm =>
    hpool.processing (h.node i).linked.2 hm
  obtain ⟨hnew, hqueued⟩ := hgenerates.bounded hwithin
  refine ⟨new, hgen, hnew, hqueued, ?_⟩
  obtain ⟨hi, -, s, -, hnodes⟩ := step_cases hstep
  have hsent : sys'.sent i = sys.sent i ++ Output.certified new := by
    rw [sent, hgen, Output.certified_append]
    rfl
  have hother : ∀ a, a ≠ i → sys'.sent a = sys.sent a := by
    intro a ha
    rw [sent, hnodes, Function.update_of_ne ha]
    rfl
  have hgrows : ∀ a, (sys.sent a).length ≤ (sys'.sent a).length :=
    fun a => ((step_grows hstep).sent a).length_le
  have hcard := Finset.card_le_card (@uncaptured_subset _ _ _ _ _ R hl hstep)
  have hlen : (sys.sent 0).length = sys.proposals.length := by
    rw [h.sent_primary hnet hn, List.length_map]
  have hlen' : (sys'.sent 0).length = sys'.proposals.length := by
    rw [h'.sent_primary hnet hn', List.length_map]
  generalize (sys.nodes i).processing l = x at hgenerates hwithin
  cases hgenerates with
  | nothing =>
      have hsame : sys'.sent 0 = sys.sent 0 := by
        by_cases hi : 0 = i
        · rw [hi, hsent]
          exact List.append_nil _
        · exact hother 0 hi
      apply outstanding_le hcard _ hgrows
      rw [← hlen, ← hlen', hsame]
      exact Nat.le_refl _
  | @prepare r q hzero _ hlt hle =>
      subst hzero
      refine outstanding_le ?_ ?_ hgrows
      · -- the request has been captured
        apply Finset.card_lt_card
        apply Finset.ssubset_iff_of_subset (uncaptured_subset hl hstep) |>.mpr
        refine ⟨r, ?_, ?_⟩
        · exact Finset.mem_filter.mpr ⟨hwithin _ rfl r List.mem_cons_self, hlt⟩
        · intro hr
          exact absurd hle (UInt64.not_le.mpr (Finset.mem_filter.mp hr).2)
      · rw [← hlen, ← hlen', hsent, List.length_append]
        exact Nat.le_refl _
  | commit hne =>
      apply outstanding_lt (Finset.mem_erase.mpr ⟨hne, hi⟩) hcard _ hgrows
      · rw [hsent, List.length_append]
        exact Nat.lt_succ_self _
      · exact h'.sent_le hnet hn' hi hne
      · rw [← hlen, ← hlen', hother 0 hne.symm]

end Steps

theorem pooled_of_step {new : List Message} (h : Reachable net C sys)
    (hpool : ∀ a ∈ net.correct, (sys.nodes a).Pooled R) (hstep : sys.step net i l = some sys')
    (hreceived : ∀ m, l = .receive m → m.Within R)
    (hgen : (sys'.nodes i).replica.output.generated =
      (sys.nodes i).replica.output.generated ++ new) (hnew : ∀ g ∈ new, g.Within R) :
    ∀ a ∈ net.correct, (sys'.nodes a).Pooled R := by
  intro a ha
  obtain ⟨-, -, s, hs, hnodes⟩ := step_cases hstep
  by_cases hai : a = i
  · subst hai
    rw [hnodes, Function.update_self] at hgen ⊢
    apply (hpool a ha).step (h.node a).linked.2 hs hreceived
    intro g hg
    rw [hgen] at hg
    exact (List.mem_append.mp hg).imp_right (hnew g)
  · rw [hnodes, Function.update_of_ne hai]
    exact hpool a ha

theorem outstanding_congr
    (h : ∀ a, (sys'.nodes a).replica = (sys.nodes a).replica) :
    outstanding net R sys' = outstanding net R sys := by
  simp only [outstanding, uncaptured, proposals, sent, h]

end System

namespace Connected

variable {net : Network} {c c' : Connected} {l : Label} {i j : UInt32} {R : Finset Request}
  {k : ℕ}

def Pooled (net : Network) (R : Finset Request) (c : Connected) : Prop :=
  ∀ i ∈ net.correct, (c.system.nodes i).Pooled R

def requests (net : Network) (c : Connected) : Finset Request :=
  net.correct.biUnion fun i => (c.system.nodes i).requests

theorem pooled_requests (net : Network) (c : Connected) : Pooled net (c.requests net) c :=
  fun _ hi => (Node.pooled_requests _).mono
    (Finset.subset_biUnion_of_mem (fun i => (c.system.nodes i).requests) hi)

/-- What is left to do, and at most will be. -/
def potential (net : Network) (R : Finset Request) (c : Connected) : ℕ :=
  9 * net.correct.card * c.system.outstanding net R + c.work net

theorem normalCase_of_step (hstep : c.step net l = some c') (hn' : c'.system.NormalCase net) :
    c.system.NormalCase net := by
  cases step_stepped hstep with
  | replica hsys => exact hn'.of_step hsys
  | expired => exact hn'
  | moved => exact hn'
  | delivered _ _ _ hsys => exact hn'.of_step hsys

section Steps

variable (hnet : net.Admissible) (h : Reachable net c) (hl : l.Internal)
  (hstep : c.step net l = some c') (hn' : c'.system.NormalCase net) (hpool : c.Pooled net R)
include hnet h hl hstep hn' hpool

/-- The correct replicas get no requests but those they have got already. -/
theorem Reachable.pooled_of_step : c'.Pooled net R := by
  have hn := normalCase_of_step hstep hn'
  have hsystem := Reachable.system h
  cases step_stepped hstep with
  | @replica i l' sys' hsys =>
      have hreach' : System.Reachable net (fun _ _ _ => True) sys' :=
        .step hsystem hsys fun _ _ => trivial
      obtain ⟨new, hgen, hwithin, -⟩ := hsystem.outstanding_of_step hnet hreach' hn hn' hl hsys
        (hpool i (System.step_cases hsys).1)
      apply System.pooled_of_step hsystem hpool hsys _ hgen hwithin
      rintro m rfl
      exact hl.elim
  | expired => exact hl.elim
  | moved => exact hpool
  | @delivered i j m transit sys' hpeers htransit _ hsys =>
      have hgen : (sys'.nodes j).replica.output.generated =
          (c.system.nodes j).replica.output.generated ++ [] := by
        rw [(work_of_delivered hpeers htransit hsys).2, List.append_nil]
      apply System.pooled_of_step hsystem hpool hsys _ hgen fun g hg => absurd hg List.not_mem_nil
      -- the message is from a correct replica, which has generated or handled it
      rintro _ ⟨⟩
      have hm : m ∈ (c.links i j).pending := by
        rw [Link.pending, htransit]
        exact List.mem_cons_self
      rcases (Reachable.sound hnet h hn hpeers.1 hpeers.2.1 hpeers.2.2).sendable m hm with
        hm | ⟨r, rfl, hr⟩
      · exact (hpool i hpeers.1).generated m hm
      · exact (hpool i hpeers.1).handled _ hr

/-- Every step brings the end nearer. -/
theorem Reachable.potential_of_step : c' = c ∨ c'.potential net R + 1 ≤ c.potential net R := by
  have hn := normalCase_of_step hstep hn'
  have hsystem := Reachable.system h
  rcases Reachable.work_of_step hnet h hn hl hstep hn' with
    heq | ⟨hwork, hsame⟩ | ⟨i, l', new, hl', hsys, hgen, hwork⟩
  · exact .inl heq
  · right
    rw [potential, potential, System.outstanding_congr hsame]
    omega
  · right
    have hreach' : System.Reachable net (fun _ _ _ => True) c'.system :=
      .step hsystem hsys fun _ _ => trivial
    obtain ⟨new', hgen', -, hqueued, hout⟩ := hsystem.outstanding_of_step hnet hreach' hn hn' hl'
      hsys (hpool i (System.step_cases hsys).1)
    obtain rfl := List.append_cancel_left (hgen.symm.trans hgen')
    -- what the messages generated cost has been accounted for
    have hcost := Nat.mul_le_mul_left (9 * net.correct.card) hout
    have hmore := Nat.mul_le_mul_left net.correct.card hqueued
    rw [Nat.mul_add] at hcost
    rw [← Nat.mul_assoc, Nat.mul_comm _ 9] at hmore
    rw [potential, potential]
    omega

end Steps

/-- A number of steps without input from outside, none of them in vain. -/
inductive Undisturbed (net : Network) (c : Connected) : ℕ → Connected → Prop where
  | refl : Undisturbed net c 0 c
  | step {k : ℕ} {c₁ c' : Connected} {l : Label} (h : Undisturbed net c k c₁) (hl : l.Internal)
      (hstep : c₁.step net l = some c') (hne : c' ≠ c₁) : Undisturbed net c (k + 1) c'

theorem Undisturbed.reachable (h : Undisturbed net c k c') (hc : Reachable net c) :
    Reachable net c' := by
  induction h with
  | refl => exact hc
  | step _ _ hstep _ ih => exact .step ih trivial hstep

theorem Undisturbed.le_potential (hnet : net.Admissible) (hc : Reachable net c)
    (h : Undisturbed net c k c') (hn : c'.system.NormalCase net) (hpool : c.Pooled net R) :
    c'.Pooled net R ∧ c'.potential net R + k ≤ c.potential net R := by
  induction h with
  | refl => exact ⟨hpool, Nat.le_refl _⟩
  | @step k c₁ c' l h hl hstep hne ih =>
      obtain ⟨hpool₁, hle⟩ := ih (normalCase_of_step hstep hn)
      have hreach := h.reachable hc
      refine ⟨Reachable.pooled_of_step hnet hreach hl hstep hn hpool₁, ?_⟩
      rcases Reachable.potential_of_step hnet hreach hl hstep hn hpool₁ with heq | hlt
      · exact absurd heq hne
      · omega

/-- No step without input from outside changes anything. -/
def Stuck (net : Network) (c : Connected) : Prop :=
  ∀ l c', Label.Internal l → c.step net l = some c' → c' = c

/-- The authenticator accepts the tags of what the replicas can generate in one step. -/
def Accepting (net : Network) (c : Connected) : Prop :=
  ∀ i ∈ net.correct, ∀ l s', l.Internal → (c.system.nodes i).act (net.params i) l = some s' →
    ∀ g ∈ s'.replica.output.generated, Node.tagAccepted (net.params i) g = true

section Stuck

variable (hnet : net.Admissible) (h : Reachable net c) (hn : c.system.NormalCase net)
  (haccept : c.Accepting net) (hstuck : c.Stuck net)

include hn haccept hstuck in
theorem act_of_stuck {s' : Node} (hi : i ∈ net.correct) (l : MinBFT.Label) (hl : l.Internal)
    (hact : (c.system.nodes i).act (net.params i) l = some s') : s' = c.system.nodes i := by
  have hstep : (c.system.nodes i).step (net.params i) l = some s' := by
    rw [Node.step, hn.alive i hi, Option.isSome_none, if_neg Bool.false_ne_true]
    apply Option.filter_eq_some_iff.mpr
    refine ⟨hact, List.all_eq_true.mpr fun g hg => ?_⟩
    exact haccept i hi l s' hl hact g (List.mem_of_mem_drop hg)
  have hadmitted : c.system.admitted net l = true := by
    cases l with
    | receive => exact hl.elim
    | _ => rfl
  have hsys : c.step net (.replica i l) =
      some ⟨⟨Function.update c.system.nodes i s'⟩, c.links⟩ := by
    simp [step, System.step, hi, hadmitted, hstep]
  have heq := hstuck (.replica i l) _ hl hsys
  have hnode : Function.update c.system.nodes i s' i = c.system.nodes i :=
    congrArg (fun c => c.system.nodes i) heq
  rwa [Function.update_self] at hnode

include hnet h hn haccept hstuck

theorem Reachable.threads_of_stuck {t : Thread} (hi : i ∈ net.correct)
    (ht : t ∈ (c.system.nodes i).threads) : t.tasks = [] := by
  by_contra hne
  obtain ⟨k, hk⟩ := List.getElem?_of_mem ht
  have hnext := (Reachable.stream_next hnet h hn hi).2
  obtain ⟨s', hrun⟩ : ∃ s', (c.system.nodes i).runThread (net.params i) [] k t = some s' := by
    unfold Node.runThread
    split
    · exact absurd ‹_› hne
    · split <;> exact ⟨_, rfl⟩
    · split <;> exact ⟨_, rfl⟩
  have hact : (c.system.nodes i).act (net.params i) (.run k []) = some s' := by
    rw [Node.act, hk]
    exact hrun
  obtain rfl := act_of_stuck hn haccept hstuck hi (.run k []) trivial hact
  obtain ⟨new, hnew, hwork⟩ := Node.work_of_runThread hnext hk (hn.alive i hi) hrun
  rw [List.self_eq_append_right] at hnew
  rw [hnew, queued_nil] at hwork
  omega

theorem Reachable.own_of_stuck (hi : i ∈ net.correct) :
    (c.system.nodes i).own = [] ∧ (c.system.nodes i).stream.batch = [] ∧
      (c.system.nodes i).stream.next = (c.system.nodes i).replica.output.log.length := by
  obtain ⟨hresets, hnext⟩ := Reachable.stream_next hnet h hn hi
  have hown : (c.system.nodes i).own = [] := by
    by_contra hne
    obtain ⟨s', hrun⟩ : ∃ s', (c.system.nodes i).runOwn (net.params i) [] = some s' := by
      unfold Node.runOwn
      split
      · exact absurd ‹_› hne
      · exact ⟨_, rfl⟩
      · split <;> exact ⟨_, rfl⟩
    obtain rfl := act_of_stuck hn haccept hstuck hi (.own []) trivial hrun
    obtain ⟨new, hnew, hwork⟩ := Node.work_of_runOwn hnext (hn.alive i hi) hrun
    rw [List.self_eq_append_right] at hnew
    rw [hnew, queued_nil] at hwork
    omega
  have hbatch : (c.system.nodes i).stream.batch = [] := by
    by_contra hne
    obtain ⟨m, batch, hbatch⟩ := List.exists_cons_of_ne_nil hne
    have hact : (c.system.nodes i).act (net.params i) .supply = some { c.system.nodes i with
        own := [.handle m], stream := { (c.system.nodes i).stream with batch } } := by
      simp [Node.act, Node.supply, hown, hbatch]
    have heq := act_of_stuck hn haccept hstuck hi .supply trivial hact
    cases (congrArg Node.own heq).trans hown
  refine ⟨hown, hbatch, ?_⟩
  have hact : (c.system.nodes i).act (net.params i) .fetch = some { c.system.nodes i with
      stream := ⟨(c.system.nodes i).replica.output.log.drop (c.system.nodes i).stream.next,
        (c.system.nodes i).replica.output.log.length,
        (c.system.nodes i).replica.output.resets⟩ } := by
    simp [Node.act, Node.fetch, hbatch, hresets]
  have heq := act_of_stuck hn haccept hstuck hi .fetch trivial hact
  exact (congrArg (fun s => s.stream.next) heq).symm

omit hnet h hn haccept in
theorem link_of_stuck {f : Link → Option Link} {lk : Link} (hpeers : net.Peers i j) (l : Label)
    (hl : l.Internal) (hmoves : c.step net l = c.move net i j f) (hf : f (c.links i j) = some lk) :
    lk = c.links i j := by
  have hstep : c.step net l = some (c.setLink i j lk) := by
    rw [hmoves, move, if_pos hpeers, hf]
    rfl
  rw [← links_setLink_self c i j lk, hstuck l _ hl hstep]

theorem Reachable.drained_of_stuck (hpeers : net.Peers i j) :
    (c.links i j).Drained (c.system.nodes i) (c.system.nodes j) := by
  have hsound := Reachable.sound hnet h hn hpeers.1 hpeers.2.1 hpeers.2.2
  have hquiet : (c.links i j).Quiet (c.system.nodes j) := fun k t _ ht =>
    Reachable.threads_of_stuck hnet h hn haccept hstuck hpeers.2.1 (List.mem_of_getElem? ht)
  obtain ⟨stream, hstream⟩ : ∃ stream, (c.links i j).stream = some stream := by
    apply Option.ne_none_iff_exists'.mp
    intro hnone
    have hhello : handleHello (net.params i) (.hello ⟨j⟩) = .ok j := by
      apply if_neg
      rw [not_or]
      exact ⟨UInt32.not_le.mpr (hnet.lt hpeers.2.1), hpeers.2.2.symm⟩
    have heq := link_of_stuck hstuck hpeers (.hello i j) trivial rfl (by
      rw [Link.hello, hnone, hhello])
    rw [← heq] at hnone
    cases hnone
  have hsource : (c.links i j).source = stream := by
    rw [Link.source, hstream]
    rfl
  have hresets : stream.resets = (c.system.nodes i).replica.output.resets := by
    have hzero := hsound.resets
    rw [hsource] at hzero
    rw [hzero, (((Reachable.system h).node i).run.log_eq_generated (hnet.lt hpeers.1)
      (hn.views i hpeers.1)).2]
  have hbatch : stream.batch = [] := by
    by_contra hne
    obtain ⟨m, batch, hbatch⟩ := List.exists_cons_of_ne_nil hne
    obtain ⟨b, next, resets⟩ := stream
    cases hbatch
    have heq := link_of_stuck hstuck hpeers (.send i j) trivial rfl (by rw [Link.send, hstream])
    have hlen := congrArg (fun lk => lk.transit.length) heq
    simp [Link.push, Link.withStream] at hlen
  refine ⟨?_, ?_, ?_, ?_, hquiet⟩
  · rw [hsource, hbatch]
  · have hfetch : (c.links i j).fetch (c.system.nodes i) = some ((c.links i j).withStream
        ⟨(c.system.nodes i).replica.output.log.drop stream.next,
          (c.system.nodes i).replica.output.log.length,
          (c.system.nodes i).replica.output.resets⟩) := by
      simp [Link.fetch, hstream, Node.fetch, hbatch, hresets]
    have heq := link_of_stuck hstuck hpeers (.fetch i j) trivial rfl hfetch
    exact (congrArg (fun lk => lk.source.next) heq).symm
  · apply Nat.le_antisymm hsound.forwarded
    by_contra hlt
    have hr := List.getElem?_eq_getElem (Nat.not_le.mp hlt)
    have heq := link_of_stuck hstuck hpeers (.forward i j) trivial rfl (by
      rw [Link.forward, hstream, hr])
    have hsucc := congrArg Link.forwarded heq
    simp [Link.pushForwarded] at hsucc
  · by_contra hne
    have hsome := Reachable.deliverable hnet h hn hpeers.1 hpeers.2.1 hpeers.2.2 hne hquiet
    obtain ⟨c', hc'⟩ := Option.isSome_iff_exists.mp hsome
    have heq := hstuck (.deliver i j) c' trivial hc'
    obtain ⟨m, transit, htransit⟩ := List.exists_cons_of_ne_nil hne
    simp only [step, deliver, htransit] at hc'
    split_ifs at hc'
    obtain ⟨sys', hsys, rfl⟩ := Option.map_eq_some_iff.mp hc'
    have hwork := (work_of_delivered hpeers htransit hsys).1
    rw [heq] at hwork
    omega

theorem Reachable.idle_of_stuck : Idle net c :=
  ⟨fun _ hi _ hj hij => Reachable.drained_of_stuck hnet h hn haccept hstuck ⟨hi, hj, hij⟩,
    fun _ => Reachable.own_of_stuck hnet h hn haccept hstuck⟩

theorem Reachable.handled_of_stuck {t : Thread} {r : Request} (hi : i ∈ net.correct)
    (ht : t ∈ (c.system.nodes i).threads) (hr : t.message = .request r)
    (hvalid : Valid net.crypto net.config (.request r)) :
    .request r ∈ (c.system.nodes i).replica.handled := by
  have hdone := Reachable.threads_of_stuck hnet h hn haccept hstuck hi ht
  rcases ((Reachable.system h).node i).aiming (hnet.lt hi) t ht r hr hvalid with
    htasks | ⟨before, htasks⟩ | ⟨-, hhandled⟩
  · cases hdone.symm.trans htasks
  · exact absurd (hdone.symm.trans htasks).symm (by simp)
  · rw [← hr]
    exact hhandled

end Stuck

/-- In the normal case, whatever the order in which the replicas go on, they come to an end unless
more requests come in or timers expire. By then every correct replica has executed all valid
requests that have come in at the primary, and all that backups have passed on to it. -/
theorem settles (hnet : net.Admissible) (h : Reachable net c) :
    ∃ N, ∀ k c', Undisturbed net c k c' → c'.system.NormalCase net →
      k ≤ N ∧ (Accepting net c' → Stuck net c' → ∀ j ∈ net.correct,
        Complete net c' (c'.system.nodes j).replica ∧
          ∀ t ∈ (c'.system.nodes 0).threads, ∀ r, t.message = .request r →
            Valid net.crypto net.config (.request r) → 0 < r.sequence →
              System.Executed (c'.system.nodes j).replica r) := by
  refine ⟨c.potential net (c.requests net), fun k c' hrun hn => ⟨?_, ?_⟩⟩
  · have hle := (hrun.le_potential hnet h hn (pooled_requests net c)).2
    omega
  · intro haccept hstuck j hj
    have hreach := hrun.reachable h
    have hidle := Reachable.idle_of_stuck hnet hreach hn haccept hstuck
    have hcomplete := Reachable.complete hnet hreach hn hidle hj
    refine ⟨hcomplete, fun t ht r hr hvalid hpos => hcomplete.received r ?_ hpos⟩
    exact Reachable.handled_of_stuck hnet hreach hn haccept hstuck hn.primary ht hr hvalid

structure Finished (net : Network) (c : Connected) : Prop where
  idle : Idle net c
  threads : ∀ i ∈ net.correct, ∀ t ∈ (c.system.nodes i).threads, t.tasks = []
  opened : ∀ i j, net.Peers i j → (c.links i j).stream.isSome

section Finished

variable (hnet : net.Admissible) (h : Reachable net c) (hn : c.system.NormalCase net)
  (hfinished : c.Finished net)
include hnet h hn hfinished

theorem Reachable.act_of_finished {l : MinBFT.Label} {s' : Node} (hi : i ∈ net.correct)
    (hl : l.Internal) (hact : (c.system.nodes i).act (net.params i) l = some s') :
    s' = c.system.nodes i := by
  obtain ⟨hown, hbatch, hnext⟩ := hfinished.idle.own i hi
  cases l with
  | receive => exact hl.elim
  | timeout => exact hl.elim
  | run k order =>
      obtain ⟨t, ht, hrun⟩ := Option.bind_eq_some_iff.mp hact
      rw [Node.runThread, hfinished.threads i hi t (List.mem_of_getElem? ht)] at hrun
      cases hrun
  | own order =>
      rw [Node.act, Node.runOwn, hown] at hact
      cases hact
  | supply =>
      rw [Node.act, Node.supply, hown, hbatch] at hact
      cases hact
  | fetch =>
      have hresets := (Reachable.stream_next hnet h hn hi).1
      cases (Node.fetch_eq_self hbatch hnext hresets).symm.trans hact
      rfl

theorem Reachable.moved_of_finished {lk : Link} (hpeers : net.Peers i j)
    (hmoved : Link.Moved (c.system.nodes i) (c.links i j) lk) : lk = c.links i j := by
  have hsound := Reachable.sound hnet h hn hpeers.1 hpeers.2.1 hpeers.2.2
  obtain ⟨hlog, hresets⟩ := ((Reachable.system h).node i).run.log_eq_generated
    (hnet.lt hpeers.1) (hn.views i hpeers.1)
  have hdrained := hfinished.idle.links i hpeers.1 j hpeers.2.1 hpeers.2.2
  have hwork : (c.links i j).work (c.system.nodes i) = 0 := by
    have hopened := Option.isNone_eq_false_iff.mpr (hfinished.opened i j hpeers)
    simp [Link.work, hopened, hdrained.transit, hdrained.batch, hdrained.next, hdrained.forwarded,
      hlog]
  rcases Link.work_of_moved hmoved hsound.next hlog (hsound.resets.trans hresets.symm) with
    heq | hlt
  · exact heq
  · omega

theorem Reachable.stuck_of_finished : Stuck net c := by
  intro l c' hl hstep
  cases step_stepped hstep with
  | @replica i l' sys' hsys =>
      obtain ⟨hi, -, s, hs, hnodes⟩ := System.step_cases hsys
      rw [Reachable.act_of_finished hnet h hn hfinished hi hl (Node.act_of_step hs),
        Function.update_eq_self] at hnodes
      cases sys'
      cases hnodes
      rfl
  | expired => exact hl.elim
  | moved hpeers hmoved =>
      rw [Reachable.moved_of_finished hnet h hn hfinished hpeers hmoved]
      exact setLink_self c _ _
  | delivered hpeers htransit =>
      rw [(hfinished.idle.links _ hpeers.1 _ hpeers.2.1 hpeers.2.2).transit] at htransit
      cases htransit

theorem Reachable.accepting_of_finished : Accepting net c := by
  intro i hi l s' hl hact g hg
  rw [Reachable.act_of_finished hnet h hn hfinished hi hl hact] at hg
  exact ((Reachable.system h).node i).linked.2.tags g hg

end Finished

end Connected

namespace Concrete

def drained (c : Connected) (i j : UInt32) : Bool :=
  (c.links i j).stream.isSome && (c.links i j).source.batch.isEmpty &&
    decide ((c.links i j).source.next = (c.system.nodes i).replica.output.log.length) &&
    decide ((c.links i j).forwarded = (c.links i j).unicast.length) && (c.links i j).transit.isEmpty

def resting (s : Node) : Bool :=
  s.own.isEmpty && s.stream.batch.isEmpty &&
    decide (s.stream.next = s.replica.output.log.length) && s.threads.all (·.tasks.isEmpty)

theorem peers_passing {P : UInt32 → UInt32 → Prop} (hforth : P 0 1) (hback : P 1 0)
    {i j : UInt32} (h : passingNetwork.Peers i j) : P i j := by
  have hall : ∀ i ∈ passingNetwork.correct, ∀ j ∈ passingNetwork.correct, i ≠ j → P i j := by
    apply forall_passing <;> apply forall_passing <;> intro hne
    · exact absurd rfl hne
    · exact hforth
    · exact hback
    · exact absurd rfl hne
  exact hall i h.1 j h.2.1 h.2.2

theorem finished_of_check {c : Connected} (hforth : drained c 0 1 = true)
    (hback : drained c 1 0 = true) (hzero : resting (c.system.nodes 0) = true)
    (hone : resting (c.system.nodes 1) = true) : Connected.Finished passingNetwork c := by
  simp only [drained, resting, Bool.and_eq_true, decide_eq_true_eq, List.isEmpty_iff,
    List.all_eq_true] at hforth hback hzero hone
  obtain ⟨⟨⟨⟨hopen, hbatch⟩, hnext⟩, hforwarded⟩, htransit⟩ := hforth
  obtain ⟨⟨⟨⟨hopen', hbatch'⟩, hnext'⟩, hforwarded'⟩, htransit'⟩ := hback
  have hthreads : ∀ i ∈ passingNetwork.correct, ∀ t ∈ (c.system.nodes i).threads, t.tasks = [] :=
    forall_passing hzero.2 hone.2
  have hquiet {j : UInt32} {lk : Link} (hj : j ∈ passingNetwork.correct) :
      lk.Quiet (c.system.nodes j) := fun _ t _ ht => hthreads j hj t (List.mem_of_getElem? ht)
  refine ⟨⟨fun i hi j hj hij => ?_, ?_⟩, hthreads, fun i j hpeers => ?_⟩
  · refine peers_passing (P := fun i j => (c.links i j).Drained (c.system.nodes i)
      (c.system.nodes j)) ?_ ?_ ⟨hi, hj, hij⟩
    · exact ⟨hbatch, hnext, hforwarded, htransit, hquiet (by decide)⟩
    · exact ⟨hbatch', hnext', hforwarded', htransit', hquiet (by decide)⟩
  · exact forall_passing ⟨hzero.1.1.1, hzero.1.1.2, hzero.1.2⟩
      ⟨hone.1.1.1, hone.1.1.2, hone.1.2⟩
  · exact peers_passing (P := fun i j => (c.links i j).stream.isSome) hopen hopen' hpeers

/-- The last step of a run in which the backup passes a request on to the primary. -/
theorem settles_of_passing : ∃ c c', Connected.Reachable passingNetwork c ∧
    Connected.Undisturbed passingNetwork c 1 c' ∧ c'.system.NormalCase passingNetwork ∧
      Connected.Accepting passingNetwork c' ∧ Connected.Stuck passingNetwork c' ∧
      request 7 1 ∈ (c'.links 1 0).unicast ∧
      System.Executed (c'.system.nodes 0).replica (request 7 1) := by
  have hrun : (Machine.exec (Connected.step passingNetwork) (fun _ _ => true)
      (Connected.init passingNetwork)
      (passing ++ (.deliver 1 0 :: List.replicate 5 (.replica 0 (.run 1 []))))).any (fun c =>
        !resting (c.system.nodes 0) &&
          (c.step passingNetwork (.replica 0 (.run 1 []))).any fun c' =>
            inNormalCase c'.system 0 && inNormalCase c'.system 1 && drained c' 0 1 &&
              drained c' 1 0 && resting (c'.system.nodes 0) && resting (c'.system.nodes 1) &&
              decide (request 7 1 ∈ (c'.links 1 0).unicast)) = true := by
    decide +kernel
  obtain ⟨c, hreach, hc⟩ := Machine.exists_reachable (fun _ _ _ _ => trivial) hrun
  rw [Bool.and_eq_true, Option.any_eq_true] at hc
  obtain ⟨hbusy, c', hstep, hc'⟩ := hc
  simp only [Bool.and_eq_true, decide_eq_true_eq] at hc'
  obtain ⟨⟨⟨⟨⟨⟨hzero, hone⟩, hforth⟩, hback⟩, hrest⟩, hrest'⟩, hmem⟩ := hc'
  have hn := normalCase_of_check hzero hone
  have hfinished := finished_of_check hforth hback hrest hrest'
  have hrun' : Connected.Undisturbed passingNetwork c 1 c' := by
    refine .step .refl (l := .replica 0 (.run 1 [])) trivial hstep ?_
    rintro rfl
    rw [hrest] at hbusy
    cases hbusy
  have hreach' := hrun'.reachable hreach
  have haccept := Connected.Reachable.accepting_of_finished passingNetwork_admissible hreach' hn
    hfinished
  have hstuck := Connected.Reachable.stuck_of_finished passingNetwork_admissible hreach' hn
    hfinished
  obtain ⟨N, hsettles⟩ := Connected.settles passingNetwork_admissible hreach
  exact ⟨c, c', hreach, hrun', hn, haccept, hstuck, hmem,
    ((hsettles 1 c' hrun' hn).2 haccept hstuck 0 (by decide)).1.forwarded 1 (by decide) (by decide)
      _ hmem (by decide)⟩

end Concrete

end MinBFT
