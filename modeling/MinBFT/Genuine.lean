import MinBFT.OwnMessages
import MinBFT.System

/-!
# Messages in the name of correct replicas

The adversary cannot make up messages of correct replicas, but it can hand on those that there are,
on their own or embedded in others, and correct replicas embed what they have handled in messages of
their own. So whatever a correct replica handles or sends in the name of a correct replica, at any
depth, that replica has generated. In particular, the messages of correct replicas may be delivered
to each other at any time.
-/

namespace MinBFT

/-- Every goroutine has been there before, or handles the message just received. -/
theorem Node.Stepped.message_cases {p : Params} {s s' : Node} {l : Label} (h : Stepped p s l s')
    {t : Thread} (ht : t ∈ s'.threads) :
    (∃ t₀ ∈ s.threads, t₀.message = t.message) ∨ l = .receive t.message := by
  have hset {i : ℕ} {u u' : Thread} (ht : t ∈ s.threads.set i u') (hi : s.threads[i]? = some u)
      (hmsg : u'.message = u.message) : ∃ t₀ ∈ s.threads, t₀.message = t.message := by
    rcases List.mem_or_eq_of_mem_set ht with ht | rfl
    · exact ⟨t, ht, rfl⟩
    · exact ⟨u, List.mem_of_getElem? hi, hmsg.symm⟩
  cases h with
  | received =>
      rcases List.mem_append.mp ht with ht | ht
      · exact .inl ⟨t, ht, rfl⟩
      · cases List.mem_singleton.mp ht
        exact .inr rfl
  | expanded hi => exact .inl (hset ht hi rfl)
  | invalid hi => exact .inl (hset ht hi rfl)
  | processed hi => exact .inl (hset ht hi rfl)
  | failed hi => exact .inl (hset ht hi rfl)
  | _ => exact .inl ⟨t, ht, rfl⟩

theorem Replica.Made.replicaID {p : Params} {s : Replica} {m g : Message} (h : Made p s m g) :
    ∃ c, g = .certified c ∧ c.replicaID = p.id := by
  cases h with
  | _ => exact ⟨_, rfl, rfl⟩

/-- A timeout generates a ReqViewChange, if anything. -/
theorem Replica.Sources.timeout {p : Params} {P : Message → Prop} {s : Replica} {newView : UInt64}
    (h : Sources P s) (hrvc : ∀ rvc : ReqViewChange, rvc.replicaID = p.id →
      .reqViewChange rvc ∈ (s.requestViewChange p newView).output.generated →
      P (.reqViewChange rvc)) : Sources P (s.requestViewChange p newView) := by
  have hlog := (@requestViewChange_steps p newView s).log_suffix h.log
  unfold Replica.requestViewChange at hlog hrvc ⊢
  split_ifs at hlog hrvc ⊢ with hreq hexp
  · exact h
  · exact ⟨h.generated, h.reqViewChanges, h.viewChanges, h.requests, hlog⟩
  · refine ⟨?_, h.reqViewChanges, h.viewChanges, h.requests, hlog⟩
    intro g hg
    rcases List.mem_append.mp hg with hg | hg
    · exact h.generated g hg
    · cases List.mem_singleton.mp hg
      refine ⟨hrvc _ rfl (List.mem_append_right _ List.mem_cons_self), ?_⟩
      exact fun _ hx => absurd hx List.not_mem_nil

namespace System

variable {net : Network} {C : UInt32 → Replica → Message → Prop} {sys sys' : System}
  {i : UInt32} {l : Label} {m : Message}

/-- If the message is from a correct replica, this replica has generated it. -/
def Genuine (net : Network) (sys : System) : Message → Prop
  | .certified m => m.replicaID ∈ net.correct → UIValid net.crypto m →
      (sys.nodes m.replicaID).replica.OwnGenerated (net.params m.replicaID) m
  | .reqViewChange m => m.replicaID ∈ net.correct →
      net.crypto.verifyMessageAuthenTag .replicaAuthen m.replicaID m.authenBytes m.signature =
        true →
      ∃ g, .reqViewChange g ∈ (sys.nodes m.replicaID).replica.output.generated ∧
        g.newView = m.newView
  | _ => True

def Grows (sys sys' : System) : Prop :=
  ∀ i, (sys.nodes i).replica.output.generated <+: (sys'.nodes i).replica.output.generated

theorem Genuine.mono (hgrows : Grows sys sys') (h : Genuine net sys m) : Genuine net sys' m := by
  cases m with
  | certified c =>
      intro hc hui
      obtain ⟨g, hg, heq⟩ := h hc hui
      exact ⟨g, (hgrows _).subset hg, heq⟩
  | reqViewChange rvc =>
      intro hc htag
      obtain ⟨g, hg, heq⟩ := h hc htag
      exact ⟨g, (hgrows _).subset hg, heq⟩
  | _ => trivial

theorem authentic_iff : sys.authentic net m = true ↔ Hereditarily (Genuine net sys) m := by
  rw [hereditarily_iff, authentic, List.all_eq_true]
  refine forall₂_congr fun x _ => ?_
  cases x with
  | certified c =>
      have hgen : Node.hasGenerated (net.params c.replicaID)
          (sys.nodes c.replicaID).replica.output.generated c = true ↔
          (sys.nodes c.replicaID).replica.OwnGenerated (net.params c.replicaID) c := by
        simp only [Node.hasGenerated, List.any_eq_true, Bool.and_eq_true, beq_iff_eq,
          Output.mem_certified]
        rfl
      simp only [Bool.or_eq_true, decide_eq_true_eq, beq_iff_eq, Bool.not_eq_true', hgen, Genuine,
        UIValid]
      by_cases hc : c.replicaID ∈ net.correct <;> by_cases hz : c.counter = 0 <;>
        cases hu : c.uiAccepted net.crypto <;> simp [hc, hz]
  | reqViewChange rvc =>
      have hsigned : hasSigned (sys.nodes rvc.replicaID).replica.output.generated rvc = true ↔
          ∃ g, .reqViewChange g ∈ (sys.nodes rvc.replicaID).replica.output.generated ∧
            g.newView = rvc.newView := by
        rw [hasSigned, List.any_eq_true]
        constructor
        · rintro ⟨g, hg, heq⟩
          split at heq
          · exact ⟨_, hg, beq_iff_eq.mp heq⟩
          · cases heq
        · rintro ⟨g, hg, heq⟩
          exact ⟨_, hg, beq_iff_eq.mpr heq⟩
      simp only [Bool.or_eq_true, decide_eq_true_eq, Bool.not_eq_true', hsigned, Genuine]
      by_cases hc : rvc.replicaID ∈ net.correct <;>
        cases ht : net.crypto.verifyMessageAuthenTag .replicaAuthen rvc.replicaID rvc.authenBytes
          rvc.signature <;> simp [hc]
  | _ => exact iff_of_true rfl trivial

structure Clean (net : Network) (sys : System) (s : Node) : Prop where
  sources : Replica.Sources (Genuine net sys) s.replica
  threads : ∀ t ∈ s.threads, Hereditarily (Genuine net sys) t.message
  handled : ∀ m ∈ s.replica.handled, Hereditarily (Genuine net sys) m

namespace Clean

variable {s s' : Node}

theorem mono (hgrows : Grows sys sys') (h : Clean net sys s) : Clean net sys' s :=
  ⟨h.sources.mono fun _ => Genuine.mono hgrows, fun t ht => (h.threads t ht).mono fun _ =>
    Genuine.mono hgrows, fun m hm => (h.handled m hm).mono fun _ => Genuine.mono hgrows⟩

/-- What is about to be processed comes from a goroutine or from the replica itself. -/
theorem processing {p : Params} (h : Clean net sys s) (hlinked : Node.Linked p s)
    (hproc : s.processing l = some m) : Hereditarily (Genuine net sys) m := by
  rcases Node.processing_cases hproc with ⟨t, ht, tasks, htasks⟩ | ⟨tasks, htasks⟩
  · have hm := (hlinked.threads t ht).nested (.process m) (htasks ▸ List.mem_cons_self)
    exact (h.threads t ht).of_nested hm
  · obtain ⟨g, hg, hm⟩ := hlinked.own (.process m) (htasks ▸ List.mem_cons_self)
    exact (h.sources.generated g hg).of_nested hm

theorem step (h : Clean net sys s) (hlinked : Node.Linked (net.params i) s)
    (hnode : sys'.nodes i = s') (hgrows : Grows sys sys')
    (hadmitted : ∀ m, l = .receive m → Hereditarily (Genuine net sys) m)
    (hstepped : Node.Stepped (net.params i) s l s') : Clean net sys' s' := by
  have hmono := h.mono hgrows
  have hthreads : ∀ t ∈ s'.threads, Hereditarily (Genuine net sys') t.message := by
    intro t ht
    rcases hstepped.message_cases ht with ⟨t₀, ht₀, heq⟩ | heq
    · rw [← heq]
      exact hmono.threads t₀ ht₀
    · exact (hadmitted _ heq).mono fun _ => Genuine.mono hgrows
  rcases hstepped.replica_cases with heq | ⟨view, -, heq⟩ | ⟨m, order, hproc, heq, -⟩
  · refine ⟨?_, hthreads, ?_⟩ <;> rw [heq]
    · exact hmono.sources
    · exact hmono.handled
  · refine ⟨?_, hthreads, ?_⟩
    · rw [heq]
      apply hmono.sources.timeout
      intro rvc hid hmem _ _
      refine ⟨rvc, ?_, rfl⟩
      rw [hid, show sys'.nodes (net.params i).id = s' from hnode, heq]
      exact hmem
    · rw [heq, Replica.handled_requestViewChange]
      exact hmono.handled
  · have htrans := @Replica.processMessage_transition (net.params i) order m s.replica
    have hm := (h.processing hlinked hproc).mono fun _ => Genuine.mono hgrows
    rw [← heq] at htrans
    refine ⟨hmono.sources.transition hm htrans ?_, hthreads, ?_⟩
    · intro g hg hmade
      obtain ⟨c, rfl, hid⟩ := hmade.replicaID
      intro _ _
      refine ⟨c, ?_, rfl, rfl⟩
      rw [hid, show sys'.nodes (net.params i).id = s' from hnode]
      exact hg
    · intro x hx
      rcases htrans.handled_cases with heq | ⟨heq, -, -⟩
      · exact hmono.handled x (heq ▸ hx)
      · rcases List.mem_append.mp (heq ▸ hx) with hx | hx
        · exact hmono.handled x hx
        · cases List.mem_singleton.mp hx
          exact hm

end Clean

/-- A step changes one node and makes it generate more. -/
theorem step_grows (h : sys.step net i l = some sys') : Grows sys sys' := by
  obtain ⟨-, -, s, hs, hnodes⟩ := step_cases h
  obtain ⟨-, hstepped, -⟩ := Node.step_cases hs
  intro j
  rw [hnodes]
  by_cases hj : j = i
  · subst hj
    rw [Function.update_self]
    rcases hstepped.replica_cases with heq | ⟨view, -, heq⟩ | ⟨m, order, -, heq, -⟩
    · rw [heq]
    · have hsteps := @Replica.requestViewChange_steps (net.params j) (view + 1)
        (sys.nodes j).replica
      rw [heq]
      exact hsteps.generated_prefix
    · have htrans := @Replica.processMessage_transition (net.params j) order m
        (sys.nodes j).replica
      rw [heq]
      exact htrans.output_steps.generated_prefix
  · rw [Function.update_of_ne hj]

theorem Reachable.clean (h : Reachable net C sys) (j : UInt32) :
    Clean net sys (sys.nodes j) := by
  induction h generalizing j with
  | init =>
      refine ⟨⟨?_, ?_, ?_, Requests.holding_init, List.suffix_refl _⟩, ?_, ?_⟩ <;>
        exact fun _ hx => absurd hx List.not_mem_nil
  | @step sys sys' i l hreach hstep _ ih =>
      have hgrows := step_grows hstep
      obtain ⟨-, hadmitted, s, hs, hnodes⟩ := step_cases hstep
      by_cases hj : j = i
      · subst hj
        rw [hnodes, Function.update_self]
        refine (ih j).step (hreach.node j).linked.2 (by rw [hnodes, Function.update_self]) hgrows
          ?_ (Node.step_cases hs).2.1
        rintro m rfl
        exact authentic_iff.mp hadmitted
      · rw [hnodes, Function.update_of_ne hj]
        exact (ih j).mono hgrows

/-- What correct replicas send may be delivered. -/
theorem Reachable.authentic (h : Reachable net C sys) {j : UInt32} {g : Message}
    (hg : g ∈ (sys.nodes j).replica.output.generated) : sys.authentic net g = true :=
  authentic_iff.mpr ((h.clean j).sources.generated g hg)

end System

end MinBFT
