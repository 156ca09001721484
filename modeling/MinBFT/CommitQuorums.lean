import MinBFT.InOrder
import MinBFT.Views

/-!
# Who is behind an executed proposal

The commitment counter keeps one counter value for each replica but forgets whose it is, and the
acceptor lets a replica enter a view with a commitment to any NewView for it. As long as all
NewViews committed to in one view have the same counter, a proposal is executed only when enough
replicas have committed to it. A primary that issues two NewViews for its view can have commitments
to the second counted for the first.
-/

namespace MinBFT

namespace Commitments

/-- Enough replicas have had a commitment to exactly this proposal accepted. -/
def Backed (config : Config) (sha256 : Bytes → Bytes) (c : Commitments) (prop : CertifiedMessage) :
    Prop :=
  ∃ Q : Finset UInt32, config.commitCertSize.toNat ≤ Q.card ∧
    ∀ r ∈ Q, ∃ x ∈ c.accepted, x.replicaID = r ∧ SameAuthen sha256 x.proposed prop

def Consistent (m : CertifiedMessage) (c : Commitments) : Prop :=
  m.proposed.kind = .newView → ∀ x ∈ c.accepted, x.proposed.kind = .newView →
    x.messageView = m.messageView → x.proposed.counter = m.proposed.counter

instance (m : CertifiedMessage) (c : Commitments) : Decidable (c.Consistent m) :=
  inferInstanceAs (Decidable (_ → ∀ x ∈ c.accepted, _ → _ → _))

variable {n : UInt32} {k : ℕ} {m : CertifiedMessage} {w : UInt64} {c c' : Commitments}
  {done : Bool}

theorem Recorded.aligned (h : Recorded m w c done c') (hc : c.Consistent m)
    (ha : ∀ v, c.Aligned v) (v : UInt64) : c'.Aligned v := by
  have hmem : ∀ x ∈ c'.accepted, x ∈ c.accepted ∨ x = m := by
    intro x hx
    rw [h.accepted] at hx
    simpa using hx
  rintro r r' _ _ ⟨x, hx, rfl, hkind, hview, rfl⟩ ⟨x', hx', rfl, hkind', hview', rfl⟩
  rcases hmem x hx with hx | rfl
  · rcases hmem x' hx' with hx' | rfl
    · exact ha v _ _ _ _ ⟨x, hx, rfl, hkind, hview, rfl⟩ ⟨x', hx', rfl, hkind', hview', rfl⟩
    · exact hc hkind' x hx hkind (hview.trans hview'.symm)
  · rcases hmem x' hx' with hx' | rfl
    · exact (hc hkind x' hx' hkind' (hview'.trans hview.symm)).symm
    · rfl

theorem Recorded.committers_subset (h : Recorded m w c done c') (hview : m.messageView = some w)
    (v x : UInt64) : c.committers n v x ⊆ c'.committers n v x := by
  intro r hr
  rw [mem_committers] at hr ⊢
  exact ⟨hr.1, (h.commits_iff hview r v x).mpr (.inl hr.2)⟩

/-- What is completed has been proposed by somebody's commitment, and enough replicas have committed
to a proposal with its view and counter. -/
structure Sound (n : UInt32) (k : ℕ) (c : Commitments) : Prop where
  aligned : ∀ v, c.Aligned v
  proposed : ∀ q ∈ c.completed, ∃ x ∈ c.accepted, x.proposed = q
  quorum : ∀ q ∈ c.completed, ∃ v, q.messageView = some v ∧
    k ≤ (c.committers n v q.counter).card

theorem messageView_proposed (m : CertifiedMessage) (hview : m.messageView = some w) :
    m.proposed.messageView = some w := by
  cases m with
  | commit m =>
      unfold CertifiedMessage.messageView at hview ⊢
      rw [CertifiedMessage.proposed] at hview ⊢
      cases hprop : m.proposal with
      | commit _ =>
          rw [hprop] at hview
          cases hview
      | _ =>
          rw [hprop] at hview
          exact hview
  | _ => exact hview

theorem Sound.record (h : Sound n k c) (ht : Tracks n k c w) (hid : m.replicaID < n)
    (hview : m.messageView = some w) (hcv : m.proposed.counter ≠ 0) (hc : c.Consistent m)
    (hrec : Recorded m w c done c') : Sound n k c' := by
  have haligned := hrec.aligned hc h.aligned
  have hmem : ∀ q ∈ c'.completed, q ∈ c.completed ∨ done = true ∧ q = m.proposed := by
    intro q hq
    rw [hrec.completed] at hq
    split_ifs at hq with hdone
    · rcases List.mem_append.mp hq with hq | hq
      · exact .inl hq
      · exact .inr ⟨hdone, List.mem_singleton.mp hq⟩
    · exact .inl hq
  refine ⟨haligned, fun q hq => ?_, fun q hq => ?_⟩
  · rcases hmem q hq with hq | ⟨-, rfl⟩
    · obtain ⟨x, hx, heq⟩ := h.proposed q hq
      exact ⟨x, hrec.accepted ▸ List.mem_append_left _ hx, heq⟩
    · exact ⟨m, hrec.accepted ▸ List.mem_append_right _ List.mem_cons_self, rfl⟩
  · rcases hmem q hq with hq | ⟨hdone, rfl⟩
    · obtain ⟨v, hv, hcard⟩ := h.quorum q hq
      exact ⟨v, hv, hcard.trans (Finset.card_le_card (hrec.committers_subset hview v _))⟩
    · exact ⟨w, messageView_proposed m hview,
        (ht.done_iff hid hview hcv hrec (haligned w)).mp hdone⟩

end Commitments

namespace Replica

variable {p : Params} {s : Replica}

/-- A commitment to a NewView that is next in sequence agrees with those accepted before. -/
def Unequivocal (s : Replica) : Message → Prop
  | .certified c => s.Next c → s.execution.commitments.Consistent c
  | _ => True

instance (s : Replica) : (m : Message) → Decidable (s.Unequivocal m)
  | .certified c => inferInstanceAs (Decidable (s.Next c → s.execution.commitments.Consistent c))
  | .hello _ => .isTrue trivial
  | .request _ => .isTrue trivial
  | .reply _ => .isTrue trivial
  | .reqViewChange _ => .isTrue trivial

theorem Run.soundCommitments {C : Replica → Message → Prop} (hid : p.id < p.config.n)
    (htol : p.config.Tolerant) (hC : ∀ s m, C s m → s.Unequivocal m) (h : s.Run p C) :
    s.execution.commitments.Sound p.config.n p.config.commitCertSize.toNat := by
  induction h with
  | init =>
      refine ⟨?_, fun _ hq => absurd hq List.not_mem_nil, fun _ hq => absurd hq List.not_mem_nil⟩
      rintro v r r' x x' ⟨m, hm, -⟩
      exact absurd hm List.not_mem_nil
  | @process s s' m order hrun hadmits hcond htrans _ ih =>
      rcases htrans.commitments_cases with heq | ⟨c, done, rfl, happ, -, hrec⟩
      · rw [heq]
        exact ih
      · have hwf := hrun.admitted hid hadmits
        have ht := hrun.tracks hid htol
        exact ih.record ht hwf.self.1 happ.messageView hwf.proposed_counter_ne
          (hC _ _ hcond happ.next) (Commitments.recorded ht.bound hrec)
  | timeout _ _ _ ih => simpa using ih

/-- With unique UIs, the proposals of one view with one counter are the same. -/
theorem Run.backed {C : Replica → Message → Prop} (hid : p.id < p.config.n)
    (htol : p.config.Tolerant) (huniq : UniqueUI p.crypto)
    (hC : ∀ s m, C s m → s.Unequivocal m) (h : s.Run p C) {prop : CertifiedMessage}
    (hprop : prop ∈ s.execution.commitments.completed) :
    s.execution.commitments.Backed p.config p.crypto.sha256 prop := by
  have hsound := h.soundCommitments hid htol hC
  have hwf := h.accepted_wellFormed hid htol
  obtain ⟨v, hview, hcard⟩ := hsound.quorum prop hprop
  obtain ⟨m, hm, rfl⟩ := hsound.proposed prop hprop
  have hmview : m.messageView = some v := by
    obtain ⟨w, -, hw⟩ := (h.tracks hid htol).accepted m hm
    rw [← hview, Commitments.messageView_proposed m hw, hw]
  refine ⟨_, hcard, fun r hr => ?_⟩
  obtain ⟨-, x, hx, hxid, hxview, hxcv⟩ := Commitments.mem_committers.mp hr
  refine ⟨x, hx, hxid, huniq.sameAuthen (hwf x hx).proposed.self.2.1 (hwf m hm).proposed.self.2.1
    ?_ hxcv⟩
  exact isPrimary_unique ((hwf x hx).isPrimary_proposed hxview)
    ((hwf m hm).isPrimary_proposed hmview)

end Replica

/-- As long as commitments to NewViews agree, every proposal that is executed or accepted has been
committed to by enough replicas. -/
theorem Node.backed_of_unequivocal {p : Params} {s : Node} {prop : CertifiedMessage}
    (hid : p.id < p.config.n) (htol : p.config.Tolerant) (huniq : UniqueUI p.crypto)
    (h : s.Reachable p Replica.Unequivocal)
    (hprop : prop ∈ s.replica.execution.commitments.completed) :
    s.replica.execution.commitments.Backed p.config p.crypto.sha256 prop :=
  h.run.backed hid htol huniq (fun _ _ hc => hc) hprop

namespace Concrete

theorem backed_after_commit : ∃ (s : Node) (prop : CertifiedMessage),
    s.Reachable backupParams Replica.Unequivocal ∧
      prop ∈ s.replica.execution.commitments.completed ∧
      s.replica.execution.commitments.Backed backupParams.config backupParams.crypto.sha256
        prop := by
  have h : ((Node.init backupParams).exec backupParams (fun r m => decide (r.Unequivocal m))
      (handling 0 (.certified proposal) ++ handling 1 (.certified (commit 2 proposal 1)))).any
      (fun s => !s.replica.execution.commitments.completed.isEmpty) = true := by
    decide +kernel
  obtain ⟨s, hreach, hs⟩ := Node.exists_reachable backupParams
    (fun _ _ => of_decide_eq_true) h
  obtain ⟨prop, hprop⟩ := List.exists_mem_of_ne_nil _ (by simpa using hs)
  exact ⟨s, prop, hreach, hprop, Node.backed_of_unequivocal (by decide)
    (by unfold Config.Tolerant; decide) (uniqueUI_ledgerCrypto (by decide +kernel)) hreach hprop⟩

def idleViewChange (replicaID : UInt32) : ViewChange := viewChange replicaID 1 [] [1, 2, 3, 4] 1

def firstNewView : NewView := newView 1 1 ([1, 2, 3, 4].map idleViewChange) 2

def secondNewView : NewView := newView 1 1 ([1, 2, 3, 4].map idleViewChange) 3

def equivocalNetwork : Network :=
  ⟨⟨7, 3⟩, ledgerCrypto ([1, 2, 3, 4, 5].map (fun r => .viewChange (idleViewChange r)) ++
    [.newView firstNewView, .newView secondNewView, commit 2 (.newView secondNewView) 2,
      commit 3 (.newView secondNewView) 2, commit 4 (.newView firstNewView) 2,
      commit 5 (.newView firstNewView) 2]), {0, 4, 5, 6}⟩

theorem equivocalNetwork_admissible : equivocalNetwork.Admissible where
  tolerant := by
    unfold Config.Tolerant
    decide
  sha256 := injective_sha256_ledgerCrypto _
  uniqueUI := uniqueUI_ledgerCrypto (by decide +kernel)
  replicas := by decide +kernel
  faulty := by decide +kernel

/-- The two faulty backups commit to the second NewView, replicas 4 and 5 to the first. -/
def equivocation : List (UInt32 × Label) :=
  (handling 0 (.request (request 0 1)) ++ [Label.timeout 0] ++
    ownHandling (.reqViewChange (reqViewChange 4 1)) ++
    handling 1 (.reqViewChange (reqViewChange 1 1)) ++
    handling 2 (.reqViewChange (reqViewChange 2 1)) ++
    handling 3 (.reqViewChange (reqViewChange 3 1)) ++
    ownHandling (.certified (.viewChange (idleViewChange 4)))).map (4, ·) ++
  (handling 0 (.reqViewChange (reqViewChange 1 1)) ++
    handling 1 (.reqViewChange (reqViewChange 2 1)) ++
    handling 2 (.reqViewChange (reqViewChange 3 1)) ++
    handling 3 (.reqViewChange (reqViewChange 4 1)) ++
    handling 4 (.certified (.newView firstNewView))).map (5, ·) ++
  (handling 4 (.certified (.newView firstNewView)) ++
    handling 5 (.certified (commit 2 (.newView secondNewView) 2)) ++
    handling 6 (.certified (commit 3 (.newView secondNewView) 2)) ++
    ownHandling (.certified (commit 4 (.newView firstNewView) 2)) ++
    handling 7 (.certified (.viewChange (idleViewChange 5))) ++
    handling 8 (.certified (commit 5 (.newView firstNewView) 2))).map (4, ·)

def backing (c : Commitments) (cv : UInt64) : List CertifiedMessage :=
  c.accepted.filter (·.proposed.counter == cv)

theorem not_backed {config : Config} {sha256 : Bytes → Bytes} {c : Commitments}
    {prop : CertifiedMessage}
    (h : (backing c prop.counter).length < config.commitCertSize.toNat) :
    ¬ c.Backed config sha256 prop := by
  rintro ⟨Q, hcard, hQ⟩
  have hsub : Q ⊆ ((backing c prop.counter).map (·.replicaID)).toFinset := by
    intro r hr
    obtain ⟨x, hx, hid, hsame⟩ := hQ r hr
    exact List.mem_toFinset.mpr (List.mem_map.mpr
      ⟨x, List.mem_filter.mpr ⟨hx, beq_iff_eq.mpr hsame.counter⟩, hid⟩)
  have hle := (Finset.card_le_card hsub).trans (List.toFinset_card_le _)
  rw [List.length_map] at hle
  exact absurd (hcard.trans hle) (Nat.not_le.mpr h)

theorem completed_without_quorum : equivocalNetwork.Admissible ∧
    ∃ sys, System.Reachable equivocalNetwork (fun _ _ _ => True) sys ∧
      ∃ i ∈ equivocalNetwork.correct,
        ∃ prop ∈ (sys.nodes i).replica.execution.commitments.completed,
          ¬ (sys.nodes i).replica.execution.commitments.Backed equivocalNetwork.config
            equivocalNetwork.crypto.sha256 prop := by
  refine ⟨equivocalNetwork_admissible, ?_⟩
  have h : ((System.init equivocalNetwork).exec equivocalNetwork (fun _ _ _ => true)
      equivocation).any (fun sys => (sys.nodes 4).replica.execution.commitments.completed.any
        fun prop => decide ((backing (sys.nodes 4).replica.execution.commitments
          prop.counter).length < equivocalNetwork.config.commitCertSize.toNat)) = true := by
    decide +kernel
  obtain ⟨sys, hreach, hsys⟩ := System.exists_reachable (fun _ _ _ _ => trivial) h
  obtain ⟨prop, hprop, hlt⟩ := List.any_eq_true.mp hsys
  exact ⟨sys, hreach, 4, by decide, prop, hprop, not_backed (of_decide_eq_true hlt)⟩

end Concrete

end MinBFT
