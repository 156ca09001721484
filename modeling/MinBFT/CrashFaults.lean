import MinBFT.Ledger
import MinBFT.Quorums

/-!
# Extraction preserves what was committed

A `CrashHistory` is what replicas leave behind when they may stop or lag but otherwise follow the
protocol: one proposal sequence for each view, and for each replica a message log that commits it to
the beginning of that sequence. Whatever new-view certificate is built from such a history, the
requests extracted from it start with the requests of every proposal prefix that a commit quorum
has committed to in an earlier view.
-/

namespace MinBFT

def IsPrepareIn (config : Config) (view : UInt64) (m : CertifiedMessage) : Prop :=
  ∃ p, m = .prepare p ∧ p.view = view ∧ isPrimary view p.replicaID config.n = true

/-- The message by which replica `r` commits to a proposal: the proposal itself when it is its own,
a Commit otherwise. -/
def CommitsTo (r : UInt32) (proposal m : CertifiedMessage) : Prop :=
  if proposal.replicaID = r then m = proposal else ∃ ui, m = .commit ⟨r, proposal, ui⟩

structure IsNewViewCert (config : Config) (viewChange : UInt32 → UInt64 → Option ViewChange)
    (view : UInt64) (cert : List ViewChange) : Prop where
  length : cert.length = config.viewChangeCertSize.toNat
  nodup : (cert.map (·.replicaID)).Nodup
  issued : ∀ vc ∈ cert, viewChange vc.replicaID view = some vc

structure CrashHistory (config : Config) where
  /-- The proposals the primary of a view issues, in order. -/
  proposals : UInt64 → List CertifiedMessage
  /-- The number of the view's proposals a replica has committed to. -/
  committed : UInt32 → UInt64 → ℕ
  /-- What a replica has logged in a view. -/
  viewLog : UInt32 → UInt64 → List CertifiedMessage
  /-- The ViewChange by which a replica has entered a view. -/
  viewChange : UInt32 → UInt64 → Option ViewChange
  proposals_zero : ∀ m ∈ proposals 0, IsPrepareIn config 0 m
  proposals_pos : ∀ w, w ≠ 0 → proposals w = [] ∨ ∃ nv ps, proposals w = .newView nv :: ps ∧
    nv.newView = w ∧ isPrimary w nv.replicaID config.n = true ∧
    (∀ m ∈ ps, IsPrepareIn config w m) ∧
    IsNewViewCert config viewChange w nv.newViewCert ∧
    nv.replicaID ∈ nv.newViewCert.map (·.replicaID)
  committed_le : ∀ r w, committed r w ≤ (proposals w).length
  viewLog_zero : ∀ r, List.Forall₂ (CommitsTo r) ((proposals 0).take (committed r 0)) (viewLog r 0)
  viewLog_pos : ∀ r w vc, w ≠ 0 → viewChange r w = some vc →
    ∃ cs, List.Forall₂ (CommitsTo r) ((proposals w).take (committed r w)) cs ∧
      viewLog r w = if isPrimary w r config.n = true ∧ cs ≠ [] then cs
        else .viewChange vc :: cs
  viewChange_spec : ∀ r v vc, viewChange r v = some vc → v ≠ 0 ∧ vc.replicaID = r ∧
    r < config.n ∧ vc.newView = v ∧ vc.messageLog = viewLog r (v - 1) ∧
    (v - 1 ≠ 0 → (viewChange r (v - 1)).isSome)

namespace CrashHistory

variable {config : Config} (H : CrashHistory config)

theorem proposed_of_mem_proposals {w : UInt64} {m : CertifiedMessage}
    (h : m ∈ H.proposals w) : m.proposed = m := by
  by_cases hw : w = 0
  · subst hw
    obtain ⟨p, rfl, -⟩ := H.proposals_zero m h
    rfl
  · rcases H.proposals_pos w hw with hnil | ⟨nv, ps, heq, -, -, hps, -⟩
    · rw [hnil] at h
      cases h
    · rw [heq] at h
      rcases List.mem_cons.mp h with rfl | h
      · rfl
      · obtain ⟨p, rfl, -⟩ := hps m h
        rfl

theorem map_proposed_take (w : UInt64) (k : ℕ) :
    ((H.proposals w).take k).map CertifiedMessage.proposed = (H.proposals w).take k := by
  conv_rhs => rw [← List.map_id ((H.proposals w).take k)]
  apply List.map_congr_left
  exact fun m hm => H.proposed_of_mem_proposals (List.mem_of_mem_take hm)

/-- Commitments stand for the proposals they commit to. -/
theorem map_proposed_commitments {r : UInt32} {ps cs : List CertifiedMessage}
    (h : List.Forall₂ (CommitsTo r) ps cs) (hps : ∀ m ∈ ps, m.proposed = m) :
    cs.map CertifiedMessage.proposed = ps := by
  induction h with
  | nil => rfl
  | @cons p m ps cs hm _ ih =>
      rw [List.map_cons, ih fun x hx => hps x (.tail p hx)]
      congr 1
      unfold CommitsTo at hm
      split_ifs at hm
      · rw [hm]
        exact hps p List.mem_cons_self
      · obtain ⟨ui, rfl⟩ := hm
        rfl

theorem ne_viewChange_of_mem_proposals {w : UInt64} {m : CertifiedMessage}
    (h : m ∈ H.proposals w) (vc : ViewChange) : m ≠ .viewChange vc := by
  rintro rfl
  by_cases hw : w = 0
  · subst hw
    obtain ⟨p, hp, -⟩ := H.proposals_zero _ h
    cases hp
  · rcases H.proposals_pos w hw with hnil | ⟨nv, ps, heq, -, -, hps, -⟩
    · rw [hnil] at h
      cases h
    · rw [heq] at h
      rcases List.mem_cons.mp h with h | h
      · cases h
      · obtain ⟨p, hp, -⟩ := hps _ h
        cases hp

theorem leading_commitments {r : UInt32} {w : UInt64} {k : ℕ} {cs : List CertifiedMessage}
    (h : List.Forall₂ (CommitsTo r) ((H.proposals w).take k) cs) :
    leadingViewChange cs = none ∧ withoutLeading cs = cs := by
  cases cs with
  | nil => exact ⟨rfl, rfl⟩
  | cons m cs =>
      obtain ⟨p, ps, hm, -, heq⟩ := List.forall₂_cons_right_iff.mp h
      have hp : p ∈ H.proposals w := List.mem_of_mem_take (heq ▸ List.mem_cons_self)
      cases m with
      | viewChange vc =>
          unfold CommitsTo at hm
          split_ifs at hm
          · exact absurd hm.symm (H.ne_viewChange_of_mem_proposals hp vc)
          · obtain ⟨ui, hui⟩ := hm
            cases hui
      | _ => exact ⟨rfl, rfl⟩

/-- What the log in a ViewChange for `v` consists of: commitments to the first proposals of the
view before, after the ViewChange for that view unless commitments make it redundant. -/
theorem messageLog_spec {r : UInt32} {v : UInt64} {vc : ViewChange}
    (h : H.viewChange r v = some vc) :
    (withoutLeading vc.messageLog).map CertifiedMessage.proposed =
        (H.proposals (v - 1)).take (H.committed r (v - 1)) ∧
      (withoutLeading vc.messageLog = [] →
        leadingViewChange vc.messageLog = if v - 1 = 0 then none else H.viewChange r (v - 1)) := by
  obtain ⟨-, -, -, -, hlog, hprev⟩ := H.viewChange_spec r v vc h
  have hmap {cs : List CertifiedMessage} (hcs : List.Forall₂ (CommitsTo r)
      ((H.proposals (v - 1)).take (H.committed r (v - 1))) cs) :=
    map_proposed_commitments hcs fun m hm =>
      H.proposed_of_mem_proposals (List.mem_of_mem_take hm)
  rw [hlog]
  by_cases hw : v - 1 = 0
  · have hcs := H.viewLog_zero r
    rw [← hw] at hcs
    rw [if_pos hw]
    obtain ⟨hlead, hwithout⟩ := H.leading_commitments hcs
    rw [hwithout, hlead]
    exact ⟨hmap hcs, fun _ => rfl⟩
  · rw [if_neg hw]
    obtain ⟨vc', hvc'⟩ := Option.isSome_iff_exists.mp (hprev hw)
    obtain ⟨cs, hcs, heq⟩ := H.viewLog_pos r (v - 1) vc' hw hvc'
    rw [heq]
    split_ifs with hown
    · obtain ⟨-, hwithout⟩ := H.leading_commitments hcs
      rw [hwithout]
      exact ⟨hmap hcs, fun hnil => absurd hnil hown.2⟩
    · exact ⟨hmap hcs, fun _ => hvc'.symm⟩

theorem prepare_of_mem_drop {w : UInt64} {j : ℕ} (hj : 0 < j) {m : CertifiedMessage}
    (h : m ∈ (H.proposals w).drop j) : ∃ p, m.proposed = .prepare p := by
  by_cases hw : w = 0
  · subst hw
    obtain ⟨p, rfl, -⟩ := H.proposals_zero m (List.mem_of_mem_drop h)
    exact ⟨p, rfl⟩
  · rcases H.proposals_pos w hw with hnil | ⟨nv, ps, heq, -, -, hps, -⟩
    · rw [hnil, List.drop_nil] at h
      cases h
    · obtain ⟨i, rfl⟩ := Nat.exists_eq_add_of_lt hj
      rw [heq, Nat.zero_add, List.drop_succ_cons] at h
      obtain ⟨p, rfl, -⟩ := hps m (List.mem_of_mem_drop h)
      exact ⟨p, rfl⟩

/-- Beyond the first proposal of a view all are Prepares, so replaying more of them only adds
requests at the end. -/
theorem replay_take_prefix {w : UInt64} {j k : ℕ} (hjk : j ≤ k) {hist hist' : List Request}
    (hj : replay ((H.proposals w).take j) = some hist)
    (hk : replay ((H.proposals w).take k) = some hist') : hist <+: hist' := by
  rcases Nat.eq_zero_or_pos j with rfl | hpos
  · cases hj
    exact List.nil_prefix
  · obtain ⟨i, rfl⟩ := Nat.exists_eq_add_of_le hjk
    have hrest : ∀ m ∈ ((H.proposals w).drop j).take i, ∃ p, m.proposed = .prepare p :=
      fun m hm => H.prepare_of_mem_drop hpos (List.mem_of_mem_take hm)
    rw [List.take_add, replay_append, hj, Option.bind_some,
      foldlM_replayStep_prepares hrest] at hk
    exact ⟨_, Option.some.inj hk⟩

/-- A commit quorum of replicas has committed to the first `j` proposals of view `w`. -/
def QuorumCommitted (w : UInt64) (j : ℕ) : Prop :=
  ∃ Q ⊆ replicas config.n, config.commitCertSize.toNat ≤ Q.card ∧ ∀ r ∈ Q, j ≤ H.committed r w

def Preserves (v : UInt64) (cert : List ViewChange) : Prop :=
  ∃ prepared, extractPreparedRequests cert = some prepared ∧
    ∀ w < v, ∀ j, H.QuorumCommitted w j →
      ∃ hist, replay ((H.proposals w).take j) = some hist ∧ hist <+: prepared

variable {H}

theorem exists_mem_cert (ht : config.Tolerant) {v w : UInt64} {j : ℕ} {cert : List ViewChange}
    (hcert : IsNewViewCert config H.viewChange v cert) (hq : H.QuorumCommitted w j) :
    ∃ vc ∈ cert, j ≤ H.committed vc.replicaID w := by
  obtain ⟨Q, hQ, hcard, hj⟩ := hq
  have hids : ∀ r ∈ cert.map (·.replicaID), r < config.n := by
    intro r hr
    obtain ⟨vc, hvc, rfl⟩ := List.mem_map.mp hr
    obtain ⟨-, -, hlt, -⟩ := H.viewChange_spec _ _ _ (hcert.issued vc hvc)
    exact hlt
  obtain ⟨r, hr, hrQ⟩ := Config.exists_mem_quorum ht hQ hcard hids hcert.nodup
    (by rw [List.length_map, hcert.length])
  obtain ⟨vc, hvc, rfl⟩ := List.mem_map.mp hr
  exact ⟨vc, hvc, hj _ hrQ⟩

/-- A view's own history extends what the certificate of its NewView preserves. -/
theorem replay_take {w : UInt64}
    (hpres : w ≠ 0 → ∀ cert, IsNewViewCert config H.viewChange w cert → H.Preserves w cert)
    (k : ℕ) : ∃ hist, replay ((H.proposals w).take k) = some hist ∧
      ((H.proposals w).take k ≠ [] → ∀ w' < w, ∀ j, H.QuorumCommitted w' j →
        ∃ old, replay ((H.proposals w').take j) = some old ∧ old <+: hist) := by
  by_cases hw : w = 0
  · subst hw
    refine ⟨_, replay_prepares ?_, fun _ w' hw' => absurd hw' UInt64.not_lt_zero⟩
    intro m hm
    obtain ⟨p, rfl, -⟩ := H.proposals_zero m (List.mem_of_mem_take hm)
    exact ⟨p, rfl⟩
  · rcases H.proposals_pos w hw with hnil | ⟨nv, ps, heq, -, -, hps, hcert, -⟩
    · rw [hnil, List.take_nil]
      exact ⟨[], rfl, fun h => absurd rfl h⟩
    · cases k with
      | zero => exact ⟨[], rfl, fun h => absurd rfl h⟩
      | succ k =>
          obtain ⟨prepared, hextract, hold⟩ := hpres hw nv.newViewCert hcert
          have hprepares : ∀ m ∈ ps.take k, ∃ p, m.proposed = .prepare p := by
            intro m hm
            obtain ⟨p, rfl, -⟩ := hps m (List.mem_of_mem_take hm)
            exact ⟨p, rfl⟩
          rw [heq, List.take_succ_cons, replay_newView_cons rfl hprepares, hextract]
          refine ⟨_, rfl, fun _ w' hw' j hj => ?_⟩
          obtain ⟨old, hrep, hpre⟩ := hold w' hw' j hj
          exact ⟨old, hrep, hpre.trans (List.prefix_append _ _)⟩

/-- Some replica in the certificate has committed to a proposal of the view before: the longest log
carries the longest history of that view. -/
theorem preserves_of_maxLog_ne_nil (ht : config.Tolerant) {v : UInt64} {cert : List ViewChange}
    (hcert : IsNewViewCert config H.viewChange v cert)
    (hpres : v - 1 ≠ 0 →
      ∀ cert, IsNewViewCert config H.viewChange (v - 1) cert → H.Preserves (v - 1) cert)
    (hmax : (scanCert cert).2 ≠ []) : H.Preserves v cert := by
  obtain ⟨vc, hvc, heq⟩ := (maxLog_mem cert).resolve_left hmax
  obtain ⟨hmap, -⟩ := H.messageLog_spec (hcert.issued vc hvc)
  rw [← heq] at hmap
  obtain ⟨hist, hhist, hold⟩ := replay_take hpres (H.committed vc.replicaID (v - 1))
  refine ⟨hist, ?_, ?_⟩
  · rw [extract_of_maxLog_ne_nil hmax, ← hhist]
    exact replay_congr (hmap.trans (H.map_proposed_take _ _).symm)
  · intro w hw j hj
    rcases UInt64.lt_or_eq_pred hw with hw | rfl
    · refine hold ?_ w hw j hj
      rw [← hmap, ne_eq, List.map_eq_nil_iff]
      exact hmax
    · obtain ⟨vc', hvc', hle⟩ := exists_mem_cert ht hcert hj
      obtain ⟨old, hrep, -⟩ := replay_take hpres j
      refine ⟨old, hrep, H.replay_take_prefix ?_ hrep hhist⟩
      have hlen {vc : ViewChange} (h : vc ∈ cert) :
          (withoutLeading vc.messageLog).length = H.committed vc.replicaID (v - 1) := by
        rw [← List.length_map CertifiedMessage.proposed,
          (H.messageLog_spec (hcert.issued vc h)).1, List.length_take]
        exact min_eq_left (H.committed_le _ _)
      calc j ≤ H.committed vc'.replicaID (v - 1) := hle
        _ = (withoutLeading vc'.messageLog).length := (hlen hvc').symm
        _ ≤ (scanCert cert).2.length := length_le_maxLog hvc'
        _ = H.committed vc.replicaID (v - 1) := by rw [heq, hlen hvc]

/-- Nobody in the certificate has committed in the view before: the ViewChanges for that view, left
in front of the empty logs, form a certificate themselves. -/
theorem leading_isNewViewCert {v : UInt64} {cert : List ViewChange}
    (hcert : IsNewViewCert config H.viewChange v cert) (hv : v - 1 ≠ 0)
    (hmax : (scanCert cert).2 = []) :
    IsNewViewCert config H.viewChange (v - 1) (scanCert cert).1 := by
  have hlead : ∀ vc ∈ cert, ∃ old, leadingViewChange vc.messageLog = some old ∧
      H.viewChange vc.replicaID (v - 1) = some old ∧ old.replicaID = vc.replicaID := by
    intro vc hvc
    have hissued := hcert.issued vc hvc
    obtain ⟨-, -, -, -, -, hprev⟩ := H.viewChange_spec _ _ _ hissued
    obtain ⟨old, hold⟩ := Option.isSome_iff_exists.mp (hprev hv)
    refine ⟨old, ?_, hold, (H.viewChange_spec _ _ _ hold).2.1⟩
    rw [(H.messageLog_spec hissued).2 (withoutLeading_eq_nil hmax hvc), if_neg hv, hold]
  have hids : (scanCert cert).1.map (·.replicaID) = cert.map (·.replicaID) :=
    map_replicaID_leading fun vc hvc =>
      let ⟨old, hold, _, hid⟩ := hlead vc hvc
      ⟨old, hold, hid⟩
  refine ⟨?_, hids ▸ hcert.nodup, ?_⟩
  · rw [← List.length_map (·.replicaID), hids, List.length_map, hcert.length]
  · intro old hold
    rw [scanCert_fst] at hold
    obtain ⟨vc, hvc, heq⟩ := List.mem_filterMap.mp hold
    obtain ⟨old', hlead', hissued, hid⟩ := hlead vc hvc
    cases hlead'.symm.trans heq
    rwa [hid]

theorem preserves_of_maxLog_nil (ht : config.Tolerant) {v : UInt64} {cert : List ViewChange}
    (hcert : IsNewViewCert config H.viewChange v cert)
    (hpres : v - 1 ≠ 0 →
      ∀ cert, IsNewViewCert config H.viewChange (v - 1) cert → H.Preserves (v - 1) cert)
    (hmax : (scanCert cert).2 = []) : H.Preserves v cert := by
  -- a quorum in the view before shares a replica with the certificate, so it committed to nothing
  have hnone : ∀ j, H.QuorumCommitted (v - 1) j → (H.proposals (v - 1)).take j = [] := by
    intro j hj
    obtain ⟨vc, hvc, hle⟩ := exists_mem_cert ht hcert hj
    have hmap := (H.messageLog_spec (hcert.issued vc hvc)).1
    rw [withoutLeading_eq_nil hmax hvc, List.map_nil] at hmap
    have hsub := List.take_prefix_take_left hle (l := H.proposals (v - 1))
    rw [← hmap] at hsub
    exact List.prefix_nil.mp hsub
  by_cases hv : v - 1 = 0
  · refine ⟨[], extract_of_empty hmax ?_, ?_⟩
    · rw [scanCert_fst, List.filterMap_eq_nil_iff]
      intro vc hvc
      rw [(H.messageLog_spec (hcert.issued vc hvc)).2 (withoutLeading_eq_nil hmax hvc), if_pos hv]
    · intro w hw j hj
      rcases UInt64.lt_or_eq_pred hw with hw | rfl
      · rw [hv] at hw
        exact absurd hw UInt64.not_lt_zero
      · rw [hnone j hj]
        exact ⟨[], rfl, List.nil_prefix⟩
  · have hleading := leading_isNewViewCert hcert hv hmax
    obtain ⟨prepared, hextract, hold⟩ := hpres hv _ hleading
    refine ⟨prepared, ?_, ?_⟩
    · rw [extract_of_maxLog_nil hmax, hextract]
      intro hnil
      have hlen := hleading.length
      rw [hnil, Config.toNat_viewChangeCertSize ht] at hlen
      simp at hlen
    · intro w hw j hj
      rcases UInt64.lt_or_eq_pred hw with hw | rfl
      · exact hold w hw j hj
      · rw [hnone j hj]
        exact ⟨[], rfl, List.nil_prefix⟩

end CrashHistory

/-- Extraction preserves everything committed when replicas only crash: the requests prepared by a
new-view certificate start with those of every proposal prefix that a commit quorum has committed to
in an earlier view, including what that view inherited through its NewView. -/
theorem extractPreparedRequests_preserves {config : Config} (ht : config.Tolerant)
    (H : CrashHistory config) (v : UInt64) (cert : List ViewChange)
    (hcert : IsNewViewCert config H.viewChange v cert) :
    ∃ prepared, extractPreparedRequests cert = some prepared ∧
      ∀ w < v, ∀ j, H.QuorumCommitted w j →
        ∃ hist, replay ((H.proposals w).take j) = some hist ∧ hist <+: prepared := by
  -- induction on the view, since certificates only nest ViewChanges for the view before
  suffices key : ∀ k v cert, v.toNat = k → IsNewViewCert config H.viewChange v cert →
      H.Preserves v cert from key _ v cert rfl hcert
  clear hcert
  intro k
  induction k with
  | zero =>
      intro v cert hv hcert
      have hlen := hcert.length
      rw [Config.toNat_viewChangeCertSize ht] at hlen
      obtain ⟨vc, hvc⟩ := List.exists_mem_of_length_pos (by omega : 0 < cert.length)
      obtain ⟨hne, -⟩ := H.viewChange_spec _ _ _ (hcert.issued vc hvc)
      exact absurd (UInt64.toNat_inj.mp hv) hne
  | succ k ih =>
      intro v cert hv hcert
      have hpred : (v - 1).toNat = k :=
        Nat.succ.inj ((UInt64.toNat_sub_one_add_one (by omega)).trans hv)
      have hpres := fun (_ : v - 1 ≠ 0) cert hcert => ih (v - 1) cert hpred hcert
      by_cases hmax : (scanCert cert).2 = []
      · exact CrashHistory.preserves_of_maxLog_nil ht hcert hpres hmax
      · exact CrashHistory.preserves_of_maxLog_ne_nil ht hcert hpres hmax

namespace Concrete

/-- The primary of the initial view has proposed a request and one backup has committed to it. -/
def crashLog (r : UInt32) : List CertifiedMessage :=
  if r = 0 then [.prepare (prepare 0 0 (request 0 1) 1)]
  else if r = 1 then [commit 1 (.prepare (prepare 0 0 (request 0 1) 1)) 1]
  else []

def crashViewChange (r : UInt32) : ViewChange :=
  viewChange r 1 (crashLog r) [1, 2] (if r = 2 then 1 else 2)

/-- Everybody then asks for the next view. -/
def crashHistory : CrashHistory ⟨3, 1⟩ where
  proposals := fun w => if w = 0 then crashLog 0 else []
  committed := fun r w => if w = 0 ∧ (r = 0 ∨ r = 1) then 1 else 0
  viewLog := fun r w => if w = 0 then crashLog r else [.viewChange (crashViewChange r)]
  viewChange := fun r v => if v = 1 ∧ r < 3 then some (crashViewChange r) else none
  proposals_zero := by
    intro m hm
    cases List.mem_singleton.mp hm
    exact ⟨_, rfl, rfl, by decide⟩
  proposals_pos := fun w hw => .inl (if_neg hw)
  committed_le := by
    intro r w
    by_cases hw : w = 0
    · subst hw
      by_cases hr : r = 0 ∨ r = 1 <;> simp [hr, crashLog]
    · simp [hw]
  viewLog_zero := by
    intro r
    by_cases h0 : r = 0
    · subst h0
      exact .cons rfl .nil
    · by_cases h1 : r = 1
      · subst h1
        exact .cons ⟨⟨1, []⟩, rfl⟩ .nil
      · simp [h0, h1, crashLog]
  viewLog_pos := by
    intro r w vc hw hvc
    split_ifs at hvc with hv
    cases hvc
    exact ⟨[], by simp [hw], by simp [hw]⟩
  viewChange_spec := by
    intro r v vc hvc
    split_ifs at hvc with hv
    cases hvc
    obtain ⟨rfl, hr⟩ := hv
    exact ⟨by decide, rfl, hr, rfl, rfl, by simp⟩

/-- A certificate without the primary still carries the request that was committed. -/
theorem extractPreparedRequests_preserves_committed : ∃ prepared,
    extractPreparedRequests [crashViewChange 1, crashViewChange 2] = some prepared ∧
      [request 0 1] <+: prepared := by
  have hcert : IsNewViewCert ⟨3, 1⟩ crashHistory.viewChange 1
      [crashViewChange 1, crashViewChange 2] := by
    refine ⟨rfl, by decide, ?_⟩
    rintro _ (_ | ⟨_, _ | ⟨_, ⟨⟩⟩⟩) <;> rfl
  have hquorum : crashHistory.QuorumCommitted 0 1 := by
    refine ⟨{0, 1}, by decide, by decide, ?_⟩
    intro r hr
    rcases Finset.mem_insert.mp hr with rfl | hr
    · decide
    · cases Finset.mem_singleton.mp hr
      decide
  obtain ⟨prepared, hextract, hpres⟩ := extractPreparedRequests_preserves
    (by unfold Config.Tolerant; decide) crashHistory 1 _ hcert
  obtain ⟨hist, hreplay, hpre⟩ := hpres 0 (by decide) 1 hquorum
  cases hreplay
  exact ⟨prepared, hextract, hpre⟩

end Concrete

end MinBFT
