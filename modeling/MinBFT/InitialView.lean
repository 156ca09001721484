import MinBFT.Delivering

/-!
# Execution in the initial view

While the initial view is expected, the Prepares accepted from its primary carry the counters from
one on. A Prepare is executed once it has enough commitments. This happens in the order of the
counters, and executing a Prepare again has no effect.
-/

namespace MinBFT

theorem isPrimary_zero {id n : UInt32} : isPrimary 0 id n = true ↔ id = 0 := by
  rw [isPrimary, beq_iff_eq, UInt64.zero_mod]
  constructor
  · intro h
    rw [← UInt32.toNat_inj]
    have := congrArg UInt64.toNat h
    simpa using this
  · rintro rfl
    rfl

def contents (ps : List Prepare) : List Content := ps.map (·.request.content)

structure Increasing (h : List Content) : Prop where
  pos : ∀ c ∈ h, 0 < c.2.1.toNat
  lt : h.Pairwise fun c c' => c.1 = c'.1 → c.2.1.toNat < c'.2.1.toNat

/-- The threshold is reported for one of the first `m` counters again, or for the next one. -/
inductive Advances (cv m : ℕ) : Bool → ℕ → Prop where
  | stays {done : Bool} (hle : done = true → cv ≤ m) : Advances cv m done m
  | next (heq : cv = m + 1) : Advances cv m true (m + 1)

/-- Acceptor and counter while the initial view is expected: `ps` are the Prepares of the primary
accepted so far, and the first `m` of them have enough commitments. -/
structure InitialCommitments (config : Config) (c : Commitments) (ps : List Prepare) (m : ℕ) :
    Prop where
  tracks : c.Tracks config.n config.commitCertSize.toNat 0
  noNewView : ∀ x ∈ c.accepted, x.proposed.kind ≠ .newView
  last : (c.lastPrimaryCVs 0).toNat = ps.length
  counters : ps.map (·.ui.counter.toNat) = List.range' 1 ps.length
  accepted : ∀ q, .prepare q ∈ c.accepted ↔ q ∈ ps
  le_length : m ≤ ps.length
  quorum : ∀ cv, config.commitCertSize.toNat ≤ (c.committers config.n 0 cv).card ↔
    1 ≤ cv.toNat ∧ cv.toNat ≤ m

/-- The requests while the initial view is expected: `ps` have been prepared, and of these the first
`m` have been executed. -/
structure InitialRequests (r : Requests) (ps : List Prepare) (m : ℕ) : Prop where
  increasing : Increasing (contents ps)
  prepared : ∀ q ∈ ps, q.request.sequence ≤ (r.clients q.request.clientID).lastPreparedSeq
  delivered : r.Delivered (contents (ps.take m))

namespace InitialCommitments

variable {config : Config} {c c' : Commitments} {ps : List Prepare} {m : ℕ}

theorem init (htol : config.Tolerant) :
    InitialCommitments config (.init config.commitCertSize) [] 0 where
  tracks := Commitments.tracks_init (Config.commitCertSize_pos htol)
  noNewView := fun _ hc => absurd hc List.not_mem_nil
  last := rfl
  counters := rfl
  accepted := fun _ => ⟨fun hq => absurd hq List.not_mem_nil, fun hq => absurd hq List.not_mem_nil⟩
  le_length := Nat.le_refl 0
  quorum := by
    intro cv
    have hempty : (Commitments.init config.commitCertSize).committers config.n 0 cv = ∅ := by
      rw [Finset.eq_empty_iff_forall_notMem]
      intro r hr
      obtain ⟨-, c, hc, -⟩ := Commitments.mem_committers.mp hr
      exact absurd hc List.not_mem_nil
    have hpos := Config.commitCertSize_pos htol
    rw [hempty, Finset.card_empty]
    omega

/-- A Prepare in the list is found at the place its counter says. -/
theorem getElem?_of_mem (h : InitialCommitments config c ps m) {q : Prepare} (hq : q ∈ ps) :
    1 ≤ q.ui.counter.toNat ∧ ps[q.ui.counter.toNat - 1]? = some q := by
  obtain ⟨i, hi, rfl⟩ := List.getElem_of_mem hq
  have hget := congrArg (·[i]?) h.counters
  simp only [List.getElem?_map, List.getElem?_eq_getElem hi, Option.map_some] at hget
  rw [List.getElem?_range' hi] at hget
  have hcv := Option.some.inj hget
  refine ⟨by omega, ?_⟩
  have : ps[i].ui.counter.toNat - 1 = i := by omega
  rw [this]
  exact List.getElem?_eq_getElem hi

/-- In the initial view, who has committed to a counter has committed to all before it. -/
theorem committers_subset (h : c.Tracks config.n config.commitCertSize.toNat 0) {y x : UInt64}
    (hy : 1 ≤ y) (hyx : y ≤ x) :
    c.committers config.n 0 x ⊆ c.committers config.n 0 y := by
  intro r hr
  obtain ⟨hlt, hx⟩ := Commitments.mem_committers.mp hr
  obtain ⟨first, hstart, -, hcommits⟩ := h.segment r
  have hzero : c.replicaViews r = 0 :=
    UInt64.le_antisymm (UInt64.le_trans (h.views r) h.bound) UInt64.zero_le
  obtain ⟨-, rfl⟩ := hstart.resolve_right fun hs => hs.1 hzero
  rw [hzero] at hcommits
  refine Commitments.mem_committers.mpr ⟨hlt, (hcommits y).mpr ⟨hy, ?_⟩⟩
  exact UInt64.le_trans hyx ((hcommits x).mp hx).2

section Record

variable {x : CertifiedMessage} {q : Prepare} {done : Bool}

/-- Counters get enough commitments one after the other. -/
theorem quorum_record (h : InitialCommitments config c ps m) (hid : x.replicaID < config.n)
    (hprop : x.proposed = .prepare q) (hview : q.view = 0) (hcv : q.ui.counter ≠ 0)
    (hrec : c.Recorded x 0 done c')
    (hnv : ∀ y ∈ c'.accepted, y.proposed.kind ≠ .newView) :
    ∃ m', Advances q.ui.counter.toNat m done m' ∧
      ∀ cv, config.commitCertSize.toNat ≤ (c'.committers config.n 0 cv).card ↔
        1 ≤ cv.toNat ∧ cv.toNat ≤ m' := by
  have hmsg : x.messageView = some 0 := hview ▸ CertifiedMessage.messageView_of_prepare hprop
  have hcounter : x.proposed.counter = q.ui.counter := by
    rw [hprop]
    rfl
  have halign : c'.Aligned 0 := by
    rintro _ _ _ _ ⟨y, hy, -, hkind, -⟩
    exact absurd hkind (hnv y hy)
  have hdone := h.tracks.done_iff hid hmsg (hcounter ▸ hcv) hrec halign
  have htracks := h.tracks.record hid hmsg (hcounter ▸ hcv) hrec
  rw [hcounter] at hdone
  have hother : ∀ cv, cv ≠ q.ui.counter →
      c'.committers config.n 0 cv = c.committers config.n 0 cv := by
    intro cv hne
    exact hrec.committers_of_ne hmsg fun hc => hne (hc.2.symm.trans hcounter)
  have hpos : 1 ≤ q.ui.counter.toNat :=
    Nat.one_le_iff_ne_zero.mpr fun hz => hcv (UInt64.toNat_inj.mp hz)
  have hmono : (c.committers config.n 0 q.ui.counter).card ≤
      (c'.committers config.n 0 q.ui.counter).card := by
    apply Finset.card_le_card
    rw [← hcounter, hrec.committers_self hid hmsg]
    exact Finset.subset_insert _ _
  have hold := h.quorum q.ui.counter
  by_cases hle : q.ui.counter.toNat ≤ m
  · refine ⟨m, .stays fun _ => hle, fun cv => ?_⟩
    by_cases heq : cv = q.ui.counter
    · subst heq
      omega
    · rw [hother cv heq]
      exact h.quorum cv
  · cases done with
    | false =>
        refine ⟨m, .stays (by simp), fun cv => ?_⟩
        by_cases heq : cv = q.ui.counter
        · subst heq
          simp only [Bool.false_eq_true, false_iff] at hdone
          omega
        · rw [hother cv heq]
          exact h.quorum cv
    | true =>
        have hnext : q.ui.counter.toNat = m + 1 := by
          rcases Nat.eq_or_lt_of_le hpos with hone | hlt
          · omega
          · -- those who commit to this counter have committed to the one before
            have hsub := UInt64.toNat_sub_one_add_one hpos
            have hbefore := h.quorum (q.ui.counter - 1)
            have hne : q.ui.counter - 1 ≠ q.ui.counter := by
              intro heq
              have := congrArg UInt64.toNat heq
              omega
            have hcard := Finset.card_le_card (committers_subset htracks
              (y := q.ui.counter - 1) (x := q.ui.counter)
              (UInt64.le_iff_toNat_le.mpr (by rw [UInt64.toNat_one]; omega))
              (UInt64.le_iff_toNat_le.mpr (by omega)))
            rw [hother _ hne] at hcard
            have hk := hdone.mp rfl
            have := (hbefore.mp (hk.trans hcard)).2
            omega
        refine ⟨m + 1, .next hnext, fun cv => ?_⟩
        by_cases heq : cv = q.ui.counter
        · subst heq
          have hk := hdone.mp rfl
          omega
        · rw [hother cv heq, h.quorum cv]
          have : cv.toNat ≠ q.ui.counter.toNat := fun hc => heq (UInt64.toNat_inj.mp hc)
          omega

/-- A Prepare accepted from the primary is the next one. -/
theorem record_prepare (h : InitialCommitments config c ps m)
    (hid : (CertifiedMessage.prepare q).replicaID < config.n) (hprimary : q.replicaID = 0)
    (hview : q.view = 0) (hcv : q.ui.counter ≠ 0) (hrec : c.Recorded (.prepare q) 0 done c') :
    ∃ m', Advances q.ui.counter.toNat m done m' ∧
      InitialCommitments config c' (ps ++ [q]) m' ∧ q.ui.counter.toNat = ps.length + 1 := by
  have hnv : ∀ y ∈ c'.accepted, y.proposed.kind ≠ .newView := by
    intro y hy
    rw [hrec.accepted] at hy
    rcases List.mem_append.mp hy with hy | hy
    · exact h.noNewView y hy
    · cases List.mem_singleton.mp hy
      simp [CertifiedMessage.proposed, CertifiedMessage.kind]
  have hfits := hrec.fits
  rw [Commitments.Fits, if_neg (by simp [CertifiedMessage.proposed, CertifiedMessage.kind])]
    at hfits
  have hnat : q.ui.counter.toNat = ps.length + 1 := by
    rw [← h.last, (UInt64.eq_add_one_iff hcv).mp hfits.2.1]
    rw [CertifiedMessage.replicaID_prepare, hprimary]
  obtain ⟨m', hm', hquorum⟩ := h.quorum_record hid rfl hview hcv hrec hnv
  have hle := h.le_length
  have hlen : m' ≤ ps.length + 1 := by
    cases hm' <;> omega
  refine ⟨m', hm', ⟨?_, hnv, ?_, ?_, ?_, ?_, hquorum⟩, hnat⟩
  · exact h.tracks.record hid (by rw [← hview]; rfl) hcv hrec
  · rw [hrec.lastPrimaryCVs, CertifiedMessage.replicaID_prepare, hprimary, Function.update_self,
      List.length_append]
    exact hnat
  · rw [List.map_append, h.counters, List.length_append, List.length_singleton,
      List.range'_concat, List.map_singleton, hnat, Nat.one_mul, Nat.add_comm 1]
  · intro q'
    rw [hrec.accepted, List.mem_append, List.mem_append, h.accepted]
    simp
  · rw [List.length_append, List.length_singleton]
    exact hlen

/-- A Commit refers to a Prepare already accepted from the primary. -/
theorem record_commit (h : InitialCommitments config c ps m) {commit : Commit}
    (hid : (CertifiedMessage.commit commit).replicaID < config.n) (hne : commit.replicaID ≠ 0)
    (hprop : commit.proposal = .prepare q) (hview : q.view = 0)
    (hrec : c.Recorded (.commit commit) 0 done c') {q₀ : Prepare} (hq₀ : q₀ ∈ ps)
    (heq : q₀.ui.counter = q.ui.counter) :
    ∃ m', Advances q.ui.counter.toNat m done m' ∧
      InitialCommitments config c' ps m' := by
  have hprop' : (CertifiedMessage.commit commit).proposed = .prepare q := by
    simp [CertifiedMessage.proposed, hprop]
  obtain ⟨hpos, hget⟩ := h.getElem?_of_mem hq₀
  have hcv : q.ui.counter ≠ 0 := by
    rw [← heq]
    rintro hz
    rw [hz] at hpos
    simp at hpos
  have hlen : q.ui.counter.toNat ≤ ps.length := by
    have := (List.getElem?_eq_some_iff.mp hget).1
    rw [heq] at this hpos
    omega
  have hnv : ∀ y ∈ c'.accepted, y.proposed.kind ≠ .newView := by
    intro y hy
    rw [hrec.accepted] at hy
    rcases List.mem_append.mp hy with hy | hy
    · exact h.noNewView y hy
    · cases List.mem_singleton.mp hy
      simp [hprop', CertifiedMessage.kind]
  obtain ⟨m', hm', hquorum⟩ := h.quorum_record hid hprop' hview hcv hrec hnv
  have hle := h.le_length
  refine ⟨m', hm', ⟨?_, hnv, ?_, h.counters, ?_, ?_, hquorum⟩⟩
  · refine h.tracks.record hid ?_ (by rw [hprop']; exact hcv) hrec
    exact hview ▸ CertifiedMessage.messageView_of_prepare hprop'
  · rw [hrec.lastPrimaryCVs, CertifiedMessage.replicaID_commit,
      Function.update_of_ne hne.symm]
    exact h.last
  · intro q'
    rw [hrec.accepted, List.mem_append, h.accepted]
    simp
  · cases hm' <;> omega

end Record

end InitialCommitments

namespace InitialRequests

variable {r : Requests} {ps : List Prepare} {m : ℕ}

theorem withRequests (h : InitialRequests r ps m) {r' : Requests}
    (hdel : r'.delivered = r.delivered) (hret : r'.retired = r.retired)
    (hprep : ∀ id, (r.clients id).lastPreparedSeq ≤ (r'.clients id).lastPreparedSeq) :
    InitialRequests r' ps m :=
  ⟨h.increasing, fun q hq => UInt64.le_trans (h.prepared q hq) (hprep _),
    h.delivered.congr hdel hret⟩

theorem lastPreparedSeq_markPrepared {req : Request}
    (hnew : (r.clients req.clientID).lastPreparedSeq < req.sequence) (id : UInt32) :
    (r.clients id).lastPreparedSeq ≤ ((r.markPrepared req).clients id).lastPreparedSeq := by
  by_cases hid : id = req.clientID
  · subst hid
    simpa [Requests.markPrepared] using UInt64.le_of_lt hnew
  · simp [Requests.markPrepared, hid]

theorem markPrepared (h : InitialRequests r ps m) {req : Request}
    (hnew : (r.clients req.clientID).lastPreparedSeq < req.sequence) :
    InitialRequests (r.markPrepared req) ps m :=
  h.withRequests rfl (Requests.markPrepared_retired req r) (lastPreparedSeq_markPrepared hnew)

/-- A request is prepared only after all prepared before have smaller sequence numbers. -/
theorem concat (h : InitialRequests r ps m) (hle : m ≤ ps.length) {q : Prepare}
    (hnew : (r.clients q.request.clientID).lastPreparedSeq < q.request.sequence) :
    InitialRequests (r.markPrepared q.request) (ps ++ [q]) m := by
  have hmark := h.markPrepared hnew
  refine ⟨⟨?_, ?_⟩, ?_, ?_⟩
  · intro c hc
    rw [contents, List.map_append, List.mem_append] at hc
    rcases hc with hc | hc
    · exact h.increasing.pos c hc
    · cases List.mem_singleton.mp hc
      exact (Nat.zero_le _).trans_lt (UInt64.lt_iff_toNat_lt.mp hnew)
  · rw [contents, List.map_append, List.pairwise_append]
    refine ⟨h.increasing.lt, List.pairwise_singleton _ _, ?_⟩
    intro c hc c' hc' hkey
    obtain ⟨q₀, hq₀, rfl⟩ := List.mem_map.mp hc
    cases List.mem_singleton.mp hc'
    have hprep := h.prepared q₀ hq₀
    rw [show q₀.request.clientID = q.request.clientID from hkey] at hprep
    exact UInt64.lt_iff_toNat_lt.mp (UInt64.lt_of_le_of_lt hprep hnew)
  · intro q₀ hq₀
    rcases List.mem_append.mp hq₀ with hq₀ | hq₀
    · exact hmark.prepared q₀ hq₀
    · cases List.mem_singleton.mp hq₀
      simp [Requests.markPrepared]
  · rw [List.take_append_of_le_length hle]
    exact hmark.delivered

/-- Executing the next Prepare delivers its request, executing an earlier one has no effect. -/
theorem execute (h : InitialRequests r ps m) {q : Prepare} {req : Request} {cv m' : ℕ}
    (hpos : 1 ≤ cv) (hget : ps[cv - 1]? = some q) (hcontent : q.request.content = req.content)
    (hm : Advances cv m true m') :
    ∃ r', Requests.executeAll [req] r = .ok () r' ∧ InitialRequests r' ps m' := by
  have hmem : q ∈ ps := List.mem_of_getElem? hget
  have hprep : ∀ x ∈ [req], x.sequence ≤ (r.clients x.clientID).lastPreparedSeq := by
    rintro _ (_ | ⟨_, ⟨⟩⟩)
    have hq := h.prepared q hmem
    rwa [show q.request.clientID = req.clientID from congrArg Prod.fst hcontent,
      show q.request.sequence = req.sequence from congrArg (·.2.1) hcontent] at hq
  obtain ⟨r', hok⟩ := Requests.executeAll_ok hprep
  obtain ⟨r'', ⟨heq, hdel⟩ | ⟨_, _, heq, -⟩⟩ := h.delivered.executeAll [req]
  · rw [hok] at heq
    cases heq
    refine ⟨r', hok, h.increasing, ?_, ?_⟩
    · have hlast := Requests.executeAll_lastPreparedSeq [req] r
      rw [hok] at hlast
      intro q₀ hq₀
      rw [show (r'.clients _).lastPreparedSeq = _ from hlast _]
      exact h.prepared q₀ hq₀
    · rcases hm with hle | rfl
      · have := hle rfl
        refine (Requests.delivered_append_iff fun c hc => ?_).mp hdel
        cases List.mem_singleton.mp hc
        rw [← hcontent]
        apply seq_le_lastSeqs
        refine List.mem_map_of_mem (List.mem_of_getElem? (i := cv - 1) ?_)
        rw [List.getElem?_take, if_pos (by omega), hget]
      · rw [List.take_add_one, show ps[m]? = some q from hget, contents, List.map_append,
          Option.toList_some, List.map_singleton, hcontent]
        exact hdel
  · rw [hok] at heq
    cases heq

end InitialRequests

structure Initial (p : Params) (x : Execution) (ps : List Prepare) (m : ℕ) : Prop where
  commitments : InitialCommitments p.config x.commitments ps m
  requests : InitialRequests x.requests ps m

namespace Initial

variable {p : Params} {x : Execution} {ps ps' : List Prepare} {m : ℕ} {c : CertifiedMessage}
  {q : Prepare} {r : Requests} {res : EStateM.Result Fault Execution Unit}

/-- A commitment is refused, or it is recorded and what it completes is executed. -/
theorem collected (h : InitialCommitments p.config x.commitments ps m)
    (hcollect : Execution.Collected c 0 { x with requests := r } res)
    (hprop : c.proposed = .prepare q)
    (hrec : ∀ done c', x.commitments.Recorded c 0 done c' →
      ∃ m', Advances q.ui.counter.toNat m done m' ∧
        InitialCommitments p.config c' ps' m' ∧ 1 ≤ q.ui.counter.toNat ∧
          ∃ q₀, ps'[q.ui.counter.toNat - 1]? = some q₀ ∧ q₀.request.content = q.request.content)
    (hkeep : InitialRequests r ps m) (hnext : InitialRequests r ps' m) :
    (Initial p res.state ps m ∧ ∃ e y, res = .error e y) ∨ ∃ m', Initial p res.state ps' m' := by
  have hreqs : c.proposed.requests = some [q.request] := by
    rw [hprop]
    rfl
  have hexec : ∀ {c'}, x.commitments.record c 0 = .ok (true, c') →
      ∃ m', InitialCommitments p.config c' ps' m' ∧ ∃ r',
        Requests.executeAll [q.request] r = .ok () r' ∧ InitialRequests r' ps' m' := by
    intro c' hrecord
    obtain ⟨m', hm', hcommit, hpos, q₀, hget, hcontent⟩ :=
      hrec _ _ (Commitments.recorded h.tracks.bound hrecord)
    exact ⟨m', hcommit, hnext.execute hpos hget hcontent hm'⟩
  cases hcollect with
  | rejected => exact .inl ⟨⟨h, hkeep⟩, _, _, rfl⟩
  | counted hrecord =>
      obtain ⟨m', hm', hcommit, -⟩ := hrec _ _ (Commitments.recorded h.tracks.bound hrecord)
      cases hm'
      exact .inr ⟨m, hcommit, hnext⟩
  | unexpected _ hnone =>
      rw [hreqs] at hnone
      cases hnone
  | panicked hrecord hsome hfail =>
      rw [hreqs] at hsome
      cases hsome
      obtain ⟨-, -, r', hok, -⟩ := hexec hrecord
      rw [hok] at hfail
      cases hfail
  | executed hrecord hsome hok =>
      rw [hreqs] at hsome
      cases hsome
      obtain ⟨m', hcommit, r', hok', hnew⟩ := hexec hrecord
      rw [hok'] at hok
      cases hok
      exact .inr ⟨m', hcommit, hnew⟩

theorem takenPrepare (h : Initial p x ps m)
    (hwf : WellFormed p.crypto p.config (.certified (.prepare q))) (hview : q.view = 0)
    (htaken : Execution.Taken (.prepare q) 0 x res) :
    (Initial p res.state ps m ∧ ∃ e y, res = .error e y) ∨
      ∃ m', Initial p res.state (ps ++ [q]) m' := by
  have hprimary : q.replicaID = 0 := by
    have hshape : isPrimary q.view q.replicaID p.config.n = true := hwf.2.2
    rw [hview] at hshape
    exact isPrimary_zero.mp hshape
  have hcollected : ∀ {r res'}, Execution.prepareFor (.prepare q) x.requests = .ok () r →
      Execution.Collected (.prepare q) 0 { x with requests := r } res' →
      (Initial p res'.state ps m ∧ ∃ e y, res' = .error e y) ∨
        ∃ m', Initial p res'.state (ps ++ [q]) m' := by
    intro r res' hprep hcollect
    rcases Execution.prepareFor_prepare_cases q x.requests with
      ⟨-, heq⟩ | ⟨hnew, ⟨-, heq⟩ | ⟨-, heq⟩⟩ <;> cases hprep.symm.trans heq
    refine collected h.commitments hcollect rfl ?_ (h.requests.markPrepared hnew)
      (h.requests.concat h.commitments.le_length hnew)
    intro done c' hrec
    obtain ⟨m', hm', hcommit, hnat⟩ :=
      h.commitments.record_prepare hwf.1 hprimary hview hwf.2.1.1 hrec
    refine ⟨m', hm', hcommit, by omega, q, ?_, rfl⟩
    rw [hnat, Nat.add_sub_cancel, List.getElem?_append_right (Nat.le_refl _), Nat.sub_self]
    rfl
  cases htaken with
  | unprepared hprep =>
      rcases Execution.prepareFor_prepare_cases q x.requests with
        ⟨-, heq⟩ | ⟨-, ⟨-, heq⟩ | ⟨-, heq⟩⟩ <;> cases hprep.symm.trans heq
      · exact .inl ⟨h, _, _, rfl⟩
      · exact .inl ⟨h, _, _, rfl⟩
  | failed _ hprep hcollect =>
      exact (hcollected hprep hcollect).imp_left fun ⟨hkeep, _⟩ => ⟨hkeep, _, _, rfl⟩
  | taken hprep hcollect => exact hcollected hprep hcollect

theorem takenCommit (h : Initial p x ps m) {commit : Commit}
    (hwf : WellFormed p.crypto p.config (.certified (.commit commit)))
    (hprop : commit.proposal = .prepare q) (hview : q.view = 0) (hprimary : q.replicaID = 0)
    {q₀ : Prepare} (hq₀ : q₀ ∈ ps) (hcv : q₀.ui.counter = q.ui.counter)
    (hcontent : q₀.request.content = q.request.content)
    (htaken : Execution.Taken (.commit commit) 0 x res) : ∃ m', Initial p res.state ps m' := by
  have hne : commit.replicaID ≠ 0 := by
    have hshape := hwf.2.2.1
    rwa [hprop, CertifiedMessage.replicaID_prepare, hprimary] at hshape
  have hcollected : ∀ {r res'}, Execution.prepareFor (.commit commit) x.requests = .ok () r →
      Execution.Collected (.commit commit) 0 { x with requests := r } res' →
      ∃ m', Initial p res'.state ps m' := by
    intro r res' hprep hcollect
    cases hprep
    have hrec : ∀ done c', x.commitments.Recorded (.commit commit) 0 done c' →
        ∃ m', Advances q.ui.counter.toNat m done m' ∧
          InitialCommitments p.config c' ps m' ∧ 1 ≤ q.ui.counter.toNat ∧
            ∃ q₀, ps[q.ui.counter.toNat - 1]? = some q₀ ∧
              q₀.request.content = q.request.content := by
      intro done c' hrec
      obtain ⟨m', hm', hcommit⟩ :=
        h.commitments.record_commit hwf.1 hne hprop hview hrec hq₀ hcv
      obtain ⟨hpos, hget⟩ := h.commitments.getElem?_of_mem hq₀
      rw [hcv] at hpos hget
      exact ⟨m', hm', hcommit, hpos, q₀, hget, hcontent⟩
    rcases collected h.commitments hcollect (by simp [CertifiedMessage.proposed, hprop]) hrec
      h.requests h.requests with ⟨hkeep, -⟩ | hnext
    · exact ⟨m, hkeep⟩
    · exact hnext
  cases htaken with
  | unprepared hprep => cases hprep
  | failed _ hprep hcollect =>
      obtain ⟨m', hm'⟩ := hcollected hprep hcollect
      exact ⟨m', hm'⟩
  | taken hprep hcollect => exact hcollected hprep hcollect

end Initial

end MinBFT
