import MinBFT.History
import MinBFT.Ledger
import MinBFT.System

/-!
# The lists of pending and of prepared requests

For each client, the prepared request is the one with the last prepared sequence number, until that
number is retired, and the pending request is the last one captured, until its number is prepared.
The first holds in every run. The second breaks when a replica leaves a view while a client has one
request prepared and a later one pending: `unprepareReqs` puts the former in the place of the
latter.
-/

namespace MinBFT

namespace Requests

variable {s s' : Requests} {r : Request} {id : UInt32}

structure Kept (s : Requests) (id : UInt32) : Prop where
  prepared : (∃ r ∈ s.preparedReqs.messages, r.clientID = id) ↔
    (s.clients id).lastRetiredSeq < (s.clients id).lastPreparedSeq
  sequence : ∀ r ∈ s.preparedReqs.messages, r.clientID = id →
    r.sequence = (s.clients id).lastPreparedSeq
  pending : ∀ r ∈ s.pendingReqs.messages, r.clientID = id →
    (s.clients id).lastPreparedSeq < r.sequence
  captured : (s.clients id).lastPreparedSeq < (s.clients id).lastCapturedSeq →
    ∃ r ∈ s.pendingReqs.messages, r.clientID = id ∧
      r.sequence = (s.clients id).lastCapturedSeq

instance : Decidable (s.Kept id) :=
  decidable_of_iff
    (((∃ r ∈ s.preparedReqs.messages, r.clientID = id) ↔
        (s.clients id).lastRetiredSeq < (s.clients id).lastPreparedSeq) ∧
      (∀ r ∈ s.preparedReqs.messages, r.clientID = id →
        r.sequence = (s.clients id).lastPreparedSeq) ∧
      (∀ r ∈ s.pendingReqs.messages, r.clientID = id →
        (s.clients id).lastPreparedSeq < r.sequence) ∧
      ((s.clients id).lastPreparedSeq < (s.clients id).lastCapturedSeq →
        ∃ r ∈ s.pendingReqs.messages, r.clientID = id ∧
          r.sequence = (s.clients id).lastCapturedSeq))
    ⟨fun ⟨h₁, h₂, h₃, h₄⟩ => ⟨h₁, h₂, h₃, h₄⟩, fun ⟨h₁, h₂, h₃, h₄⟩ => ⟨h₁, h₂, h₃, h₄⟩⟩

structure Ranked (s : Requests) (id : UInt32) : Prop where
  retired_le : (s.clients id).lastRetiredSeq ≤ (s.clients id).lastPreparedSeq
  prepared_le : (s.clients id).lastPreparedSeq ≤ (s.clients id).lastCapturedSeq
  prepared : (∃ r ∈ s.preparedReqs.messages, r.clientID = id) ↔
    (s.clients id).lastRetiredSeq < (s.clients id).lastPreparedSeq
  sequence : ∀ r ∈ s.preparedReqs.messages, r.clientID = id →
    r.sequence = (s.clients id).lastPreparedSeq

/-- The pending request of a client is the last one captured, until it is prepared. -/
structure Newest (s : Requests) (id : UInt32) : Prop where
  pending : ∀ r ∈ s.pendingReqs.messages, r.clientID = id →
    (s.clients id).lastPreparedSeq < r.sequence ∧ r.sequence = (s.clients id).lastCapturedSeq
  captured : (s.clients id).lastPreparedSeq < (s.clients id).lastCapturedSeq →
    ∃ r ∈ s.pendingReqs.messages, r.clientID = id ∧
      r.sequence = (s.clients id).lastCapturedSeq

theorem Ranked.kept (h : s.Ranked id) (hnew : s.Newest id) : s.Kept id :=
  ⟨h.prepared, h.sequence, fun r hr hid => (hnew.pending r hr hid).1, hnew.captured⟩

structure Agree (s s' : Requests) (id : UInt32) : Prop where
  clients : s'.clients id = s.clients id
  prepared : ∀ r : Request, r.clientID = id →
    (r ∈ s'.preparedReqs.messages ↔ r ∈ s.preparedReqs.messages)
  pending : ∀ r : Request, r.clientID = id →
    (r ∈ s'.pendingReqs.messages ↔ r ∈ s.pendingReqs.messages)

theorem Ranked.congr (h : s.Ranked id) (ha : Agree s s' id) : s'.Ranked id := by
  obtain ⟨hclients, hprepared, -⟩ := ha
  refine ⟨hclients ▸ h.retired_le, hclients ▸ h.prepared_le, ?_, ?_⟩
  · rw [hclients, ← h.prepared]
    constructor
    · exact fun ⟨r, hr, hid⟩ => ⟨r, (hprepared r hid).mp hr, hid⟩
    · exact fun ⟨r, hr, hid⟩ => ⟨r, (hprepared r hid).mpr hr, hid⟩
  · intro r hr hid
    rw [hclients]
    exact h.sequence r ((hprepared r hid).mp hr) hid

theorem Newest.congr (h : s.Newest id) (hclients : s'.clients id = s.clients id)
    (hpending : ∀ r : Request, r.clientID = id →
      (r ∈ s'.pendingReqs.messages ↔ r ∈ s.pendingReqs.messages)) : s'.Newest id := by
  refine ⟨fun r hr hid => ?_, fun hlt => ?_⟩
  · rw [hclients]
    exact h.pending r ((hpending r hid).mp hr) hid
  · rw [hclients] at hlt ⊢
    obtain ⟨r, hr, hid, hseq⟩ := h.captured hlt
    exact ⟨r, (hpending r hid).mpr hr, hid, hseq⟩

theorem agree_markPrepared (hid : id ≠ r.clientID) : Agree s (s.markPrepared r) id := by
  refine ⟨by simp [markPrepared, hid], fun x hx => ?_, fun x hx => ?_⟩
  · have hne : x ≠ r := fun heq => hid (hx ▸ heq ▸ rfl)
    rw [markPrepared, RequestList.mem_add]
    simp [hne, hx, hid]
  · rw [markPrepared, RequestList.mem_remove]
    simp [hx, hid]

theorem agree_markDelivered (hid : id ≠ r.clientID) : Agree s (s.markDelivered r) id := by
  refine ⟨by simp [markDelivered, hid], fun x hx => ?_, fun x hx => Iff.rfl⟩
  rw [markDelivered, RequestList.mem_remove]
  simp [hx, hid]

theorem Ranked.markPrepared (h : s.Ranked id)
    (hnew : (s.clients r.clientID).lastPreparedSeq < r.sequence)
    (hcap : r.sequence ≤ (s.clients r.clientID).lastCapturedSeq) :
    (s.markPrepared r).Ranked id := by
  by_cases hid : id = r.clientID
  · subst hid
    have hlt := UInt64.lt_of_le_of_lt h.retired_le hnew
    have hmem : r ∈ (s.markPrepared r).preparedReqs.messages :=
      RequestList.mem_add.mpr (.inl rfl)
    refine ⟨?_, ?_, ?_, ?_⟩
    · simpa [Requests.markPrepared] using UInt64.le_of_lt hlt
    · simpa [Requests.markPrepared] using hcap
    · refine iff_of_true ⟨r, hmem, rfl⟩ ?_
      simpa [Requests.markPrepared] using hlt
    · intro x hx hxid
      obtain rfl : x = r := RequestList.eq_of_clientID_eq hx hmem hxid
      simp [Requests.markPrepared]
  · exact h.congr (agree_markPrepared hid)

theorem Newest.markPrepared (h : s.Newest id)
    (hnew : (s.clients r.clientID).lastPreparedSeq < r.sequence)
    (hcap : r.sequence ≤ (s.clients r.clientID).lastCapturedSeq) :
    (s.markPrepared r).Newest id := by
  by_cases hid : id = r.clientID
  · subst hid
    refine ⟨fun x hx hxid => ?_, fun hlt => ?_⟩
    · obtain ⟨hx, hne⟩ := RequestList.mem_remove.mp hx
      obtain ⟨-, hseq⟩ := h.pending x hx hxid
      have hlt := UInt64.lt_of_le_of_ne (hseq ▸ hcap) (Ne.symm (hne hxid))
      simpa [Requests.markPrepared] using ⟨hlt, hseq⟩
    · have hlt : r.sequence < (s.clients r.clientID).lastCapturedSeq := by
        simpa [Requests.markPrepared] using hlt
      obtain ⟨x, hx, hxid, hseq⟩ := h.captured (UInt64.lt_trans hnew hlt)
      refine ⟨x, RequestList.mem_remove.mpr ⟨hx, fun _ heq => ?_⟩, hxid, ?_⟩
      · exact UInt64.lt_irrefl _ (heq ▸ hseq ▸ hlt)
      · simpa [Requests.markPrepared] using hseq
  · have ha := @agree_markPrepared s r id hid
    exact h.congr ha.clients ha.pending

theorem Ranked.markDelivered (h : s.Ranked id)
    (hnew : (s.clients r.clientID).lastRetiredSeq < r.sequence)
    (hprep : r.sequence ≤ (s.clients r.clientID).lastPreparedSeq) :
    (s.markDelivered r).Ranked id := by
  by_cases hid : id = r.clientID
  · subst hid
    refine ⟨?_, ?_, ?_, ?_⟩
    · simpa [Requests.markDelivered] using hprep
    · simpa [Requests.markDelivered] using h.prepared_le
    · obtain ⟨x, hx, hxid⟩ := h.prepared.mpr (UInt64.lt_of_lt_of_le hnew hprep)
      have hseq := h.sequence x hx hxid
      constructor
      · rintro ⟨y, hy, hyid⟩
        obtain ⟨hy, hne⟩ := RequestList.mem_remove.mp hy
        obtain rfl : y = x := RequestList.eq_of_clientID_eq hy hx (hyid.trans hxid.symm)
        have hlt := UInt64.lt_of_le_of_ne (hseq ▸ hprep) (Ne.symm (hne hyid))
        simpa [Requests.markDelivered] using hseq ▸ hlt
      · intro hlt
        have hlt : r.sequence < x.sequence := by
          simpa [Requests.markDelivered, hseq] using hlt
        exact ⟨x, RequestList.mem_remove.mpr ⟨hx, fun _ => Ne.symm (UInt64.ne_of_lt hlt)⟩, hxid⟩
    · intro x hx hxid
      have hseq := h.sequence x (RequestList.mem_remove.mp hx).1 hxid
      simpa [Requests.markDelivered] using hseq
  · exact h.congr (agree_markDelivered hid)

theorem Newest.markDelivered (h : s.Newest id) : (s.markDelivered r).Newest id := by
  by_cases hid : id = r.clientID
  · subst hid
    refine ⟨fun x hx hxid => ?_, fun hlt => ?_⟩
    · simpa [Requests.markDelivered] using h.pending x hx hxid
    · have hlt : (s.clients r.clientID).lastPreparedSeq <
          (s.clients r.clientID).lastCapturedSeq := by
        simpa [Requests.markDelivered] using hlt
      obtain ⟨x, hx, hxid, hseq⟩ := h.captured hlt
      exact ⟨x, hx, hxid, by simpa [Requests.markDelivered] using hseq⟩
  · have ha := @agree_markDelivered s r id hid
    exact h.congr ha.clients ha.pending

theorem Steps.ranked (h : Steps s s') (hs : s.Ranked id) : s'.Ranked id := by
  induction h with
  | refl => exact hs
  | tail _ hstep ih =>
      cases hstep with
      | prepared hnew hcap => exact ih.markPrepared hnew hcap
      | delivered hnew hprep => exact ih.markDelivered hnew hprep

theorem Steps.newest (h : Steps s s') (hs : s.Newest id) : s'.Newest id := by
  induction h with
  | refl => exact hs
  | tail _ hstep ih =>
      cases hstep with
      | prepared hnew hcap => exact ih.markPrepared hnew hcap
      | delivered => exact ih.markDelivered

/-- A request that is captured takes the place of its client's pending one. -/
theorem captured_of_captureReq (h : s.captureReq r = some s') :
    (s.clients r.clientID).lastCapturedSeq < r.sequence ∧
      s' = { s.setClient r.clientID { s.clients r.clientID with
          lastCapturedSeq := r.sequence, lastReleasedSeq := r.sequence } with
        pendingReqs := s.pendingReqs.add r } := by
  rcases captureReq_cases r s with ⟨-, heq⟩ | ⟨hnew, heq⟩
  · rw [heq] at h
    cases h
  · rw [heq] at h
    exact ⟨hnew, (Option.some.inj h).symm⟩

theorem agree_captureReq (h : s.captureReq r = some s') (hid : id ≠ r.clientID) :
    Agree s s' id := by
  obtain ⟨-, rfl⟩ := captured_of_captureReq h
  refine ⟨by simp [hid], fun x hx => Iff.rfl, fun x hx => ?_⟩
  have hne : x ≠ r := fun heq => hid (hx ▸ heq ▸ rfl)
  rw [RequestList.mem_add]
  simp [hne, hx, hid]

theorem Ranked.captureReq (h : s.Ranked id) (hcap : s.captureReq r = some s') :
    s'.Ranked id := by
  by_cases hid : id = r.clientID
  · subst hid
    obtain ⟨hnew, rfl⟩ := captured_of_captureReq hcap
    refine ⟨?_, ?_, ?_, ?_⟩
    · simpa using h.retired_le
    · simpa using UInt64.le_trans h.prepared_le (UInt64.le_of_lt hnew)
    · simpa using h.prepared
    · simpa using h.sequence
  · exact h.congr (agree_captureReq hcap hid)

theorem Newest.captureReq (h : s.Newest id) (hle : s.Ranked id)
    (hcap : s.captureReq r = some s') : s'.Newest id := by
  by_cases hid : id = r.clientID
  · subst hid
    obtain ⟨hnew, rfl⟩ := captured_of_captureReq hcap
    have hmem : r ∈ (s.pendingReqs.add r).messages := RequestList.mem_add.mpr (.inl rfl)
    refine ⟨fun x hx hxid => ?_, fun _ => ⟨r, hmem, rfl, by simp⟩⟩
    obtain rfl : x = r := RequestList.eq_of_clientID_eq hx hmem hxid
    simpa using UInt64.lt_of_le_of_lt hle.prepared_le hnew
  · have ha := agree_captureReq hcap hid
    exact h.congr ha.clients ha.pending

theorem Ranked.unprepareReqs (h : s.Ranked id) : s.unprepareReqs.Ranked id := by
  have hclients := s.unprepared_unprepareReqs.clients id
  have hnone : ¬ ∃ r ∈ s.unprepareReqs.preparedReqs.messages, r.clientID = id :=
    fun ⟨r, hr, _⟩ => s.not_mem_preparedReqs_unprepareReqs r hr
  have heq : (s.unprepareReqs.clients id).lastPreparedSeq =
      (s.unprepareReqs.clients id).lastRetiredSeq := by
    rw [hclients]
    split_ifs with hmem
    · rfl
    · -- without a prepared request the last number prepared has been retired already
      refine UInt64.le_antisymm (UInt64.not_lt.mp fun hlt => hmem ?_) h.retired_le
      obtain ⟨r, hr, hid⟩ := h.prepared.mpr hlt
      exact List.mem_map.mpr ⟨r, hr, hid⟩
  refine ⟨UInt64.le_of_eq heq.symm, ?_, ?_, ?_⟩
  · rw [unprepareReqs_lastCapturedSeq, hclients]
    split_ifs
    · exact UInt64.le_trans h.retired_le h.prepared_le
    · exact h.prepared_le
  · exact iff_of_false hnone (by rw [heq]; exact UInt64.lt_irrefl _)
  · exact fun r hr _ => absurd hr (s.not_mem_preparedReqs_unprepareReqs r)

/-- The last request captured stays pending if it is the one that was prepared. -/
theorem Newest.unprepareReqs (h : s.Newest id) (hle : s.Ranked id)
    (hnewest : ∀ r ∈ s.preparedReqs.messages, r.clientID = id →
      r.sequence = (s.clients id).lastCapturedSeq) : s.unprepareReqs.Newest id := by
  have hunprep := s.unprepared_unprepareReqs
  have hclients := hunprep.clients id
  by_cases hmem : id ∈ s.preparedReqs.messages.map (·.clientID)
  · rw [if_pos hmem] at hclients
    obtain ⟨x, hx, hxid⟩ := List.mem_map.mp hmem
    have hxp : x ∈ s.unprepareReqs.pendingReqs.messages := (hunprep.pending x).mpr (.inl hx)
    have hseq := hnewest x hx hxid
    refine ⟨fun r hr hid => ?_, fun _ => ⟨x, hxp, hxid, ?_⟩⟩
    · obtain rfl : r = x := RequestList.eq_of_clientID_eq hr hxp (hid.trans hxid.symm)
      rw [hclients]
      exact ⟨hle.sequence r hx hid ▸ hle.prepared.mp ⟨r, hx, hid⟩, hseq⟩
    · rw [hclients]
      exact hseq
  · rw [if_neg hmem] at hclients
    refine h.congr hclients fun r hid => ?_
    rw [hunprep.pending]
    constructor
    · rintro (hr | ⟨hr, -⟩)
      · exact absurd (List.mem_map.mpr ⟨r, hr, hid⟩) hmem
      · exact hr
    · exact fun hr => .inr ⟨hr, hid ▸ hmem⟩

end Requests

namespace Replica

variable {p : Params} {order : List Request} {C : Replica → Message → Prop} {s : Replica}

/-- When the view is left, every request still prepared is the last one captured of its client. -/
def NewestPrepared (p : Params) (s : Replica) (m : Message) : Prop :=
  s.Leaves p m → ∀ r ∈ s.execution.requests.preparedReqs.messages,
    r.sequence = (s.execution.requests.clients r.clientID).lastCapturedSeq

instance (m : Message) : Decidable (s.NewestPrepared p m) :=
  inferInstanceAs (Decidable (_ → ∀ r ∈ s.execution.requests.preparedReqs.messages, _))

theorem Run.ranked (h : s.Run p C) (id : UInt32) : s.execution.requests.Ranked id := by
  induction h with
  | init => exact ⟨UInt64.le_refl _, UInt64.le_refl _, by simp [Replica.init, Execution.init,
      Requests.init, RequestList.empty], fun _ hr => absurd hr List.not_mem_nil⟩
  | process _ _ _ htrans _ ih =>
      rcases htrans.requests_cases with ⟨r, -, hcap⟩ | hsteps | ⟨-, heq⟩
      · exact ih.captureReq hcap
      · exact hsteps.ranked ih
      · rw [heq]
        exact ih.unprepareReqs
  | timeout _ _ _ ih =>
      rw [execution_requestViewChange]
      exact ih

theorem Run.newest (h : s.Run p C) (hC : ∀ r m, C r m → r.NewestPrepared p m) (id : UInt32) :
    s.execution.requests.Newest id := by
  induction h with
  | init => exact ⟨fun _ hr => absurd hr List.not_mem_nil, fun hlt =>
      absurd hlt (UInt64.lt_irrefl _)⟩
  | process hrun _ hcond htrans _ ih =>
      rcases htrans.requests_cases with ⟨r, -, hcap⟩ | hsteps | ⟨hleaves, heq⟩
      · exact ih.captureReq (hrun.ranked id) hcap
      · exact hsteps.newest ih
      · rw [heq]
        refine ih.unprepareReqs (hrun.ranked id) fun r hr hid => ?_
        exact hid ▸ hC _ _ hcond hleaves r hr
  | timeout _ _ _ ih =>
      rw [execution_requestViewChange]
      exact ih

end Replica

/-- In every run in which no view is left while a client has a request captured after the one
prepared, the bookkeeping is in order. -/
theorem Node.kept_of_newestPrepared {p : Params} {s : Node}
    (h : s.Reachable p (Replica.NewestPrepared p)) (id : UInt32) :
    s.replica.execution.requests.Kept id :=
  (h.run.ranked id).kept (h.run.newest (fun _ _ hC => hC) id)

namespace Concrete

def firstPrepare : CertifiedMessage := .prepare (prepare 0 0 (request 0 5) 1)

def overtakenNetwork : Network := ⟨⟨3, 1⟩, ledgerCrypto [firstPrepare,
  .viewChange (viewChange 1 1 [commit 1 firstPrepare 1] [1, 0] 2),
  commit 1 firstPrepare 1], {1, 2}⟩

theorem overtakenNetwork_admissible : overtakenNetwork.Admissible where
  tolerant := by
    unfold Config.Tolerant
    decide
  sha256 := injective_sha256_ledgerCrypto _
  uniqueUI := uniqueUI_ledgerCrypto (by decide +kernel)
  replicas := by decide +kernel
  faulty := by decide +kernel

/-- Replica 1 asks for a view change, prepares the first request, captures the second and leaves the
view when the primary asks for a view change, too. -/
def overtaking : List (UInt32 × Label) :=
  (handling 0 (.request (request 1 1)) ++ [Label.timeout 0] ++
    ownHandling (.reqViewChange (reqViewChange 1 1)) ++ handling 1 (.certified firstPrepare) ++
    handling 2 (.request (request 0 6)) ++
    handling 3 (.reqViewChange (reqViewChange 0 1))).map (1, ·)

/-- The second request is not pending although it has been captured and not prepared. -/
theorem pending_overwritten : overtakenNetwork.Admissible ∧
    ∃ sys, System.Reachable overtakenNetwork (fun _ _ _ => True) sys ∧
      ∃ i ∈ overtakenNetwork.correct, ∃ id,
        ¬ (sys.nodes i).replica.execution.requests.Kept id := by
  refine ⟨overtakenNetwork_admissible, ?_⟩
  have h : ((System.init overtakenNetwork).exec overtakenNetwork (fun _ _ _ => true)
      overtaking).any (fun sys =>
        decide (¬ (sys.nodes 1).replica.execution.requests.Kept 0)) = true := by
    decide +kernel
  obtain ⟨sys, hreach, hsys⟩ := System.exists_reachable (fun _ _ _ _ => trivial) h
  exact ⟨sys, hreach, 1, by decide, 0, of_decide_eq_true hsys⟩

/-- Without the second request the first is pending again. -/
theorem kept_after_leaving : ∃ s : Node,
    s.Reachable (overtakenNetwork.params 1) (Replica.NewestPrepared (overtakenNetwork.params 1)) ∧
      s.replica.expectedView = 1 ∧ s.replica.execution.requests.Kept 0 := by
  have h : ((Node.init (overtakenNetwork.params 1)).exec (overtakenNetwork.params 1)
      (fun r m => decide (r.NewestPrepared (overtakenNetwork.params 1) m))
      (handling 0 (.request (request 1 1)) ++ [Label.timeout 0] ++
        ownHandling (.reqViewChange (reqViewChange 1 1)) ++
        handling 1 (.certified firstPrepare) ++
        handling 2 (.reqViewChange (reqViewChange 0 1)))).any
      (fun s => s.replica.expectedView == 1) = true := by
    decide +kernel
  obtain ⟨s, hreach, hs⟩ := Node.exists_reachable _ (fun _ _ => of_decide_eq_true) h
  exact ⟨s, hreach, beq_iff_eq.mp hs, Node.kept_of_newestPrepared hreach 0⟩

end Concrete

end MinBFT
