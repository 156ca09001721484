import MinBFT.Counting

/-!
# Where panics come from

Preparing or executing requests fails only by a panic, and a panic while a message is taken into
account comes through `processMessage` as it is. A NewView that is applied at all can only fail by a
panic, as its commitment always fits.
-/

namespace MinBFT

namespace Requests

theorem prepareAll_panics {reqs : List Request} {s s' : Requests} {e : Fault}
    (h : prepareAll reqs s = .error e s') : e = .panic .requestNotCaptured := by
  induction reqs generalizing s with
  | nil => cases h
  | cons r reqs ih =>
      rw [prepareAll, EStateM.bind_apply] at h
      rcases prepareReq_cases r s with ⟨-, heq⟩ | ⟨-, ⟨-, heq⟩ | ⟨-, heq⟩⟩
      · rw [heq] at h
        exact ih h
      · rw [heq] at h
        cases h
        rfl
      · rw [heq] at h
        exact ih h

theorem executeAll_panics {reqs : List Request} {s s' : Requests} {e : Fault}
    (h : executeAll reqs s = .error e s') : e = .panic .requestNotPrepared := by
  induction reqs generalizing s with
  | nil => cases h
  | cons r reqs ih =>
      rw [executeAll, EStateM.bind_apply] at h
      rcases executeRequest_cases r s with ⟨-, heq⟩ | ⟨-, ⟨-, heq⟩ | ⟨-, heq⟩⟩
      · rw [heq] at h
        exact ih h
      · rw [heq] at h
        cases h
        rfl
      · rw [heq] at h
        exact ih h

end Requests

namespace Commitments

/-- A commitment that fits is not refused. -/
theorem Fits.record_ne_error {m : CertifiedMessage} {w : UInt64} {c : Commitments} {e : Error}
    (h : c.Fits m w) : c.record m w ≠ .error e := by
  rcases acceptCommitment_cases m w c with ⟨-, heq⟩ | ⟨hno, -⟩
  · rw [record, heq]
    exact fun hc => nomatch hc
  · exact absurd h hno

theorem replicaViews_record {m : CertifiedMessage} {w : UInt64} {c c' : Commitments} {done : Bool}
    (h : c.record m w = .ok (done, c')) :
    c'.replicaViews = Function.update c.replicaViews m.replicaID w := by
  have hcount : ∀ (c : Commitments) (cv : UInt64),
      (c.countCommitment w cv).2.replicaViews = c.replicaViews := by
    intro c cv
    unfold countCommitment
    split_ifs with hlt hgt
    · rfl
    · dsimp only
      cases replaceFirstBelow cv (List.replicate c.highest.length 0) <;> rfl
    · dsimp only
      cases replaceFirstBelow cv c.highest <;> rfl
  rcases acceptCommitment_cases m w c with ⟨-, heq⟩ | ⟨-, e, heq⟩
  · rw [record, heq] at h
    cases h
    split_ifs
    · exact hcount _ _
    · exact hcount _ _
  · rw [record, heq] at h
    cases h

end Commitments

namespace Execution

/-- A commitment that fits is taken into account, unless a Prepare is for a request prepared
already, or there is a panic. -/
theorem Taken.panics_of_fits {m : CertifiedMessage} {w : UInt64} {x y : Execution} {e : Fault}
    (hfits : x.commitments.Fits m w)
    (hfresh : ∀ q, m = .prepare q →
      (x.requests.clients q.request.clientID).lastPreparedSeq < q.request.sequence)
    (h : Taken m w x (.error e y)) : ∃ q, e = .panic q := by
  cases h with
  | unprepared hprep =>
      cases m with
      | prepare m =>
          rcases prepareFor_prepare_cases m x.requests with
            ⟨hle, -⟩ | ⟨-, ⟨-, heq⟩ | ⟨-, heq⟩⟩
          · exact absurd (hfresh m rfl) (UInt64.not_lt.mpr hle)
          · cases hprep.symm.trans heq
            exact ⟨_, rfl⟩
          · cases hprep.symm.trans heq
      | newView nv =>
          cases hextract : extractPreparedRequests nv.newViewCert with
          | none =>
              simp only [prepareFor, hextract] at hprep
              cases hprep
              exact ⟨_, rfl⟩
          | some reqs =>
              simp only [prepareFor, hextract] at hprep
              exact ⟨_, Requests.prepareAll_panics hprep⟩
      | _ => cases hprep
  | failed wrap hprep hcollect =>
      cases hcollect with
      | rejected hrecord => exact absurd hrecord hfits.record_ne_error
      | unexpected => exact ⟨_, rfl⟩
      | panicked _ _ hexec =>
          rw [Requests.executeAll_panics hexec]
          exact ⟨_, rfl⟩

end Execution

namespace Replica

variable {p : Params} {order : List Request}

theorem processViewMessage_of_notTaken {m : CertifiedMessage} {s : Replica} {e : Fault}
    {x : Execution} (happ : s.Applicable m) (htake : Execution.take m s.execution = .error e x) :
    processViewMessage p order m s = .error (Fault.wrap .failedToApply e) (s.attempt m x) := by
  unfold processViewMessage attempt viewFor
  rw [EStateM.bind_apply, EStateM.get_apply]
  simp only [happ.messageView]
  by_cases hnv : m.kind = .newView
  · simp only [if_pos hnv, if_neg (UInt64.not_le.mpr (happ.newView hnv)), EStateM.bind_apply,
      EStateM.set_apply, ne_eq, not_true_eq_false, if_false, EStateM.adaptExcept_apply,
      applyPeerMessage_eq, htake]
  · simp only [if_neg hnv, gt_iff_lt, if_neg (UInt64.not_lt.mpr (happ.other hnv)),
      EStateM.bind_apply, ne_eq, not_true_eq_false, if_false, EStateM.adaptExcept_apply,
      applyPeerMessage_eq, htake]

/-- A message in sequence fails as `processViewMessage` does. -/
theorem processCertifiedMessage_of_error {m : CertifiedMessage} {s s' : Replica} {e : Fault}
    (hnext : s.Next m) (hkind : m.kind ≠ .viewChange)
    (h : processViewMessage p order m s = .error e s') :
    processCertifiedMessage p order m s = .error e s' := by
  unfold processCertifiedMessage
  rw [EStateM.bind_apply, EStateM.get_apply]
  have heq : m.counter = s.lastUI m.replicaID + 1 := hnext
  simp only [← heq, UInt64.lt_irrefl, gt_iff_lt, if_false]
  cases m with
  | viewChange vc => exact absurd rfl hkind
  | _ => exact EStateM.bind_of_error h

theorem processCertifiedMessage_of_notTaken {m : CertifiedMessage} {s : Replica} {e : Fault}
    {x : Execution} (happ : s.Applicable m) (htake : Execution.take m s.execution = .error e x) :
    processCertifiedMessage p order m s =
      .error (Fault.wrap .failedToApply e) (s.attempt m x) :=
  processCertifiedMessage_of_error happ.next (CertifiedMessage.kind_of_messageView happ.messageView)
    (processViewMessage_of_notTaken happ htake)

/-- What `processMessage` returns and leaves behind when a message cannot be taken into account. -/
theorem processMessage_of_notTaken {m : CertifiedMessage} {s : Replica} {e : Fault}
    {x : Execution} (happ : s.Applicable m) (htake : Execution.take m s.execution = .error e x) :
    processMessage p order (.certified m) s =
      .error (Fault.wrap .failedToApply e) (s.attempt m x) := by
  unfold processMessage
  exact EStateM.bind_of_error (processCertifiedMessage_of_notTaken happ htake)

/-- A panic while a message is taken into account is a panic of `processMessage`. -/
theorem ne_panic_of_live {m : CertifiedMessage} {s : Replica} {e : Fault} {x : Execution}
    (hlive : ∀ q r, processMessage p order (.certified m) s ≠ .error (.panic q) r)
    (happ : s.Applicable m) (htake : Execution.take m s.execution = .error e x) (q : Panic) :
    e ≠ .panic q := by
  rintro rfl
  exact hlive q _ (processMessage_of_notTaken happ htake)

end Replica

end MinBFT
