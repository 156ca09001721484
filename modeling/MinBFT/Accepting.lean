import MinBFT.Counting

/-!
# Commitments over a run

A commitment is recorded only in the view the replica expects, and expected views only grow. So the
invariant of acceptor and counter holds in every state of a run.
-/

namespace MinBFT

namespace Execution

theorem Collected.commitments_cases {m : CertifiedMessage} {w : UInt64} {s : Execution}
    {res : EStateM.Result Fault Execution Unit} (h : Collected m w s res) :
    res.state.commitments = s.commitments ∨
      ∃ done, s.commitments.record m w = .ok (done, res.state.commitments) := by
  cases h with
  | rejected => exact .inl rfl
  | counted hrecord => exact .inr ⟨_, hrecord⟩
  | unexpected hrecord => exact .inr ⟨_, hrecord⟩
  | panicked hrecord => exact .inr ⟨_, hrecord⟩
  | executed hrecord => exact .inr ⟨_, hrecord⟩

theorem Taken.commitments_cases {m : CertifiedMessage} {w : UInt64} {s : Execution}
    {res : EStateM.Result Fault Execution Unit} (h : Taken m w s res) :
    res.state.commitments = s.commitments ∨
      ∃ done, s.commitments.record m w = .ok (done, res.state.commitments) := by
  cases h with
  | unprepared => exact .inl rfl
  | failed _ _ hcollect => exact hcollect.commitments_cases
  | taken _ hcollect => exact hcollect.commitments_cases

/-- A message taken into account has had its commitment recorded. -/
theorem Taken.recorded {m : CertifiedMessage} {w : UInt64} {x y : Execution}
    (h : Taken m w x (.ok () y)) :
    ∃ done, x.commitments.record m w = .ok (done, y.commitments) := by
  cases h with
  | taken _ hcollect =>
      cases hcollect with
      | counted hrecord => exact ⟨_, hrecord⟩
      | executed hrecord => exact ⟨_, hrecord⟩

end Execution

namespace Replica

variable {p : Params} {order : List Request} {C : Replica → Message → Prop}

theorem Transition.expectedView_le {m : Message} {s s' : Replica}
    (h : Transition p order m s s') : s.expectedView ≤ s'.expectedView := by
  cases h with
  | leftView _ hlt => exact UInt64.le_of_lt hlt
  | _ => exact UInt64.le_refl _

/-- Commitments change only when one is recorded in the expected view. -/
theorem Transition.commitments_cases {m : Message} {s s' : Replica}
    (h : Transition p order m s s') :
    s'.execution.commitments = s.execution.commitments ∨
      ∃ c done, m = .certified c ∧ s.Applicable c ∧ s'.expectedView = s.expectedView ∧
        s.execution.commitments.record c s.expectedView =
          .ok (done, s'.execution.commitments) := by
  cases h with
  | failed happ htake =>
      exact (Transition.taken happ htake).commitments_cases.imp_right fun ⟨done, hrec⟩ =>
        ⟨_, done, rfl, happ, rfl, hrec⟩
  | applied happ htake =>
      exact (Transition.taken happ htake).commitments_cases.imp_right fun ⟨done, hrec⟩ =>
        ⟨_, done, rfl, happ, rfl, hrec⟩
  | _ => exact .inl rfl

end Replica

theorem DeeplyWellFormed.proposed_counter_ne {p : Params} {m : CertifiedMessage}
    (h : DeeplyWellFormed p (.certified m)) : m.proposed.counter ≠ 0 :=
  h.proposed.self.2.1.1

/-- Whoever commits in a view commits to a proposal of its primary. -/
theorem DeeplyWellFormed.isPrimary_proposed {p : Params} {m : CertifiedMessage} {w : UInt64}
    (h : DeeplyWellFormed p (.certified m)) (hview : m.messageView = some w) :
    isPrimary w m.proposed.replicaID p.config.n = true := by
  have hprop := h.proposed.self.2.2
  unfold CertifiedMessage.messageView at hview
  cases hm : m.proposed with
  | prepare q =>
      rw [hm] at hprop hview
      cases hview
      exact hprop
  | newView nv =>
      rw [hm] at hprop hview
      cases hview
      exact hprop.2
  | _ =>
      rw [hm] at hview
      cases hview

namespace Replica

variable {p : Params} {order : List Request} {C : Replica → Message → Prop}

theorem Run.tracks {s : Replica} (hid : p.id < p.config.n) (htol : p.config.Tolerant)
    (h : s.Run p C) :
    s.execution.commitments.Tracks p.config.n p.config.commitCertSize.toNat s.expectedView := by
  induction h with
  | init => exact Commitments.tracks_init (Config.commitCertSize_pos htol)
  | @process s s' m order hrun hadmits _ htrans _ ih =>
      rcases htrans.commitments_cases with heq | ⟨c, done, rfl, happ, hexp, hrec⟩
      · rw [heq]
        exact ih.mono htrans.expectedView_le
      · have hwf := hrun.admitted hid hadmits
        rw [hexp]
        exact ih.record hwf.self.1 happ.messageView hwf.proposed_counter_ne
          (Commitments.recorded ih.bound hrec)
  | timeout _ _ _ ih => simpa using ih

/-- Every commitment accepted is well-formed through and through. -/
theorem Run.accepted_wellFormed {s : Replica} (hid : p.id < p.config.n)
    (htol : p.config.Tolerant) (h : s.Run p C) :
    ∀ c ∈ s.execution.commitments.accepted, DeeplyWellFormed p (.certified c) := by
  induction h with
  | init => exact fun _ hc => absurd hc List.not_mem_nil
  | @process s s' m order hrun hadmits _ htrans _ ih =>
      rcases htrans.commitments_cases with heq | ⟨c, done, rfl, happ, -, hrec⟩
      · rw [heq]
        exact ih
      · intro c' hc'
        rw [(Commitments.recorded (hrun.tracks hid htol).bound hrec).accepted] at hc'
        rcases List.mem_append.mp hc' with hc' | hc'
        · exact ih c' hc'
        · cases List.mem_singleton.mp hc'
          exact hrun.admitted hid hadmits
  | timeout _ _ _ ih => simpa using ih

end Replica

theorem Node.Stepped.expectedView_le {p : Params} {s s' : Node} {l : Label}
    (h : Node.Stepped p s l s') : s.replica.expectedView ≤ s'.replica.expectedView := by
  rcases h.replica_cases with heq | ⟨view, -, heq⟩ | ⟨m, order, -, heq, -⟩
  · rw [heq]
    exact UInt64.le_refl _
  · rw [heq, Replica.expectedView_requestViewChange]
    exact UInt64.le_refl _
  · rw [heq]
    exact (@Replica.processMessage_transition p order m s.replica).expectedView_le

end MinBFT
