import MinBFT.InOrder

/-!
# Processing in the order of counters

Copies of one message arrive directly and inside other messages, and are handled concurrently. For
each replica, the certified messages whose processing has taken effect are nevertheless those with
the counters 1, 2, ..., one each and in this order.
-/

namespace MinBFT

theorem verifyUI_zero {crypto : Crypto} {m : CertifiedMessage} (h : m.counter = 0) :
    verifyUI crypto m = .error (.error .zeroCounter) := by
  simp [verifyUI, h, check, bind, Except.bind]

namespace Replica

variable {p : Params} {order : List Request} {s s' : Replica} {c : CertifiedMessage} {e : Fault}

structure Stays (s s' : Replica) : Prop where
  lastUI : s'.lastUI = s.lastUI
  processed : s'.processed = s.processed

/-- Why a message that is next in sequence can fail. -/
theorem Fails.of_next (h : s.Fails (.certified c) e) (hnext : s.Next c) :
    (c.kind ≠ .viewChange ∧ c.messageView = none) ∨
      (c.kind ≠ .newView ∧ ∃ w, c.messageView = some w ∧ s.currentView < w) ∨
      s.Applicable c ∧ ∃ e' x, Execution.take c s.execution = .error e' x := by
  cases h with
  | gap hgap => exact absurd hnext.symm (UInt64.ne_of_lt hgap)
  | noView hkind hview => exact .inl ⟨hkind, hview⟩
  | ahead _ hkind hview hgt => exact .inr (.inl ⟨hkind, _, hview, hgt⟩)
  | notTaken happ htake => exact .inr (.inr ⟨happ, _, _, htake⟩)

theorem Fails.not_viewChange {vc : ViewChange} (h : s.Fails (.certified (.viewChange vc)) e)
    (hnext : s.Next (.viewChange vc)) : False := by
  rcases h.of_next hnext with ⟨hkind, -⟩ | ⟨-, w, hview, -⟩ | ⟨happ, -⟩
  · exact hkind rfl
  · cases hview
  · cases happ.messageView

theorem Fails.not_dropped {w : UInt64} (h : s.Fails (.certified c) e) (hnext : s.Next c)
    (hview : c.messageView = some w) (hle : w ≤ s.currentView)
    (hdrop : c.kind ≠ .newView → w ≠ s.expectedView) : False := by
  rcases h.of_next hnext with ⟨-, hnone⟩ | ⟨-, w', hview', hlt⟩ | ⟨happ, -⟩
  · cases hnone.symm.trans hview
  · cases hview'.symm.trans hview
    exact UInt64.lt_irrefl _ (UInt64.lt_of_lt_of_le hlt hle)
  · cases happ.messageView.symm.trans hview
    by_cases hkind : c.kind = .newView
    · exact UInt64.lt_irrefl _ (UInt64.lt_of_lt_of_le (happ.newView hkind) hle)
    · exact hdrop hkind rfl

theorem Fails.not_skipped {nv : NewView} (h : s.Fails (.certified (.newView nv)) e)
    (hnext : s.Next (.newView nv)) (hne : nv.newView ≠ s.expectedView) : False := by
  rcases h.of_next hnext with ⟨-, hnone⟩ | ⟨hkind, -⟩ | ⟨happ, -⟩
  · cases hnone
  · exact hkind rfl
  · exact hne (Option.some.inj happ.messageView)

theorem Fails.not_applied {x : Execution} (h : s.Fails (.certified c) e) (happ : s.Applicable c)
    (htake : Execution.take c s.execution = .ok () x) : False := by
  rcases h.of_next happ.next with ⟨-, hnone⟩ | ⟨hkind, w, hview, hlt⟩ | ⟨-, e', x', htake'⟩
  · cases hnone.symm.trans happ.messageView
  · cases hview.symm.trans happ.messageView
    exact UInt64.lt_irrefl _ (UInt64.lt_of_lt_of_le hlt (happ.other hkind))
  · cases htake.symm.trans htake'

/-- What causes an error keeps the message from taking effect. -/
theorem Fails.stays {m : Message} (hfails : s.Fails m e) (h : Transition p order m s s') :
    Stays s s' := by
  cases h with
  | viewChange hnext => exact (hfails.not_viewChange hnext).elim
  | newView hnext => exact (hfails.not_viewChange hnext).elim
  | dropped hnext hview hle hdrop => exact (hfails.not_dropped hnext hview hle hdrop).elim
  | skipped hnext _ hne => exact (hfails.not_skipped hnext hne).elim
  | applied happ htake => exact (hfails.not_applied happ htake).elim
  | _ => exact ⟨rfl, rfl⟩

theorem stays_of_error {m : Message} (h : processMessage p order m s = .error e s') :
    Stays s s' := by
  have htrans := @processMessage_transition p order m s
  rw [h] at htrans
  exact (processMessage_fails h).stays htrans

/-- A message whose counter has been used already does not take effect. -/
theorem History.stays (h : History p s) {c' : CertifiedMessage} (hc' : c' ∈ s.processed)
    (hid : c'.replicaID = c.replicaID) (hcv : c'.counter = c.counter)
    (htrans : Transition p order (.certified c) s s') : Stays s s' := by
  rcases htrans.lastUI_cases with ⟨hlast, hproc⟩ | ⟨d, heq, hnext, -⟩
  · exact ⟨hlast, hproc⟩
  · cases heq
    have hhandled := h.processed c' hc'
    have hle := h.certified c' hhandled
    have hne := (h.wellFormed _ hhandled).self.2.1.1
    rw [hid, hcv] at hle
    have hnat := (UInt64.eq_add_one_iff (hcv ▸ hne)).mp hnext
    rw [UInt64.le_iff_toNat_le] at hle
    omega

/-- A message that skips a counter is refused. -/
theorem processMessage_of_gap (h : (s.lastUI c.replicaID).toNat + 1 < c.counter.toNat) :
    processMessage p order (.certified c) s = .error (.error .unexpectedUICounter) s := by
  have hnat : (s.lastUI c.replicaID + 1).toNat = (s.lastUI c.replicaID).toNat + 1 := by
    have := c.counter.toNat_lt
    rw [UInt64.toNat_add, UInt64.toNat_one]
    omega
  have hlt : s.lastUI c.replicaID + 1 < c.counter := by
    rw [UInt64.lt_iff_toNat_lt, hnat]
    exact h
  have hcert : processCertifiedMessage p order c s = .error (.error .unexpectedUICounter) s := by
    unfold processCertifiedMessage
    rw [EStateM.bind_apply, EStateM.get_apply]
    simp only [if_neg (UInt64.not_lt.mpr (UInt64.le_of_lt hlt)), gt_iff_lt, if_pos hlt]
    rfl
  unfold processMessage
  exact EStateM.bind_of_error hcert

end Replica

/-- The messages of a peer that take effect have the counters 1, 2, ..., in this order. A counter
already used or ahead of the next one has no effect, an error leaves the sequence where it is, and
what comes from peers has a verified UI with a counter other than zero. -/
theorem Node.processed_in_sequence {p : Params} {s : Node} (hid : p.id < p.config.n)
    (h : s.Reachable p fun _ _ => True) :
    (∀ r, (s.replica.processedOf r).map (·.counter.toNat) =
        List.range' 1 (s.replica.lastUI r).toNat) ∧
      (∀ order, ∀ c ∈ s.replica.processed, ∀ m : CertifiedMessage,
        c.replicaID = m.replicaID → c.counter = m.counter →
        s.replica.Stays (Replica.processMessage p order (.certified m) s.replica).state) ∧
      (∀ order (m : CertifiedMessage),
        (s.replica.lastUI m.replicaID).toNat + 1 < m.counter.toNat →
        Replica.processMessage p order (.certified m) s.replica =
          .error (.error .unexpectedUICounter) s.replica) ∧
      (∀ order m e r, Replica.processMessage p order m s.replica = .error e r →
        s.replica.Stays r) ∧
      (∀ i order m, s.processing (.run i order) = some (.certified m) →
        verifyUI p.crypto m = .ok ()) ∧
      ∀ m : CertifiedMessage, m.counter = 0 →
        verifyUI p.crypto m = .error (.error .zeroCounter) := by
  have hist := h.run.history hid
  refine ⟨hist.sequence, ?_, fun _ _ hgap => Replica.processMessage_of_gap hgap,
    fun _ _ _ _ herr => Replica.stays_of_error herr, ?_, fun _ hzero => verifyUI_zero hzero⟩
  · intro order c hc m hr hcv
    exact hist.stays hc hr hcv (Replica.processMessage_transition _ _)
  · intro i order m hproc
    obtain ⟨t, ht, tasks, htasks⟩ := thread_of_processing hproc
    exact verifyUI_eq_ok.mpr ((h.linked.2.threads t ht).admits htasks).2.self.uiValid

namespace Concrete

/-- The second backup's Commit has been processed, and a copy of it has no effect. -/
theorem processed_in_sequence_backup : ∃ s : Node,
    s.Reachable backupParams (fun _ _ => True) ∧
      (s.replica.processedOf 2).map (·.counter.toNat) = [1] ∧
      s.replica.Stays (Replica.processMessage backupParams [] (.certified (commit 2 proposal 1))
        s.replica).state := by
  have h : ((Node.init backupParams).exec backupParams (fun _ _ => true)
      (handling 0 (.certified proposal) ++ handling 1 (.certified (commit 2 proposal 1)))).any
      (fun s => s.replica.lastUI 2 == 1) = true := by
    decide +kernel
  obtain ⟨s, hreach, hs⟩ := Node.exists_reachable backupParams (fun _ _ _ => trivial) h
  obtain ⟨hseq, hcopy, -⟩ := Node.processed_in_sequence (by decide) hreach
  have hone := hseq 2
  rw [beq_iff_eq.mp hs] at hone
  refine ⟨s, hreach, hone, ?_⟩
  obtain ⟨c, hc, hcv⟩ : ∃ c ∈ s.replica.processedOf 2, c.counter.toNat = 1 :=
    List.mem_map.mp (hone ▸ List.mem_cons_self)
  obtain ⟨hc, hid⟩ := List.mem_filter.mp hc
  exact hcopy [] c hc _ (beq_iff_eq.mp hid) (UInt64.toNat_inj.mp hcv)

end Concrete

end MinBFT
