import MinBFT.Taking
import MinBFT.WellFormed

/-!
# What has been handled and processed

The certified messages of one replica are processed in the order of their counters, without gaps,
so that for every message handled the one with its counter has been processed. Handling a request
captures it.
-/

namespace MinBFT

namespace Requests

theorem Steps.lastCapturedSeq {s s' : Requests} (h : Steps s s') (id : UInt32) :
    (s'.clients id).lastCapturedSeq = (s.clients id).lastCapturedSeq := by
  induction h with
  | refl => rfl
  | tail _ hstep ih =>
      rw [← ih]
      cases hstep with
      | @prepared r s _ _ =>
          by_cases hid : id = r.clientID
          · subst hid
            simp [markPrepared]
          · simp [markPrepared, hid]
      | @delivered r s _ _ =>
          by_cases hid : id = r.clientID
          · subst hid
            simp [markDelivered]
          · simp [markDelivered, hid]

theorem unprepareReqs_lastCapturedSeq (s : Requests) (id : UInt32) :
    (s.unprepareReqs.clients id).lastCapturedSeq = (s.clients id).lastCapturedSeq := by
  rw [s.unprepared_unprepareReqs.clients]
  split_ifs <;> rfl

theorem captureReq_cases (r : Request) (s : Requests) :
    (r.sequence ≤ (s.clients r.clientID).lastCapturedSeq ∧ s.captureReq r = none) ∨
      (s.clients r.clientID).lastCapturedSeq < r.sequence ∧
        s.captureReq r = some { s.setClient r.clientID { s.clients r.clientID with
            lastCapturedSeq := r.sequence, lastReleasedSeq := r.sequence } with
          pendingReqs := s.pendingReqs.add r } := by
  unfold captureReq SeqState.captureRequestSeq
  by_cases hold : r.sequence ≤ (s.clients r.clientID).lastCapturedSeq
  · rw [if_pos hold]
    exact .inl ⟨hold, rfl⟩
  · rw [if_neg hold]
    exact .inr ⟨UInt64.not_le.mp hold, rfl⟩

theorem captureReq_lastCapturedSeq {r : Request} {s s' : Requests} (h : s.captureReq r = some s')
    (id : UInt32) : (s.clients id).lastCapturedSeq ≤ (s'.clients id).lastCapturedSeq ∧
      (id = r.clientID → (s'.clients id).lastCapturedSeq = r.sequence) := by
  rcases captureReq_cases r s with ⟨-, heq⟩ | ⟨hnew, heq⟩
  · rw [heq] at h
    cases h
  · rw [heq] at h
    cases h
    by_cases hid : id = r.clientID
    · subst hid
      simp [UInt64.le_of_lt hnew]
    · simp [hid]

end Requests

namespace Replica

variable {p : Params} {order : List Request} {C : Replica → Message → Prop}

def Leaves (p : Params) (s : Replica) : Message → Prop
  | .reqViewChange rvc => s.viewChangeCert p rvc ≠ none ∧ s.expectedView < rvc.newView
  | _ => False

instance (s : Replica) (m : Message) : Decidable (s.Leaves p m) := by
  cases m <;> unfold Leaves <;> infer_instance

/-- What processing a message does to the requests. -/
theorem Transition.requests_cases {m : Message} {s s' : Replica} (h : Transition p order m s s') :
    (∃ r, m = .request r ∧
        s.execution.requests.captureReq r = some s'.execution.requests) ∨
      Requests.Steps s.execution.requests s'.execution.requests ∨
      s.Leaves p m ∧ s'.execution.requests = s.execution.requests.unprepareReqs := by
  cases h with
  | captured hcap => exact .inl ⟨_, rfl, hcap⟩
  | requested hcap => exact .inl ⟨_, rfl, hcap⟩
  | failed happ htake => exact .inr (.inl (Transition.taken happ htake).requests_steps)
  | applied happ htake => exact .inr (.inl (Transition.taken happ htake).requests_steps)
  | leftView hcert hlt =>
      exact .inr (.inr ⟨⟨by rw [hcert]; exact Option.some_ne_none _, hlt⟩, rfl⟩)
  | _ => exact .inr (.inl .refl)

/-- Sequence numbers once captured stay captured. -/
theorem Transition.lastCapturedSeq_le {m : Message} {s s' : Replica}
    (h : Transition p order m s s') (id : UInt32) :
    (s.execution.requests.clients id).lastCapturedSeq ≤
      (s'.execution.requests.clients id).lastCapturedSeq := by
  rcases h.requests_cases with ⟨r, -, hcap⟩ | hsteps | ⟨-, heq⟩
  · exact (Requests.captureReq_lastCapturedSeq hcap id).1
  · exact UInt64.le_of_eq (hsteps.lastCapturedSeq id).symm
  · rw [heq]
    exact UInt64.le_of_eq (Requests.unprepareReqs_lastCapturedSeq _ id).symm

/-- Only a message next in sequence moves `lastUI`. -/
theorem Transition.lastUI_cases {m : Message} {s s' : Replica} (h : Transition p order m s s') :
    (s'.lastUI = s.lastUI ∧ s'.processed = s.processed) ∨
      ∃ c, m = .certified c ∧ s.Next c ∧ s'.handled = s.handled ++ [m] ∧
        s'.lastUI = Function.update s.lastUI c.replicaID c.counter ∧
        s'.processed = s.processed ++ [c] := by
  cases h with
  | viewChange hnext => exact .inr ⟨_, rfl, hnext, rfl, rfl, rfl⟩
  | newView hnext => exact .inr ⟨_, rfl, hnext, rfl, rfl, rfl⟩
  | dropped hnext => exact .inr ⟨_, rfl, hnext, rfl, rfl, rfl⟩
  | skipped hnext => exact .inr ⟨_, rfl, hnext, rfl, rfl, rfl⟩
  | applied happ => exact .inr ⟨_, rfl, happ.next, rfl, rfl, rfl⟩
  | _ => exact .inl ⟨rfl, rfl⟩

theorem Transition.handled_cases {m : Message} {s s' : Replica} (h : Transition p order m s s') :
    s'.handled = s.handled ∨ s'.handled = s.handled ++ [m] ∧
      (∀ c, m = .certified c → c.counter ≤ s'.lastUI c.replicaID) ∧
      ∀ r, m = .request r →
        r.sequence ≤ (s'.execution.requests.clients r.clientID).lastCapturedSeq := by
  have hui : ∀ {t : Replica} {c : CertifiedMessage},
      c.counter ≤ (t.advance c).lastUI c.replicaID := fun {t c} => by simp [advance]
  have hcap : ∀ {r : Request} {requests : Requests},
      s.execution.requests.captureReq r = some requests →
      r.sequence ≤ (requests.clients r.clientID).lastCapturedSeq := fun h =>
    UInt64.le_of_eq ((Requests.captureReq_lastCapturedSeq h _).2 rfl).symm
  cases h with
  | refused => exact .inl rfl
  | failed => exact .inl rfl
  | @known r _ hnone =>
      refine .inr ⟨rfl, by simp, ?_⟩
      rintro _ ⟨⟩
      rcases Requests.captureReq_cases r s.execution.requests with ⟨hle, -⟩ | ⟨-, heq⟩
      · exact hle
      · rw [heq] at hnone
        cases hnone
  | captured hsome => exact .inr ⟨rfl, by simp, by rintro _ ⟨⟩; exact hcap hsome⟩
  | requested hsome => exact .inr ⟨rfl, by simp, by rintro _ ⟨⟩; exact hcap hsome⟩
  | old hold =>
      refine .inr ⟨rfl, ?_, by simp⟩
      rintro _ ⟨⟩
      exact UInt64.le_of_lt_add_one hold
  | reqViewChange => exact .inr ⟨rfl, by simp, by simp⟩
  | leftView => exact .inr ⟨rfl, by simp, by simp⟩
  | _ => exact .inr ⟨rfl, by rintro _ ⟨⟩; exact hui, by simp⟩

theorem Transition.lastUI_le {m : Message} {s s' : Replica} (h : Transition p order m s s')
    (hpos : ∀ c, m = .certified c → c.counter ≠ 0) (r : UInt32) : s.lastUI r ≤ s'.lastUI r := by
  rcases h.lastUI_cases with ⟨heq, -⟩ | ⟨c, rfl, hnext, -, heq, -⟩
  · rw [heq]
    exact UInt64.le_refl _
  · rw [heq]
    by_cases hr : r = c.replicaID
    · subst hr
      have hne := hpos c rfl
      rw [Function.update_self, UInt64.le_iff_toNat_le,
        (UInt64.eq_add_one_iff hne).mp hnext]
      exact Nat.le_succ _
    · rw [Function.update_of_ne hr]
      exact UInt64.le_refl _

/-- The messages of one replica that have been processed. -/
def processedOf (r : UInt32) (s : Replica) : List CertifiedMessage :=
  s.processed.filter (·.replicaID == r)

structure History (p : Params) (s : Replica) : Prop where
  sequence : ∀ r, (s.processedOf r).map (·.counter.toNat) = List.range' 1 (s.lastUI r).toNat
  wellFormed : ∀ m ∈ s.handled, DeeplyWellFormed p m
  embedded : ∀ m ∈ s.handled, ∀ x ∈ m.embedded, x ∈ s.handled
  certified : ∀ c, .certified c ∈ s.handled → c.counter ≤ s.lastUI c.replicaID
  request : ∀ r, .request r ∈ s.handled →
    r.sequence ≤ (s.execution.requests.clients r.clientID).lastCapturedSeq
  processed : ∀ c ∈ s.processed, .certified c ∈ s.handled

theorem History.transition {m : Message} {s s' : Replica} (h : History p s)
    (hm : DeeplyWellFormed p m) (hadmits : s.Admits p m) (htrans : Transition p order m s s') :
    History p s' := by
  have hpos : ∀ c, m = .certified c → c.counter ≠ 0 := by
    rintro c rfl
    exact hm.self.2.1.1
  have hhandled := htrans.handled_prefix.subset
  have hmem : ∀ x ∈ s'.handled, x ∈ s.handled ∨ x = m := by
    intro x hx
    rcases htrans.handled_cases with heq | ⟨heq, -⟩
    · exact .inl (heq ▸ hx)
    · rw [heq] at hx
      simpa using hx
  refine ⟨?_, ?_, ?_, ?_, ?_, ?_⟩
  · intro r
    rcases htrans.lastUI_cases with ⟨hlast, hproc⟩ | ⟨c, rfl, hnext, -, hlast, hproc⟩
    · rw [hlast, processedOf, hproc]
      exact h.sequence r
    · rw [hlast, processedOf, hproc, List.filter_append, List.map_append]
      by_cases hr : r = c.replicaID
      · subst hr
        have hc := (UInt64.eq_add_one_iff (hpos c rfl)).mp hnext
        have hold := h.sequence c.replicaID
        rw [processedOf] at hold
        rw [hold, Function.update_self, hc, List.range'_concat]
        simp [hc, Nat.add_comm]
      · have hold := h.sequence r
        rw [processedOf] at hold
        rw [hold, Function.update_of_ne hr]
        simp [Ne.symm hr]
  · intro x hx
    rcases hmem x hx with hx | rfl
    · exact h.wellFormed x hx
    · exact hm
  · intro x hx y hy
    rcases hmem x hx with hx | rfl
    · exact hhandled (h.embedded x hx y hy)
    · exact hhandled (hadmits.embedded y hy)
  · intro c hc
    rcases htrans.handled_cases with heq | ⟨heq, hui, -⟩
    · exact UInt64.le_trans (h.certified c (heq ▸ hc)) (htrans.lastUI_le hpos _)
    · rw [heq] at hc
      rcases List.mem_append.mp hc with hc | hc
      · exact UInt64.le_trans (h.certified c hc) (htrans.lastUI_le hpos _)
      · exact hui c (List.mem_singleton.mp hc).symm
  · intro r hr
    rcases htrans.handled_cases with heq | ⟨heq, -, hreq⟩
    · exact UInt64.le_trans (h.request r (heq ▸ hr)) (htrans.lastCapturedSeq_le _)
    · rw [heq] at hr
      rcases List.mem_append.mp hr with hr | hr
      · exact UInt64.le_trans (h.request r hr) (htrans.lastCapturedSeq_le _)
      · exact hreq r (List.mem_singleton.mp hr).symm
  · intro c hc
    rcases htrans.lastUI_cases with ⟨-, hproc⟩ | ⟨c', rfl, -, hhand, -, hproc⟩
    · exact hhandled (h.processed c (hproc ▸ hc))
    · rw [hproc] at hc
      rcases List.mem_append.mp hc with hc | hc
      · exact hhandled (h.processed c hc)
      · rw [hhand, List.mem_singleton.mp hc]
        exact List.mem_append_right _ List.mem_cons_self

theorem History.requestViewChange {s : Replica} {newView : UInt64} (h : History p s) :
    History p (s.requestViewChange p newView) := by
  unfold Replica.requestViewChange
  split_ifs
  · exact h
  · exact ⟨h.sequence, h.wellFormed, h.embedded, h.certified, h.request, h.processed⟩
  · exact ⟨h.sequence, h.wellFormed, h.embedded, h.certified, h.request, h.processed⟩

theorem Run.history {s : Replica} (hid : p.id < p.config.n) (h : s.Run p C) : History p s := by
  induction h with
  | init =>
      refine ⟨fun _ => rfl, ?_, ?_, ?_, ?_, ?_⟩ <;> intro _ hx <;>
        exact absurd hx List.not_mem_nil
  | process hrun hadmits _ htrans _ ih =>
      exact ih.transition (hrun.admitted hid hadmits) hadmits htrans
  | timeout _ _ _ ih => exact ih.requestViewChange

/-- The message with the counter of a handled one has been processed. -/
theorem History.exists_processed {s : Replica} (h : History p s) {c : CertifiedMessage}
    (hc : .certified c ∈ s.handled) :
    ∃ c' ∈ s.processed, c'.replicaID = c.replicaID ∧ c'.counter = c.counter := by
  have hne := (h.wellFormed _ hc).self.2.1.1
  have hle := UInt64.le_iff_toNat_le.mp (h.certified c hc)
  have hpos : c.counter.toNat ≠ 0 := fun hz => hne (UInt64.toNat_inj.mp hz)
  have hmem : c.counter.toNat ∈ (s.processedOf c.replicaID).map (·.counter.toNat) := by
    rw [h.sequence, List.mem_range'_1]
    omega
  obtain ⟨c', hc', heq⟩ := List.mem_map.mp hmem
  obtain ⟨hproc, hr⟩ := List.mem_filter.mp hc'
  exact ⟨c', hproc, beq_iff_eq.mp hr, UInt64.toNat_inj.mp heq⟩

/-- With unique UIs it has the same content. -/
theorem History.exists_sameAuthen {s : Replica} (h : History p s) (huniq : UniqueUI p.crypto)
    {c : CertifiedMessage} (hc : .certified c ∈ s.handled) :
    ∃ c' ∈ s.processed, SameAuthen p.crypto.sha256 c' c := by
  obtain ⟨c', hproc, hid, hcv⟩ := h.exists_processed hc
  refine ⟨c', hproc, huniq.sameAuthen ?_ (h.wellFormed _ hc).self.2.1 hid hcv⟩
  exact (h.wellFormed _ (h.processed c' hproc)).self.2.1

end Replica

/-- Only what is processed gets handled. -/
theorem Node.Stepped.handled_cases {p : Params} {s s' : Node} {l : Label}
    (h : Node.Stepped p s l s') {x : Message} (hx : x ∈ s'.replica.handled) :
    x ∈ s.replica.handled ∨ s.processing l = some x := by
  rcases h.replica_cases with heq | ⟨view, -, heq⟩ | ⟨m, order, hproc, heq, -⟩
  · rw [heq] at hx
    exact .inl hx
  · rw [heq, Replica.handled_requestViewChange] at hx
    exact .inl hx
  · rw [heq] at hx
    rcases (@Replica.processMessage_transition p order m s.replica).handled_cases with
      hsame | ⟨hmore, -⟩
    · rw [hsame] at hx
      exact .inl hx
    · rw [hmore] at hx
      rcases List.mem_append.mp hx with hx | hx
      · exact .inl hx
      · rw [List.mem_singleton.mp hx]
        exact .inr hproc

end MinBFT
