import MinBFT.Accepting
import MinBFT.Determined
import MinBFT.Lib.Fresh

/-!
# Delivering operations

An operation is delivered when its request is retired, and a request is retired only if its sequence
number exceeds all of its client's requests retired before. What has been delivered is therefore
determined by the sequence of requests executed so far, repetitions included.
-/

namespace MinBFT

/-- What a client, a proposal and a certificate have to agree on in a request. -/
abbrev Content := UInt32 × UInt64 × Bytes

/-- What is delivered out of a sequence of requests to execute, given the last sequence numbers
delivered before. -/
abbrev freshContents : (UInt32 → ℕ) → List Content → List Content :=
  Fresh.fresh (fun c => c.1) (fun c => c.2.1.toNat)

abbrev lastSeqs : (UInt32 → ℕ) → List Content → UInt32 → ℕ :=
  Fresh.lastAfter (fun c => c.1) (fun c => c.2.1.toNat)

theorem seq_le_lastSeqs {last : UInt32 → ℕ} {h : List Content} {c : Content} (hc : c ∈ h) :
    c.2.1.toNat ≤ lastSeqs last h c.1 :=
  @Fresh.seq_le_lastAfter Content UInt32 _ (fun c => c.1) (fun c => c.2.1.toNat) last h c hc

namespace Requests

def retired (s : Requests) (id : UInt32) : ℕ := (s.clients id).lastRetiredSeq.toNat

/-- What has been delivered comes from executing the requests `h` one after the other. -/
structure Delivered (s : Requests) (h : List Content) : Prop where
  delivered : s.delivered.map Request.content = freshContents (fun _ => 0) h
  retired : s.retired = lastSeqs (fun _ => 0) h

theorem Delivered.congr {s s' : Requests} {h : List Content} (hs : Delivered s h)
    (hdel : s'.delivered = s.delivered) (hret : s'.retired = s.retired) : Delivered s' h :=
  ⟨hdel ▸ hs.delivered, hret ▸ hs.retired⟩

/-- Executing what is covered by the numbers retired makes no difference. -/
theorem delivered_append_iff {s : Requests} {h l : List Content}
    (hle : ∀ c ∈ l, c.2.1.toNat ≤ lastSeqs (fun _ => 0) h c.1) :
    Delivered s (h ++ l) ↔ Delivered s h := by
  obtain ⟨hnil, hsame⟩ := Fresh.fresh_eq_nil hle
  have hfresh : freshContents (fun _ => 0) (h ++ l) = freshContents (fun _ => 0) h := by
    rw [freshContents, Fresh.fresh_append, hnil, List.append_nil]
  have hlast : lastSeqs (fun _ => 0) (h ++ l) = lastSeqs (fun _ => 0) h := by
    rw [lastSeqs, Fresh.lastAfter_append, hsame]
  constructor
  · exact fun ⟨hdel, hret⟩ => ⟨hdel.trans hfresh, hret.trans hlast⟩
  · exact fun ⟨hdel, hret⟩ => ⟨hdel.trans hfresh.symm, hret.trans hlast.symm⟩

/-- What executing some of the requests of a proposal amounts to. -/
theorem Delivered.absorb {s : Requests} {l r l' d : List Content} (hs : Delivered s (l ++ d))
    (h : Fresh.Absorbs l r l') (hd : d <+: r) :
    ∃ l'', l'' <+: l' ∧ Delivered s l'' ∧ (d = r → l'' = l') := by
  obtain ⟨l'', hpre, hfresh, hlast, heq⟩ :=
    h.fresh_append (fun c => c.1) (fun c => c.2.1.toNat) (fun _ => 0) hd
  exact ⟨l'', hpre, ⟨hs.delivered.trans hfresh, hs.retired.trans hlast⟩, heq⟩

theorem retired_markDelivered (r : Request) (s : Requests) :
    (s.markDelivered r).retired = Function.update s.retired r.clientID r.sequence.toNat := by
  funext id
  unfold retired markDelivered
  by_cases hid : id = r.clientID
  · subst hid
    simp
  · simp [hid]

theorem Delivered.executeRequest {s : Requests} {h : List Content} (hs : Delivered s h)
    (r : Request) :
    (∃ s', executeRequest r s = .ok () s' ∧ Delivered s' (h ++ [r.content])) ∨
      (s.clients r.clientID).lastPreparedSeq < r.sequence ∧
        ∃ e, executeRequest r s = .error e s := by
  have hlast : lastSeqs (fun _ => 0) h r.clientID = (s.clients r.clientID).lastRetiredSeq.toNat :=
    (congrFun hs.retired r.clientID).symm
  rcases executeRequest_cases r s with ⟨hold, heq⟩ | ⟨hnew, ⟨hno, heq⟩ | ⟨-, heq⟩⟩
  · refine .inl ⟨s, heq, ?_⟩
    refine (delivered_append_iff fun c hc => ?_).mpr hs
    cases List.mem_singleton.mp hc
    exact hlast ▸ UInt64.le_iff_toNat_le.mp hold
  · exact .inr ⟨hno, _, heq⟩
  · refine .inl ⟨_, heq, ?_⟩
    have hlt : lastSeqs (fun _ => 0) h r.content.1 < r.content.2.1.toNat :=
      hlast ▸ UInt64.lt_iff_toNat_lt.mp hnew
    refine ⟨?_, ?_⟩
    · rw [freshContents, Fresh.fresh_append, Fresh.fresh_cons_of_lt [] hlt, markDelivered,
        List.map_append, hs.delivered]
      rfl
    · rw [lastSeqs, Fresh.lastAfter_append, retired_markDelivered, hs.retired]
      exact (if_neg (Nat.not_le.mpr hlt)).symm

/-- Executing requests one after the other, up to the first that has not been prepared. -/
theorem Delivered.executeAll {s : Requests} {h : List Content} (hs : Delivered s h)
    (reqs : List Request) :
    ∃ s', ((executeAll reqs s = .ok () s' ∧ Delivered s' (h ++ reqs.map Request.content)) ∨
      ∃ e done, executeAll reqs s = .error e s' ∧ done <+: reqs ∧
        Delivered s' (h ++ done.map Request.content)) := by
  induction reqs generalizing s h with
  | nil => exact ⟨s, .inl ⟨rfl, by simpa using hs⟩⟩
  | cons r reqs ih =>
      rw [Requests.executeAll, EStateM.bind_apply]
      rcases hs.executeRequest r with ⟨s₁, heq, hs₁⟩ | ⟨-, e, heq⟩
      · rw [heq]
        obtain ⟨s', ⟨heq', hs'⟩ | ⟨e, done, heq', hpre, hs'⟩⟩ := ih hs₁
        · exact ⟨s', .inl ⟨heq', by simpa using hs'⟩⟩
        · exact ⟨s', .inr ⟨e, r :: done, heq', List.cons_prefix_cons.mpr ⟨rfl, hpre⟩,
            by simpa using hs'⟩⟩
      · rw [heq]
        exact ⟨s, .inr ⟨e, [], rfl, List.nil_prefix, by simpa using hs⟩⟩

theorem executeRequest_lastPreparedSeq (r : Request) (s : Requests) (id : UInt32) :
    ((executeRequest r s).state.clients id).lastPreparedSeq =
      (s.clients id).lastPreparedSeq := by
  rcases executeRequest_cases r s with ⟨-, heq⟩ | ⟨-, ⟨-, heq⟩ | ⟨-, heq⟩⟩
  · rw [heq]
    rfl
  · rw [heq]
    rfl
  · rw [heq]
    by_cases hid : id = r.clientID
    · subst hid
      simp [EStateM.Result.state, markDelivered]
    · simp [EStateM.Result.state, markDelivered, hid]

theorem executeAll_lastPreparedSeq (reqs : List Request) (s : Requests) (id : UInt32) :
    ((executeAll reqs s).state.clients id).lastPreparedSeq = (s.clients id).lastPreparedSeq := by
  induction reqs generalizing s with
  | nil => rfl
  | cons r reqs ih =>
      have h := executeRequest_lastPreparedSeq r s id
      rw [executeAll, EStateM.bind_apply]
      cases hres : executeRequest r s with
      | ok b s' =>
          rw [hres] at h
          exact (ih s').trans h
      | error e s' =>
          rw [hres] at h
          exact h

/-- Requests that have all been prepared are executed without a panic. -/
theorem executeAll_ok {reqs : List Request} {s : Requests}
    (hprep : ∀ r ∈ reqs, r.sequence ≤ (s.clients r.clientID).lastPreparedSeq) :
    ∃ s', executeAll reqs s = .ok () s' := by
  induction reqs generalizing s with
  | nil => exact ⟨s, rfl⟩
  | cons r reqs ih =>
      have h := executeRequest_lastPreparedSeq r s
      have hr := hprep r List.mem_cons_self
      rw [executeAll, EStateM.bind_apply]
      have hok : ∃ s', executeRequest r s = .ok () s' := by
        rcases executeRequest_cases r s with ⟨-, heq⟩ | ⟨-, ⟨hno, -⟩ | ⟨-, heq⟩⟩
        · exact ⟨_, heq⟩
        · exact absurd (UInt64.lt_of_lt_of_le hno hr) (UInt64.lt_irrefl _)
        · exact ⟨_, heq⟩
      obtain ⟨s', heq⟩ := hok
      rw [heq] at h ⊢
      refine ih fun x hx => ?_
      have hx' := hprep x (.tail r hx)
      rw [← h x.clientID] at hx'
      exact hx'

theorem markPrepared_retired (r : Request) (s : Requests) :
    (s.markPrepared r).retired = s.retired := by
  funext id
  unfold retired markPrepared
  by_cases hid : id = r.clientID
  · subst hid
    simp
  · simp [hid]

/-- Capturing a request concerns only what has been captured and what is pending. -/
theorem captureReq_frame {r : Request} {s s' : Requests} (h : s.captureReq r = some s') :
    s'.delivered = s.delivered ∧ s'.retired = s.retired ∧
      ∀ id, (s'.clients id).lastPreparedSeq = (s.clients id).lastPreparedSeq := by
  rcases captureReq_cases r s with ⟨-, heq⟩ | ⟨-, heq⟩
  · rw [heq] at h
    cases h
  · rw [heq] at h
    cases h
    refine ⟨rfl, funext fun id => ?_, fun id => ?_⟩
    · by_cases hid : id = r.clientID
      · subst hid
        simp [retired]
      · simp [retired, hid]
    · by_cases hid : id = r.clientID
      · subst hid
        simp
      · simp [hid]

theorem prepareReq_delivered (r : Request) (s : Requests) :
    (prepareReq r s).state.delivered = s.delivered ∧
      (prepareReq r s).state.retired = s.retired := by
  rcases prepareReq_cases r s with ⟨-, heq⟩ | ⟨-, ⟨-, heq⟩ | ⟨-, heq⟩⟩
  · rw [heq]
    exact ⟨rfl, rfl⟩
  · rw [heq]
    exact ⟨rfl, rfl⟩
  · rw [heq]
    exact ⟨rfl, markPrepared_retired r s⟩

theorem prepareAll_delivered (reqs : List Request) (s : Requests) :
    (prepareAll reqs s).state.delivered = s.delivered ∧
      (prepareAll reqs s).state.retired = s.retired := by
  induction reqs generalizing s with
  | nil => exact ⟨rfl, rfl⟩
  | cons r reqs ih =>
      have h := prepareReq_delivered r s
      rw [prepareAll, EStateM.bind_apply]
      cases hres : prepareReq r s with
      | ok b s' =>
          rw [hres] at h
          exact ⟨(ih s').1.trans h.1, (ih s').2.trans h.2⟩
      | error e s' =>
          rw [hres] at h
          exact h

end Requests

end MinBFT
