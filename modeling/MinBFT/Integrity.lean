import MinBFT.Bookkeeping
import MinBFT.InOrder

/-!
# Integrity of what is delivered

Requests reach the executor in Prepares and in the certificates of NewViews, from peers and from the
replica itself. On every way their signatures have been verified when they were handled first, and a
client's requests are delivered in the order of their sequence numbers, each at most once.
-/

namespace MinBFT

def Request.Verified (crypto : Crypto) (r : Request) : Prop :=
  crypto.verifyMessageAuthenTag .clientAuthen r.clientID (r.authenBytes crypto.sha256) r.signature
    = true

theorem Valid.verified {crypto : Crypto} {config : Config} {r : Request}
    (h : Valid crypto config (.request r)) : r.Verified crypto := check_eq_ok.mp h

namespace Requests

variable {s s' : Requests}

/-- The delivered requests of each client have increasing sequence numbers, up to the last one
retired. -/
structure Increasing (s : Requests) : Prop where
  le_retired : ∀ r ∈ s.delivered, r.sequence ≤ (s.clients r.clientID).lastRetiredSeq
  pairwise : s.delivered.Pairwise fun r r' => r.clientID = r'.clientID → r.sequence < r'.sequence

theorem Increasing.congr (h : s.Increasing) (hdel : s'.delivered = s.delivered)
    (hret : ∀ id, (s'.clients id).lastRetiredSeq = (s.clients id).lastRetiredSeq) :
    s'.Increasing := by
  refine ⟨fun r hr => ?_, hdel ▸ h.pairwise⟩
  rw [hret]
  exact h.le_retired r (hdel ▸ hr)

theorem Increasing.markDelivered {r : Request} (h : s.Increasing)
    (hnew : (s.clients r.clientID).lastRetiredSeq < r.sequence) :
    (s.markDelivered r).Increasing := by
  refine ⟨fun x hx => ?_, ?_⟩
  · rcases List.mem_append.mp hx with hx | hx
    · have hle := h.le_retired x hx
      by_cases hid : x.clientID = r.clientID
      · rw [hid] at hle
        simpa [Requests.markDelivered, hid] using UInt64.le_trans hle (UInt64.le_of_lt hnew)
      · simpa [Requests.markDelivered, hid] using hle
    · rw [List.mem_singleton.mp hx]
      simp [Requests.markDelivered]
  · refine List.pairwise_append.mpr ⟨h.pairwise, List.pairwise_singleton _ _, ?_⟩
    intro x hx y hy hid
    rw [List.mem_singleton.mp hy] at hid ⊢
    exact UInt64.lt_of_le_of_lt (hid ▸ h.le_retired x hx) hnew

theorem Steps.increasing (h : Steps s s') (hs : s.Increasing) : s'.Increasing := by
  induction h with
  | refl => exact hs
  | tail _ hstep ih =>
      cases hstep with
      | @prepared r s _ _ =>
          refine ih.congr rfl fun id => ?_
          by_cases hid : id = r.clientID
          · subst hid
            simp [markPrepared]
          · simp [markPrepared, hid]
      | delivered hnew => exact ih.markDelivered hnew

theorem Increasing.captureReq {r : Request} (h : s.Increasing) (hcap : s.captureReq r = some s') :
    s'.Increasing := by
  obtain ⟨-, rfl⟩ := captured_of_captureReq hcap
  refine h.congr rfl fun id => ?_
  by_cases hid : id = r.clientID
  · subst hid
    simp
  · simp [hid]

theorem Increasing.unprepareReqs (h : s.Increasing) : s.unprepareReqs.Increasing := by
  refine h.congr s.unprepared_unprepareReqs.delivered fun id => ?_
  rw [s.unprepared_unprepareReqs.clients]
  split_ifs <;> rfl

end Requests

namespace Replica

variable {p : Params} {order : List Request} {C : Replica → Message → Prop} {s s' : Replica}
  {m : Message}

theorem Run.increasing (h : s.Run p C) : s.execution.requests.Increasing := by
  induction h with
  | init => exact ⟨fun _ hr => absurd hr List.not_mem_nil, List.Pairwise.nil⟩
  | process _ _ _ htrans _ ih =>
      rcases htrans.requests_cases with ⟨r, -, hcap⟩ | hsteps | ⟨-, heq⟩
      · exact ih.captureReq hcap
      · exact hsteps.increasing ih
      · rw [heq]
        exact ih.unprepareReqs
  | timeout _ _ _ ih =>
      rw [execution_requestViewChange]
      exact ih

/-- The requests in all that a replica builds messages from bear verified signatures. -/
theorem Run.verifiedSources (h : s.Run p C) :
    Sources (fun x => ∀ r, x = .request r → r.Verified p.crypto) s := by
  refine h.sources_of ?_ (fun _ _ _ r hr => nomatch hr) ?_
  · rintro x hx r rfl
    exact hx.verified
  · intro s m g _ _ _ hmade _ r hr
    cases hmade <;> cases hr

/-- Whatever request a replica gets hold of bears a signature that has been verified. -/
theorem Run.verified (h : s.Run p C) :
    s.execution.requests.Holding fun r => r.Verified p.crypto := by
  have hsources := h.verifiedSources
  exact ⟨fun r hr => hsources.requests.pending r hr r rfl,
    fun r hr => hsources.requests.prepared r hr r rfl,
    fun r hr => hsources.requests.delivered r hr r rfl⟩

/-- No request is processed before its signature has been verified. -/
theorem Run.verified_of_admits (h : s.Run p C) {r : Request} (hadmits : s.Admits p (.request r)) :
    r.Verified p.crypto := by
  have hself := (h.verifiedSources.admitted (fun x hx => ?_) hadmits).self
  · exact hself r rfl
  · rintro r rfl
    exact hx.verified

theorem Run.verified_of_handled (h : s.Run p C) {r : Request} (hr : .request r ∈ s.handled) :
    r.Verified p.crypto := by
  induction h with
  | init => exact absurd hr List.not_mem_nil
  | process hrun hadmits _ htrans _ ih =>
      rcases htrans.handled_cases with heq | ⟨heq, -⟩
      · exact ih (heq ▸ hr)
      · rcases List.mem_append.mp (heq ▸ hr) with hr | hr
        · exact ih hr
        · cases List.mem_singleton.mp hr
          exact hrun.verified_of_admits hadmits
  | timeout _ _ _ ih =>
      rw [handled_requestViewChange] at hr
      exact ih hr

/-- What has been handled has been handled with everything in it. -/
theorem History.hereditarily (h : History p s) (hm : m ∈ s.handled) :
    Hereditarily (· ∈ s.handled) m := by
  induction m using Message.embeddedInduction with
  | _ m ih => exact ⟨hm, fun x hx => ih x hx (h.embedded m hm x hx)⟩

theorem Run.kept_handled (hid : p.id < p.config.n) (h : s.Run p C) :
    s.execution.requests.Holding fun r => .request r ∈ s.handled := by
  induction h with
  | init => exact Requests.holding_init
  | @process s s' m order hrun hadmits _ htrans _ ih =>
      have hsub := htrans.handled_prefix.subset
      refine htrans.holding (P := (· ∈ s'.handled)) ⟨fun r hr => hsub (ih.pending r hr),
        fun r hr => hsub (ih.prepared r hr), fun r hr => hsub (ih.delivered r hr)⟩ ?_ ?_
      · rintro r rfl
        exact htrans.request_handled
      · intro x hx
        exact ((hrun.history hid).hereditarily (hadmits.embedded x hx)).mono fun _ hy => hsub hy
  | @timeout s view _ _ _ ih =>
      rw [execution_requestViewChange, handled_requestViewChange]
      exact ih

end Replica

/-- Whatever a replica delivers is the operation of a verified request, and no client's requests are
delivered twice or out of order. -/
theorem Node.delivered_once {p : Params} {s : Node} (hid : p.id < p.config.n)
    (h : s.Reachable p fun _ _ => True) :
    (∀ r ∈ s.replica.execution.requests.delivered,
        .request r ∈ s.replica.handled ∧ r.Verified p.crypto) ∧
      (s.replica.execution.requests.delivered.map fun r => (r.clientID, r.sequence)).Nodup ∧
      ∀ id, ((s.replica.execution.requests.delivered.filter (·.clientID == id)).map
        (·.sequence)).Pairwise (· < ·) := by
  have hinc := h.run.increasing.pairwise
  refine ⟨fun r hr => ⟨(h.run.kept_handled hid).delivered r hr, h.run.verified.delivered r hr⟩,
    ?_, fun id => ?_⟩
  · refine List.pairwise_map.mpr (hinc.imp fun hlt heq => ?_)
    obtain ⟨hclient, hseq⟩ := Prod.mk.inj heq
    exact UInt64.lt_irrefl _ (hseq ▸ hlt hclient)
  · refine List.pairwise_map.mpr ((hinc.filter _).imp_of_mem fun ha hb hlt => hlt ?_)
    exact (beq_iff_eq.mp (List.mem_filter.mp ha).2).trans
      (beq_iff_eq.mp (List.mem_filter.mp hb).2).symm

namespace Concrete

theorem delivered_once_backup : ∃ s : Node, s.Reachable backupParams (fun _ _ => True) ∧
    s.replica.execution.requests.delivered = [request 0 1] ∧
    (request 0 1).Verified backupParams.crypto := by
  obtain ⟨s, hreach, -, hdel⟩ := delivered_after_commit
  have honce := (Node.delivered_once (by decide) hreach).1
  rw [hdel] at honce
  exact ⟨s, hreach, hdel, (honce _ List.mem_cons_self).2⟩

end Concrete

end MinBFT
