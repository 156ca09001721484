import MinBFT.Buffering

/-!
# Results that clients get

No notification is lost between the goroutines of a request. So a request gets its result once
Replies with that result have been added from more than `f` replicas, in whatever order its
goroutines go on.
-/

namespace MinBFT

namespace Client

variable {p : Params} {s s' : State} {k : ℕ} {r r' : Req}

/-! ## Requests that are under way -/

/-- Only the collector ends a request, with a result. -/
structure Req.Going (r : Req) : Prop where
  supplier : r.supplier = .done → r.removed = true
  collector : r.collector = .done → r.resultChan ≠ []
  removed : r.removed = true → (∃ result, r.collector = .sending result) ∨ r.resultChan ≠ []

def Going (s : State) : Prop := s.stopped = false → ∀ r ∈ s.requests, r.Going

theorem going_newReq (msg : Request) : (newReq msg).Going := ⟨nofun, nofun, nofun⟩

theorem Req.Going.supply (h : r.Going) (hr' : r.supply = some r') : r'.Going := by
  unfold Req.supply at hr'
  split at hr'
  · cases hr'
    exact ⟨nofun, h.collector, h.removed⟩
  · cases hr'
    exact ⟨nofun, h.collector, h.removed⟩
  · split at hr'
    · cases hr'
      exact ⟨nofun, h.collector, h.removed⟩
    · cases hr'
  · split_ifs at hr'
    cases hr'
    exact ⟨nofun, h.collector, h.removed⟩
  · cases hr'

theorem Req.Going.cancel (h : r.Going) (hr' : r.cancel false = some r') : r'.Going := by
  obtain ⟨rfl, -⟩ := Req.cancel_eq_some hr'
  unfold Req.cancel at hr'
  split_ifs at hr' with hremoved
  exact ⟨fun _ => (Bool.or_false _).symm.trans hremoved, h.collector, h.removed⟩

theorem Req.Going.collect (h : r.Going) (hr' : r.collect p = some r') : r'.Going := by
  unfold Req.collect at hr'
  split at hr'
  · next matchingResults hc =>
      have hremoved (hr : r.removed = true) : r.resultChan ≠ [] := by
        rcases h.removed hr with ⟨result, hresult⟩ | hne
        · cases hc.symm.trans hresult
        · exact hne
      split at hr'
      · dsimp only at hr'
        split_ifs at hr'
        · cases hr'
          exact ⟨h.supplier, nofun, fun hr => .inr (hremoved hr)⟩
        · cases hr'
          exact ⟨h.supplier, nofun, fun hr => .inr (hremoved hr)⟩
      · split_ifs at hr' with hdone
        cases hr'
        have hne : r.resultChan ≠ [] := by
          unfold suppliesNoMore at hdone
          split at hdone
          · next hs => exact hremoved (h.supplier hs)
          · cases hdone
        exact ⟨h.supplier, fun _ => hne, fun _ => .inr hne⟩
  · cases hr'
  · cases hr'
    have hne {result : Bytes} : r.resultChan ++ [result] ≠ [] := by simp
    exact ⟨h.supplier, fun _ => hne, fun _ => .inr hne⟩
  · cases hr'

theorem Going.set (h : Going s) (hr : s.stopped = false → r.Going) (k : ℕ) :
    Going { s with requests := s.requests.set k r } := by
  intro hrunning x hx
  rcases List.mem_or_eq_of_mem_set hx with hx | rfl
  · exact h hrunning x hx
  · exact hr hrunning

theorem Going.updateReq {f : Req → Option Req} (h : Going s)
    (hf : ∀ r r', s.stopped = false → r.Going → f r = some r' → r'.Going)
    (hstep : updateReq s k f = some s') : Going s' := by
  obtain ⟨r, hr, hstep⟩ := Option.bind_eq_some_iff.mp hstep
  obtain ⟨r', hr', hstep⟩ := Option.bind_eq_some_iff.mp hstep
  cases hstep
  exact h.set (fun hrunning => hf r r' hrunning
    (h hrunning r (List.mem_of_getElem? hr)) hr') k

theorem running_removeRequest (s : State) (seq : UInt64) :
    (removeRequest s seq).stopped = s.stopped ∧
      (removeRequest s seq).panicked = s.panicked := by
  rcases removeRequest_cases s seq with heq | ⟨k, r, -, -, heq⟩ <;> simp [heq]

/-- The request with this sequence number may be removed, and no other. -/
theorem Going.removeRequest (h : Going s) {seq : UInt64}
    (hseq : ∀ r ∈ s.requests, r.msg.sequence = seq → ∃ result, r.collector = .sending result) :
    Going (removeRequest s seq) := by
  rcases removeRequest_cases s seq with heq | ⟨k, r, hr, hsame, heq⟩
  · rwa [heq]
  · rw [heq]
    have hmem := List.mem_of_getElem? hr
    obtain ⟨result, hresult⟩ := hseq r hmem hsame
    have hremoved (hrunning : s.stopped = false) : Req.Going { r with removed := true } :=
      ⟨fun _ => rfl, (h hrunning r hmem).collector, fun _ => .inl ⟨result, hresult⟩⟩
    exact h.set hremoved k

theorem Req.Sound.sequence_removing {arrived : List Reply} {reply : Reply}
    (h : r.Sound p arrived) (hr : r.removing = some reply) : reply.sequence = r.msg.sequence := by
  obtain ⟨counted, hsupplied, hcollected⟩ := h.collected
  unfold Req.removing at hr
  split at hr
  · next hc =>
      cases hr
      rw [hc] at hcollected
      have hmem := hsupplied.first.subset
        (List.mem_append_left _ (List.mem_append_left _ hcollected.2.1))
      exact (h.replySet.accepted reply hmem).2
  · cases hr

theorem Going.act {label : Label} (h : Going s) (hinv : Invariant p s)
    (hstep : act p s label = some s') : Going s' := by
  cases label with
  | call operation =>
      cases hstep
      exact h
  | add i =>
      obtain ⟨c, -, hstep⟩ := Option.bind_eq_some_iff.mp hstep
      split at hstep
      · cases hstep
        unfold addRequest
        split
        · exact h
        · split_ifs
          · exact h
          · intro hrunning x hx
            rcases List.mem_append.mp hx with hx | hx
            · exact h hrunning x hx
            · cases List.mem_singleton.mp hx
              exact going_newReq c.msg
      · cases hstep
  | wake i =>
      obtain ⟨c, -, hstep⟩ := Option.bind_eq_some_iff.mp hstep
      split at hstep
      · split_ifs at hstep
        cases hstep
        exact h
      · cases hstep
  | giveUp i =>
      obtain ⟨c, -, hstep⟩ := Option.bind_eq_some_iff.mp hstep
      split at hstep
      · split_ifs at hstep with hstopped
        cases hstep
        intro hrunning
        rw [(running_removeRequest _ _).1] at hrunning
        cases hstopped.symm.trans hrunning
      · cases hstep
  | reply msg =>
      cases hstep
      unfold handleReply
      dsimp only
      split_ifs
      · split
        · exact h
        · split
          · exact h
          · split_ifs <;> exact h
      · exact h
  | addReply i =>
      obtain ⟨⟨msg, k⟩, -, hstep⟩ := Option.bind_eq_some_iff.mp hstep
      obtain ⟨r, hr, hstep⟩ := Option.bind_eq_some_iff.mp hstep
      cases hstep
      refine h.set (fun hrunning => ?_) k
      have hgoing := h hrunning r (List.mem_of_getElem? hr)
      exact ⟨hgoing.supplier, hgoing.collector, hgoing.removed⟩
  | supply k => exact h.updateReq (fun _ _ _ hr hr' => hr.supply hr') hstep
  | cancel k =>
      refine h.updateReq (fun r r' hrunning hr hr' => ?_) hstep
      rw [hrunning] at hr'
      exact hr.cancel hr'
  | collect k => exact h.updateReq (fun _ _ _ hr hr' => hr.collect hr') hstep
  | remove k =>
      obtain ⟨r, hr, hstep⟩ := Option.bind_eq_some_iff.mp hstep
      obtain ⟨reply, hreply, hstep⟩ := Option.bind_eq_some_iff.mp hstep
      cases hstep
      have hsending : s.stopped = false →
          Req.Going { r with collector := .sending reply.result } := fun hrunning =>
        ⟨(h hrunning r (List.mem_of_getElem? hr)).supplier, nofun, fun _ => .inl ⟨_, rfl⟩⟩
      refine (h.set hsending k).removeRequest fun x hx hseq => ?_
      have hsound := hinv.requests r (List.mem_of_getElem? hr)
      obtain ⟨j, hj⟩ := List.mem_iff_getElem?.mp hx
      rw [List.getElem?_set] at hj
      split_ifs at hj with hjk
      · cases hj
        exact ⟨_, rfl⟩
      · exact absurd (hinv.index_eq hr hj (hseq.trans (hsound.sequence_removing hreply)).symm) hjk
  | terminate =>
      cases hstep
      exact fun hrunning => nomatch hrunning

theorem Reachable.going (h : Reachable p s) : Going s := by
  obtain ⟨startSeq, h⟩ := h
  induction h with
  | start => exact fun _ r hr => absurd hr List.not_mem_nil
  | step h _ hstep ih =>
      exact ih.act (Reachable.invariant ⟨startSeq, h⟩) (act_of_step hstep).2

/-! ## The goroutines of one request -/

def Label.Of (k : ℕ) : Label → Prop
  | .supply j => j = k
  | .cancel j => j = k
  | .collect j => j = k
  | .remove j => j = k
  | _ => False

def Collector.work : Collector → ℕ
  | receiving _ => 3
  | removing _ => 2
  | sending _ => 1
  | done => 0

/-- A Reply that is yet to be sent counts twice, as it is sent and received. -/
def Supplier.work (added : ℕ) : Supplier → ℕ
  | looping next => 2 * (added - next) + 3
  | sending next msgs => 2 * msgs.length + 2 * (added - next) + 2
  | waiting next => 2 * (added - next) + 1
  | done => 0

/-- A bound on the number of steps these goroutines can make before more Replies come in. -/
def Req.work (r : Req) : ℕ :=
  r.supplier.work r.replySet.msgs.length + (if r.replySet.newAdded then 3 else 0) +
    r.replyChannel.toList.length + r.collector.work

theorem Req.work_supply (h : r.supply = some r') :
    r'.work < r.work ∧ r'.replySet.msgs = r.replySet.msgs := by
  unfold Req.supply at h
  split at h
  · next hs =>
      cases h
      simp only [Req.work, hs, Supplier.work, List.length_drop, and_true]
      omega
  · next hs =>
      cases h
      simp only [Req.work, hs, Supplier.work, List.length_nil, and_true]
      omega
  · next hs =>
      split at h
      · next hchan =>
          cases h
          simp only [Req.work, hs, hchan, Supplier.work, List.length_cons, Option.toList_some,
            Option.toList_none, List.length_nil, and_true]
          omega
      · cases h
  · next hs =>
      split_ifs at h with hadded
      cases h
      simp only [Req.work, hs, hadded, Supplier.work, if_true, Bool.false_eq_true, if_false,
        and_true]
      omega
  · cases h

theorem Req.work_cancel {stopped : Bool} (h : r.cancel stopped = some r') :
    r'.work < r.work ∧ r'.replySet.msgs = r.replySet.msgs := by
  unfold Req.cancel at h
  split_ifs at h
  split at h
  · next hs =>
      cases h
      simp only [Req.work, hs, Supplier.work, and_true]
      omega
  · next hs =>
      cases h
      simp only [Req.work, hs, Supplier.work, and_true]
      omega
  · cases h

theorem Req.work_collect (h : r.collect p = some r') :
    r'.work < r.work ∧ r'.replySet.msgs = r.replySet.msgs := by
  unfold Req.collect at h
  split at h
  · next hc =>
      split at h
      · next hchan =>
          dsimp only at h
          split_ifs at h
          · cases h
            simp only [Req.work, hc, hchan, Collector.work, Option.toList_some, Option.toList_none,
              List.length_cons, List.length_nil, and_true]
            omega
          · cases h
            simp only [Req.work, hc, hchan, Collector.work, Option.toList_some, Option.toList_none,
              List.length_cons, List.length_nil, and_true]
            omega
      · split_ifs at h
        cases h
        simp only [Req.work, hc, Collector.work, and_true]
        omega
  · cases h
  · next hc =>
      cases h
      simp only [Req.work, hc, Collector.work, and_true]
      omega
  · cases h

theorem getElem?_removeRequest (hr : s.requests[k]? = some r) (seq : UInt64) :
    ∃ r', (removeRequest s seq).requests[k]? = some r' ∧
      r'.work = r.work ∧ r'.replySet = r.replySet := by
  rcases removeRequest_cases s seq with heq | ⟨j, x, hx, -, heq⟩
  · rw [heq]
    exact ⟨r, hr, rfl, rfl⟩
  · rw [heq]
    by_cases hjk : j = k
    · subst hjk
      cases hr.symm.trans hx
      exact ⟨_, List.getElem?_set_self (List.getElem?_eq_some_iff.mp hr).1, rfl, rfl⟩
    · exact ⟨r, (List.getElem?_set_ne hjk).trans hr, rfl, rfl⟩

structure Continues (s : State) (k : ℕ) (r : Req) (n : ℕ) (s' : State) (r' : Req) : Prop where
  getElem : s'.requests[k]? = some r'
  work : n + r'.work ≤ r.work
  msgs : r'.replySet.msgs = r.replySet.msgs
  stopped : s'.stopped = s.stopped
  panicked : s'.panicked = s.panicked

theorem continues_updateReq {f : Req → Option Req} (hr : s.requests[k]? = some r)
    (hf : ∀ r', f r = some r' → r'.work < r.work ∧ r'.replySet.msgs = r.replySet.msgs)
    (hstep : updateReq s k f = some s') : ∃ r', Continues s k r 1 s' r' := by
  obtain ⟨x, hx, hstep⟩ := Option.bind_eq_some_iff.mp hstep
  obtain ⟨r', hr', hstep⟩ := Option.bind_eq_some_iff.mp hstep
  cases hstep
  cases hr.symm.trans hx
  obtain ⟨hwork, hmsgs⟩ := hf r' hr'
  have hlt := (List.getElem?_eq_some_iff.mp hr).1
  refine ⟨r', List.getElem?_set_self hlt, ?_, hmsgs, rfl, rfl⟩
  omega

theorem updateReq_eq_none {f : Req → Option Req} (hr : s.requests[k]? = some r)
    (h : updateReq s k f = none) : f r = none := by
  cases hf : f r with
  | none => rfl
  | some r' =>
      rw [updateReq, hr, Option.bind_eq_bind, Option.bind_some, hf] at h
      cases h

theorem Label.Of.continues {l : Label} (hl : l.Of k) (hr : s.requests[k]? = some r)
    (hstep : act p s l = some s') : ∃ r', Continues s k r 1 s' r' := by
  cases l with
  | supply j =>
      cases hl
      exact continues_updateReq hr (fun _ => Req.work_supply) hstep
  | cancel j =>
      cases hl
      exact continues_updateReq hr (fun _ => Req.work_cancel) hstep
  | collect j =>
      cases hl
      exact continues_updateReq hr (fun _ => Req.work_collect) hstep
  | remove j =>
      cases hl
      obtain ⟨x, hx, hstep⟩ := Option.bind_eq_some_iff.mp hstep
      obtain ⟨reply, hreply, hstep⟩ := Option.bind_eq_some_iff.mp hstep
      cases hstep
      cases hr.symm.trans hx
      have hlt := (List.getElem?_eq_some_iff.mp hr).1
      obtain ⟨r', hr', hwork, hset⟩ := getElem?_removeRequest
        (s := { s with requests := s.requests.set k { r with collector := .sending reply.result } })
        (List.getElem?_set_self hlt) reply.sequence
      refine ⟨r', hr', ?_, congrArg ReplySet.msgs hset, (running_removeRequest _ _).1,
        (running_removeRequest _ _).2⟩
      unfold Req.removing at hreply
      split at hreply
      · next hc =>
          rw [hwork]
          simp only [Req.work, hc, Collector.work]
          omega
      · cases hreply
  | _ => exact hl.elim

theorem exists_continues {ls : List Label} (hr : s.requests[k]? = some r)
    (hls : ∀ l ∈ ls, l.Of k) (hrun : Machine.Run (step p) s ls s') :
    ∃ r', Continues s k r ls.length s' r' := by
  induction hrun with
  | nil => exact ⟨r, hr, Nat.le_of_eq (Nat.zero_add _), rfl, rfl, rfl⟩
  | @snoc ls _ _ l _ hstep ih =>
      obtain ⟨r₁, h₁⟩ := ih fun l hl => hls l (List.mem_append_left _ hl)
      obtain ⟨r₂, h₂⟩ := (hls l (by simp)).continues h₁.getElem (act_of_step hstep).2
      refine ⟨r₂, h₂.getElem, ?_, h₂.msgs.trans h₁.msgs, h₂.stopped.trans h₁.stopped,
        h₂.panicked.trans h₁.panicked⟩
      have hwork₁ := h₁.work
      have hwork₂ := h₂.work
      rw [List.length_append, List.length_singleton]
      omega

theorem Enough.mono {replies replies' : List Reply} {result : Bytes}
    (h : Enough p replies result) (hpre : replies <+: replies') : Enough p replies' result :=
  Nat.lt_of_lt_of_le h (hpre.sublist.countP_le)

/-- All Replies have been counted once the collector waits and nothing is supplied. -/
theorem Req.Sound.counted {arrived : List Reply} {rb : RequestBuffer.Req}
    {matchingResults : Bytes → UInt32} (h : r.Sound p arrived) (hshared : rb.shared = r.shared)
    (hsupplies : rb.Supplies) (hc : r.collector = .receiving matchingResults)
    (hsupply : r.supply = none) (hcollect : r.collect p = none) :
    Tallied p r.replySet.msgs matchingResults := by
  obtain ⟨counted, hsupplied, hcollected⟩ := h.collected
  rw [hc] at hcollected
  have hchan : r.replyChannel = none := by
    cases hchan : r.replyChannel with
    | none => rfl
    | some reply =>
        simp only [Req.collect, hc, hchan] at hcollect
        split_ifs at hcollect
  unfold Req.supply at hsupply
  split at hsupply
  · cases hsupply
  · cases hsupply
  · rw [hchan] at hsupply
    cases hsupply
  · next next hs =>
      split_ifs at hsupply with hadded
      -- the buffer has seen all there is
      have hsupplier : rb.supplier = .waiting next :=
        (congrArg RequestBuffer.Shared.supplier hshared).trans hs
      have hset : rb.replySet = r.replySet := congrArg RequestBuffer.Shared.replySet hshared
      rw [RequestBuffer.Req.Supplies, hsupplier, hset] at hsupplies
      have hall := hsupplies.2 (Bool.eq_false_iff.mpr hadded)
      have hfirst := hsupplied.first
      have hlength := hsupplied.next next (by rw [hs]; rfl)
      simp only [hchan, hs, Supplier.batch, Option.toList_none, List.append_nil] at hfirst hlength
      rw [← hfirst.eq_of_length (hlength.trans hall)]
      exact hcollected.2
  · next hs =>
      simp [Req.collect, hc, hchan, suppliesNoMore, hs] at hcollect

/-- A request whose goroutines are all blocked has its result, if there can be one. -/
theorem Req.Sound.yielded {arrived : List Reply} {rb : RequestBuffer.Req}
    (hf : p.f.toNat + 1 < 2 ^ 32) (h : r.Sound p arrived) (hgoing : r.Going)
    (hshared : rb.shared = r.shared) (hsupplies : rb.Supplies) (hsupply : r.supply = none)
    (hcollect : r.collect p = none) (hremoving : r.removing = none) {result : Bytes}
    (henough : Enough p r.replySet.msgs result) :
    ∃ result, r.resultChan = [result] ∧ Enough p r.replySet.msgs result := by
  cases hc : r.collector with
  | receiving matchingResults =>
      have htallied := h.counted hshared hsupplies hc hsupply hcollect
      obtain ⟨hle, hcount⟩ := htallied.exact hf (p.crypto.sha256 result)
      rw [Enough, hcount] at henough
      exact absurd (UInt32.le_iff_toNat_le.mp hle) (Nat.not_le.mpr henough)
  | removing reply => simp [Req.removing, hc] at hremoving
  | sending result => simp [Req.collect, hc] at hcollect
  | done =>
      obtain ⟨counted, hsupplied, hcollected⟩ := h.collected
      rw [hc] at hcollected
      obtain ⟨hone, hall⟩ := hcollected
      obtain ⟨result, rest, hres⟩ := List.exists_cons_of_ne_nil (hgoing.collector hc)
      rw [hres, List.length_cons] at hone
      have hrest : rest = [] := List.eq_nil_of_length_eq_zero (by omega)
      subst hrest
      refine ⟨result, hres, (hall result (hres ▸ List.mem_singleton_self result)).mono ?_⟩
      have hfirst := hsupplied.first
      rw [List.append_assoc] at hfirst
      exact (List.prefix_append _ _).trans hfirst

/-- Once Replies with the same result have been added to a request from more than `f` replicas, its
goroutines come to an end, in whatever order they go on. By then they have yielded one result, and
it is one that more than `f` replicas agree on. -/
theorem result_yielded (hf : p.f.toNat + 1 < 2 ^ 32) (h : Reachable p s)
    (hlive : s.panicked = false) (hrunning : s.stopped = false) (hr : s.requests[k]? = some r)
    {result : Bytes} (henough : Enough p r.replySet.msgs result) {ls : List Label}
    (hls : ∀ l ∈ ls, l.Of k) (hrun : Machine.Run (step p) s ls s') :
    ls.length ≤ r.work ∧ ((∀ l : Label, l.Of k → step p s' l = none) →
      ∃ r' result, s'.requests[k]? = some r' ∧ r'.resultChan = [result] ∧
        Enough p r.replySet.msgs result) := by
  obtain ⟨r', hcont⟩ := exists_continues hr hls hrun
  refine ⟨Nat.le_of_add_right_le hcont.work, fun hblocked => ?_⟩
  obtain ⟨startSeq, hstart⟩ := h
  have hreach : Reachable p s' := ⟨startSeq, hstart.trans hrun.reachable⟩
  obtain ⟨b, hb, huses⟩ := hreach.uses
  obtain ⟨rb, hrb, hshared⟩ := huses.exists_request hcont.getElem
  have hsupplies :=
    ((RequestBuffer.consistent_of_reachable hb).requests rb (List.mem_of_getElem? hrb)).supplies
  have hmem := List.mem_of_getElem? hcont.getElem
  have hact {l : Label} (hl : l.Of k) : act p s' l = none := by
    have hnone := hblocked l hl
    rwa [step, hcont.panicked, hlive] at hnone
  have hremoving : r'.removing = none := by
    have hnone := hact (l := .remove k) rfl
    rw [act, hcont.getElem] at hnone
    cases hreply : r'.removing with
    | none => rfl
    | some reply =>
        rw [Option.bind_eq_bind, Option.bind_some, hreply] at hnone
        cases hnone
  rw [← hcont.msgs] at henough ⊢
  obtain ⟨result, hresult, hjust⟩ := (hreach.invariant.requests r' hmem).yielded hf
    (hreach.going (hcont.stopped.trans hrunning) r' hmem) hshared hsupplies
    (updateReq_eq_none hcont.getElem (hact (l := .supply k) rfl))
    (updateReq_eq_none hcont.getElem (hact (l := .collect k) rfl)) hremoving henough
  exact ⟨r', result, hcont.getElem, hresult, hjust⟩

end Client

namespace Concrete

open Client

def replied : List Client.Label :=
  [.call [5], .add 0, .reply ⟨0, 3, 10, [7], []⟩, .addReply 0, .supply 0, .supply 0, .collect 0,
    .supply 0, .reply ⟨1, 3, 10, [7], []⟩, .addReply 0]

def yielding : List Client.Label :=
  [.supply 0, .supply 0, .supply 0, .collect 0, .remove 0, .supply 0, .collect 0, .cancel 0]

def blocked (s : Client.State) : Bool :=
  (step trustingClient s (.supply 0)).isNone && (step trustingClient s (.cancel 0)).isNone &&
    (step trustingClient s (.collect 0)).isNone && (step trustingClient s (.remove 0)).isNone

theorem of_yielding : ∀ l ∈ yielding, l.Of 0 := by
  simp [yielding, Client.Label.Of]

theorem of_blocked {s : Client.State} (h : blocked s = true) (l : Client.Label) (hl : l.Of 0) :
    step trustingClient s l = none := by
  simp only [blocked, Bool.and_eq_true, Option.isNone_iff_eq_none] at h
  cases l with
  | supply j =>
      cases hl
      exact h.1.1.1
  | cancel j =>
      cases hl
      exact h.1.1.2
  | collect j =>
      cases hl
      exact h.1.2
  | remove j =>
      cases hl
      exact h.2
  | _ => exact hl.elim

theorem result_yielded_replied : ∃ s s' r r' result, Client.Reachable trustingClient s ∧
    s.requests[0]? = some r ∧ r.resultChan = [] ∧
      Machine.Run (step trustingClient) s yielding s' ∧ s'.requests[0]? = some r' ∧
        r'.resultChan = [result] ∧ Enough trustingClient r.replySet.msgs result := by
  have hexec : (Machine.exec (step trustingClient) (fun _ _ => true) (init 10) replied).any
      (fun s => !s.panicked && !s.stopped && (s.requests[0]?).any (fun r =>
        r.resultChan == [] && decide (Enough trustingClient r.replySet.msgs [7])) &&
          (Machine.exec (step trustingClient) (fun _ _ => true) s yielding).any blocked) =
        true := by
    decide +kernel
  obtain ⟨s, hreach, hs⟩ := Machine.exists_reachable (fun _ _ _ _ => trivial) hexec
  simp only [Bool.and_eq_true, Bool.not_eq_true', Option.any_eq_true] at hs
  obtain ⟨⟨⟨hlive, hrunning⟩, r, hr, hnone, henough⟩, s', hexec', hblocked⟩ := hs
  have hrun : Machine.Run (step trustingClient) s yielding s' := Machine.Run.nil.exec hexec'
  obtain ⟨-, hyields⟩ := result_yielded (by decide) ⟨10, hreach⟩ hlive hrunning hr
    (of_decide_eq_true henough) of_yielding hrun
  obtain ⟨r', result, hr', hresult, hjust⟩ := hyields (of_blocked hblocked)
  exact ⟨s, s', r, r', result, ⟨10, hreach⟩, hr, beq_iff_eq.mp hnone, hrun, hr', hresult, hjust⟩

end Concrete

end MinBFT
