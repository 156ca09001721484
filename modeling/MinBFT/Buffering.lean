import MinBFT.RequestBuffer

/-!
# The request buffer of a client

The client works on the request buffer: what it does with its requests, its calls and the Replies it
accepts is a run of the buffer, in which `collectReplies` is the consumer of the replies to a
request. A call is canceled there when the client has been stopped and the call sees it.
-/

namespace MinBFT

namespace RequestBuffer

/-- What a request of the buffer has in common with one of the client. -/
structure Shared where
  msg : Request
  removed : Bool
  replySet : Client.ReplySet
  supplier : Client.Supplier
  replyChannel : Option Reply

def Req.shared (r : Req) : Shared :=
  ⟨r.msg, r.removed, r.replySet, r.supplier, r.replyChannel⟩

def Call.shared (c : Call) : Request × Phase := (c.msg, c.phase)

end RequestBuffer

namespace Client

/-! ## The buffer of a client -/

def Req.shared (r : Req) : RequestBuffer.Shared :=
  ⟨r.msg, r.removed, r.replySet, r.supplier, r.replyChannel⟩

def Phase.shared : Phase → RequestBuffer.Phase
  | .adding => .adding
  | .waiting seq request => .waiting seq request
  | .added request => .added request

def Call.shared (c : Call) : Request × RequestBuffer.Phase := (c.msg, c.phase.shared)

structure Uses (s : State) (b : RequestBuffer.State) : Prop where
  lastSeq : b.lastSeq = s.lastSeq
  request : b.request = s.request
  replies : b.replies = s.replies
  requests : b.requests.map RequestBuffer.Req.shared = s.requests.map Req.shared
  calls : s.panicked = false →
    b.calls.map RequestBuffer.Call.shared = s.calls.map Call.shared
  origin : ∀ r ∈ b.requests, r.call < b.calls.length

variable {p : Params} {s s' : State} {b b' : RequestBuffer.State} {k : ℕ} {r r' : Req}

theorem uses_init (startSeq : UInt64) : Uses (init startSeq) RequestBuffer.init :=
  ⟨rfl, rfl, rfl, rfl, fun _ => rfl, fun _ hr => absurd hr List.not_mem_nil⟩

theorem Uses.getElem?_requests (h : Uses s b) (k : ℕ) :
    (b.requests[k]?).map RequestBuffer.Req.shared = (s.requests[k]?).map Req.shared := by
  rw [← List.getElem?_map, ← List.getElem?_map, h.requests]

theorem Uses.exists_request (h : Uses s b) (hr : s.requests[k]? = some r) :
    ∃ rb, b.requests[k]? = some rb ∧ rb.shared = r.shared := by
  have hk := h.getElem?_requests k
  rw [hr] at hk
  exact Option.map_eq_some_iff.mp hk

theorem Uses.getElem?_eq_none (h : Uses s b) (hr : s.requests[k]? = none) :
    b.requests[k]? = none := by
  have hk := h.getElem?_requests k
  rw [hr] at hk
  exact Option.map_eq_none_iff.mp hk

theorem Uses.exists_call (h : Uses s b) (hlive : s.panicked = false) {i : ℕ} {c : Call}
    (hc : s.calls[i]? = some c) :
    ∃ cb, b.calls[i]? = some cb ∧ cb.shared = c.shared := by
  have hi : (b.calls.map RequestBuffer.Call.shared)[i]? = (s.calls.map Call.shared)[i]? := by
    rw [h.calls hlive]
  rw [List.getElem?_map, List.getElem?_map, hc] at hi
  exact Option.map_eq_some_iff.mp hi

theorem Uses.setReq (h : Uses s b) {rb : RequestBuffer.Req} (hrb : b.requests[k]? = some rb)
    (r' : Req) (rb' : RequestBuffer.Req) (hshared : rb'.shared = r'.shared)
    (hcall : rb'.call = rb.call) :
    Uses { s with requests := s.requests.set k r' }
      { b with requests := b.requests.set k rb' } := by
  refine ⟨h.lastSeq, h.request, h.replies, ?_, h.calls, fun x hx => ?_⟩
  · rw [List.map_set, List.map_set, h.requests, hshared]
  · rcases List.mem_or_eq_of_mem_set hx with hx | rfl
    · exact h.origin x hx
    · rw [hcall]
      exact h.origin rb (List.mem_of_getElem? hrb)

theorem Uses.setCall (h : Uses s b) (i : ℕ) (c : Call) (cb : RequestBuffer.Call)
    (hshared : cb.shared = c.shared) :
    Uses { s with calls := s.calls.set i c } { b with calls := b.calls.set i cb } := by
  refine ⟨h.lastSeq, h.request, h.replies, h.requests, fun hlive => ?_, fun x hx => ?_⟩
  · rw [List.map_set, List.map_set, h.calls hlive, hshared]
  · rw [List.length_set]
    exact h.origin x hx

/-- Calls of the buffer may be canceled at any time. -/
theorem Uses.cancelCall (h : Uses s b) {i : ℕ} {cb : RequestBuffer.Call}
    (hc : b.calls[i]? = some cb) :
    Uses s { b with calls := b.calls.set i { cb with canceled := true } } := by
  refine ⟨h.lastSeq, h.request, h.replies, h.requests, fun hlive => ?_, fun x hx => ?_⟩
  · have hsame : (b.calls.set i { cb with canceled := true }).map RequestBuffer.Call.shared =
        b.calls.map RequestBuffer.Call.shared := List.map_set_of_eq hc rfl
    exact hsame.trans (h.calls hlive)
  · rw [List.length_set]
    exact h.origin x hx

theorem Uses.removeRequest (h : Uses s b) (seq : UInt64) :
    Uses (removeRequest s seq) (RequestBuffer.removeRequest b seq) := by
  unfold Client.removeRequest RequestBuffer.removeRequest
  rw [h.request]
  cases s.request with
  | none => exact h
  | some k =>
      cases hr : s.requests[k]? with
      | none =>
          simp only [hr, h.getElem?_eq_none hr]
          exact h
      | some r =>
          obtain ⟨rb, hrb, hshared⟩ := h.exists_request hr
          have hmsg : rb.msg = r.msg := congrArg RequestBuffer.Shared.msg hshared
          simp only [hr, hrb]
          by_cases hne : r.msg.sequence ≠ seq
          · rw [if_pos hne, if_pos (hmsg ▸ hne)]
            exact h
          · rw [if_neg hne, if_neg (hmsg ▸ hne)]
            have hset := h.setReq hrb { r with removed := true } { rb with removed := true }
              (congrArg (fun x : RequestBuffer.Shared => { x with removed := true }) hshared) rfl
            exact ⟨hset.lastSeq, rfl, hset.replies, hset.requests, hset.calls, hset.origin⟩

theorem Uses.addRequest (h : Uses s b) (hlive : s.panicked = false) {i : ℕ} {c : Call}
    {cb : RequestBuffer.Call} (hcb : b.calls[i]? = some cb) (hshared : cb.shared = c.shared) :
    Uses (addRequest s i c) (RequestBuffer.addRequest b i cb) := by
  have hmsg : cb.msg = c.msg := congrArg Prod.fst hshared
  have hlt := (List.getElem?_eq_some_iff.mp hcb).1
  have hlength : b.requests.length = s.requests.length := by
    simpa using congrArg List.length h.requests
  unfold Client.addRequest RequestBuffer.addRequest
  rw [h.request]
  cases s.request with
  | some k =>
      have hset := h.setCall i { c with phase := .waiting s.lastSeq k }
        { cb with phase := .waiting b.lastSeq k } (Prod.ext hmsg (by rw [h.lastSeq]; rfl))
      exact ⟨h.lastSeq, rfl, h.replies, h.requests, hset.calls, hset.origin⟩
  | none =>
      dsimp only
      by_cases hle : c.msg.sequence ≤ s.lastSeq
      · rw [if_pos hle, if_pos (by rwa [hmsg, h.lastSeq])]
        refine ⟨h.lastSeq, rfl, h.replies, h.requests, (fun hpanic => nomatch hpanic), ?_⟩
        intro x hx
        rw [List.length_set]
        exact h.origin x hx
      · rw [if_neg hle, if_neg (by rwa [hmsg, h.lastSeq])]
        refine ⟨congrArg Request.sequence hmsg, congrArg some hlength, h.replies, ?_,
          fun _ => ?_, fun x hx => ?_⟩
        · rw [List.map_append, List.map_append, h.requests, hmsg]
          rfl
        · rw [List.map_set, List.map_set, h.calls hlive, hlength]
          exact congrArg _ (Prod.ext hmsg rfl)
        · rw [List.length_set]
          rcases List.mem_append.mp hx with hx | hx
          · exact h.origin x hx
          · cases List.mem_singleton.mp hx
            exact hlt

/-- The first part of `AddReply`, for a Reply that is accepted. -/
theorem Uses.handleReply (h : Uses s b) (reply : Reply) :
    ∃ b', Machine.Reachable RequestBuffer.step b (fun _ _ => True) b' ∧
      Uses (handleReply p s reply) b' := by
  have harrived {request : Option ℕ} (hrequest : s.request = request) :
      Uses { s with request, arrived := s.arrived ++ [reply] } b :=
    ⟨h.lastSeq, h.request.trans hrequest, h.replies, h.requests, h.calls, h.origin⟩
  unfold Client.handleReply
  dsimp only
  split_ifs
  · refine ⟨RequestBuffer.addReply b reply,
      .step .start trivial (by rfl : RequestBuffer.step b (.addReply reply) = _), ?_⟩
    unfold RequestBuffer.addReply
    rw [h.request]
    cases hrequest : s.request with
    | none => exact harrived hrequest
    | some k =>
        cases hr : s.requests[k]? with
        | none =>
            simp only [hr, h.getElem?_eq_none hr]
            exact harrived hrequest
        | some r =>
            obtain ⟨rb, hrb, hshared⟩ := h.exists_request hr
            have hmsg : rb.msg = r.msg := congrArg RequestBuffer.Shared.msg hshared
            simp only [hr, hrb]
            by_cases hne : r.msg.sequence ≠ reply.sequence
            · rw [if_pos hne, if_pos (hmsg ▸ hne)]
              exact harrived hrequest
            · rw [if_neg hne, if_neg (hmsg ▸ hne)]
              exact ⟨h.lastSeq, rfl, congrArg (· ++ [(reply, k)]) h.replies, h.requests,
                h.calls, h.origin⟩
  · exact ⟨b, .start, harrived rfl⟩

/-- The collector of a request is none of the buffer's business. -/
theorem Uses.setCollector (h : Uses s b) (hr : s.requests[k]? = some r) (r' : Req)
    (hshared : r'.shared = r.shared) : Uses { s with requests := s.requests.set k r' } b :=
  ⟨h.lastSeq, h.request, h.replies, h.requests.trans (List.map_set_of_eq hr hshared).symm, h.calls,
    h.origin⟩

theorem Uses.updateReq {f : Req → Option Req} {g : RequestBuffer.Req → Option RequestBuffer.Req}
    (h : Uses s b) (hfg : ∀ r r' rb, f r = some r' → RequestBuffer.Req.shared rb = r.shared →
      ∃ rb', g rb = some rb' ∧ rb'.shared = r'.shared ∧ rb'.call = rb.call)
    (hstep : updateReq s k f = some s') :
    ∃ b', RequestBuffer.updateReq b k g = some b' ∧ Uses s' b' := by
  obtain ⟨r, hr, hstep⟩ := Option.bind_eq_some_iff.mp hstep
  obtain ⟨r', hr', hstep⟩ := Option.bind_eq_some_iff.mp hstep
  cases hstep
  obtain ⟨rb, hrb, hshared⟩ := h.exists_request hr
  obtain ⟨rb', hrb', hshared', hcall⟩ := hfg r r' rb hr' hshared
  refine ⟨{ b with requests := b.requests.set k rb' }, ?_, h.setReq hrb r' rb' hshared' hcall⟩
  rw [RequestBuffer.updateReq, hrb]
  exact congrArg (Option.bind · _) hrb'

theorem Req.supply_shared {rb : RequestBuffer.Req} (h : r.supply = some r')
    (hshared : rb.shared = r.shared) :
    ∃ rb', rb.supply = some rb' ∧ rb'.shared = r'.shared ∧ rb'.call = rb.call := by
  obtain ⟨msg, removed, replySet, supplier, replyChannel, collector, resultChan⟩ := r
  obtain ⟨msg', call, removed', replySet', done, supplier', replyChannel', emitted⟩ := rb
  cases hshared
  unfold Req.supply at h
  unfold RequestBuffer.Req.supply
  cases supplier with
  | looping next =>
      cases h
      exact ⟨_, rfl, rfl, rfl⟩
  | sending next msgs =>
      cases msgs with
      | nil =>
          cases h
          exact ⟨_, rfl, rfl, rfl⟩
      | cons msg msgs =>
          cases replyChannel with
          | none =>
              cases h
              exact ⟨_, rfl, rfl, rfl⟩
          | some reply => cases h
  | waiting next =>
      dsimp only at h ⊢
      split_ifs at h ⊢
      cases h
      exact ⟨_, rfl, rfl, rfl⟩
  | done => cases h

/-- `collectReplies` takes a Reply from the channel, or leaves the buffer alone. -/
theorem Req.collect_shared (h : r.collect p = some r') :
    r'.shared = r.shared ∨ r'.shared = { r.shared with replyChannel := none } := by
  unfold Req.collect at h
  split at h
  · split at h
    · dsimp only at h
      split_ifs at h
      · cases h
        exact .inr rfl
      · cases h
        exact .inr rfl
    · split_ifs at h
      cases h
      exact .inl rfl
  · cases h
  · cases h
    exact .inl rfl
  · cases h

theorem Uses.collect (h : Uses s b)
    (hstep : Client.updateReq s k (fun r => r.collect p) = some s') :
    ∃ b', Machine.Reachable RequestBuffer.step b (fun _ _ => True) b' ∧ Uses s' b' := by
  obtain ⟨r, hr, hstep⟩ := Option.bind_eq_some_iff.mp hstep
  obtain ⟨r', hr', hstep⟩ := Option.bind_eq_some_iff.mp hstep
  cases hstep
  rcases Req.collect_shared hr' with hsame | htaken
  · exact ⟨b, .start, h.setCollector hr r' hsame⟩
  · obtain ⟨rb, hrb, hshared⟩ := h.exists_request hr
    have hset := h.setReq hrb r' { rb with replyChannel := none }
      ((congrArg (fun x : RequestBuffer.Shared => { x with replyChannel := none }) hshared).trans
        htaken.symm) rfl
    refine ⟨_, .step (l := .receive k) .start trivial ?_, hset⟩
    rw [RequestBuffer.step, RequestBuffer.updateReq, hrb]
    rfl

theorem Req.cancel_eq_some {stopped : Bool} (h : r.cancel stopped = some r') :
    r' = { r with supplier := .done } ∧ ∀ rb : RequestBuffer.Req, rb.shared = r.shared →
      rb.done = true → rb.close = some { rb with supplier := .done } := by
  unfold Req.cancel at h
  split_ifs at h
  have hsupplier {rb : RequestBuffer.Req} (hshared : rb.shared = r.shared) :
      rb.supplier = r.supplier := congrArg RequestBuffer.Shared.supplier hshared
  split at h
  · next hsending =>
      cases h
      refine ⟨rfl, fun rb hshared hdone => ?_⟩
      rw [RequestBuffer.Req.close, if_pos hdone, hsupplier hshared, hsending]
  · next hwaiting =>
      cases h
      refine ⟨rfl, fun rb hshared hdone => ?_⟩
      rw [RequestBuffer.Req.close, if_pos hdone, hsupplier hshared, hwaiting]
  · cases h

/-- The supplier ends once the channel is closed for which the other goroutine waits. -/
theorem Uses.cancel (h : Uses s b) {stopped : Bool}
    (hstep : Client.updateReq s k (fun r => r.cancel stopped) = some s') :
    ∃ b', Machine.Reachable RequestBuffer.step b (fun _ _ => True) b' ∧ Uses s' b' := by
  obtain ⟨r, hr, hstep⟩ := Option.bind_eq_some_iff.mp hstep
  obtain ⟨r', hr', hstep⟩ := Option.bind_eq_some_iff.mp hstep
  cases hstep
  obtain ⟨rfl, hclose⟩ := Req.cancel_eq_some hr'
  obtain ⟨rb, hrb, hshared⟩ := h.exists_request hr
  have hlt := h.origin rb (List.mem_of_getElem? hrb)
  have hcall := List.getElem?_eq_getElem hlt
  generalize b.calls[rb.call] = cb at hcall
  let b₁ : RequestBuffer.State :=
    { b with calls := b.calls.set rb.call { cb with canceled := true } }
  let b₂ : RequestBuffer.State :=
    { b₁ with requests := b₁.requests.set k { rb with done := true } }
  have huses₁ : Uses s b₁ := h.cancelCall hcall
  have hcancel : RequestBuffer.step b (.cancel rb.call) = some b₁ := by
    rw [RequestBuffer.step, hcall]
    rfl
  have hfinish : RequestBuffer.step b₁ (.finish k) = some b₂ := by
    have hcanceled : b₁.calls[rb.call]? = some { cb with canceled := true } := by
      simp [b₁, hlt]
    have hrb₁ : b₁.requests[k]? = some rb := hrb
    rw [RequestBuffer.step, RequestBuffer.updateReq, hrb₁]
    simp [hcanceled, RequestBuffer.Req.finish, b₂]
  have hlen : k < b.requests.length := (List.getElem?_eq_some_iff.mp hrb).1
  have hrb₂ : b₂.requests[k]? = some { rb with done := true } := by
    simp [b₂, b₁, hlen]
  have hdone : RequestBuffer.step b₂ (.close k) = some { b₂ with
      requests := b₂.requests.set k { rb with done := true, supplier := .done } } := by
    rw [RequestBuffer.step, RequestBuffer.updateReq, hrb₂]
    exact congrArg (Option.bind · _) (hclose { rb with done := true } hshared rfl)
  refine ⟨_, ((Machine.Reachable.start.step trivial hcancel).step trivial hfinish).step
    trivial hdone, ?_⟩
  have hset := huses₁.setReq hrb { r with supplier := .done }
    { rb with done := true, supplier := .done }
    (congrArg (fun x : RequestBuffer.Shared => { x with supplier := .done }) hshared) rfl
  refine ⟨hset.lastSeq, hset.request, hset.replies, ?_, hset.calls, ?_⟩
  · simpa [b₂] using hset.requests
  · simpa [b₂] using hset.origin

theorem Uses.any_removed (h : Uses s b) (k : ℕ) :
    (b.requests[k]?).any RequestBuffer.Req.removed = (s.requests[k]?).any Req.removed := by
  have hk := congrArg (Option.any RequestBuffer.Shared.removed) (h.getElem?_requests k)
  rwa [Option.any_map, Option.any_map] at hk

/-- A call of the client that waits does so in the buffer. -/
theorem Uses.exists_waiting (h : Uses s b) (hlive : s.panicked = false) {i : ℕ} {c : Call}
    {seq : UInt64} (hc : s.calls[i]? = some c) (hphase : c.phase = .waiting seq k) :
    ∃ cb, b.calls[i]? = some cb ∧ cb.msg = c.msg ∧ cb.phase = .waiting seq k := by
  obtain ⟨cb, hcb, hshared⟩ := h.exists_call hlive hc
  refine ⟨cb, hcb, congrArg Prod.fst hshared, (congrArg Prod.snd hshared).trans ?_⟩
  rw [Call.shared, hphase]
  rfl

/-- A call of a client that has been stopped is canceled in the buffer first. -/
theorem Uses.giveUp (h : Uses s b) (hlive : s.panicked = false) {i : ℕ} {c : Call} {seq : UInt64}
    (hc : s.calls[i]? = some c) (hphase : c.phase = .waiting seq k) :
    ∃ b', Machine.Reachable RequestBuffer.step b (fun _ _ => True) b' ∧
      Uses (Client.removeRequest (resume s i c) seq) b' := by
  obtain ⟨cb, hcb, hmsg, hwaiting⟩ := h.exists_waiting hlive hc hphase
  have hcancel : RequestBuffer.step b (.cancel i) =
      some { b with calls := b.calls.set i { cb with canceled := true } } := by
    rw [RequestBuffer.step, hcb]
    rfl
  have hset := ((h.cancelCall hcb).setCall i { c with phase := .adding }
    { cb with canceled := true, phase := .adding } (Prod.ext hmsg rfl)).removeRequest seq
  refine ⟨_, (Machine.Reachable.start.step trivial hcancel).step (l := .giveUp i) trivial ?_, hset⟩
  have hlt := (List.getElem?_eq_some_iff.mp hcb).1
  simp [RequestBuffer.step, hlt, hwaiting, RequestBuffer.resume]

/-- The second part of `AddReply`. -/
theorem Uses.addReply (h : Uses s b) {i : ℕ} {msg : Reply} (hmsg : s.replies[i]? = some (msg, k))
    (hr : s.requests[k]? = some r) :
    ∃ b', RequestBuffer.step b (.insert i) = some b' ∧
      Uses { s with
        replies := s.replies.eraseIdx i,
        requests := s.requests.set k { r with replySet := r.replySet.addReply msg } } b' := by
  obtain ⟨rb, hrb, hshared⟩ := h.exists_request hr
  have hset := h.setReq hrb { r with replySet := r.replySet.addReply msg }
    { rb with replySet := rb.replySet.addReply msg } (congrArg (fun x : RequestBuffer.Shared =>
      { x with replySet := x.replySet.addReply msg }) hshared) rfl
  refine ⟨{ b with
    replies := b.replies.eraseIdx i
    requests := b.requests.set k { rb with replySet := rb.replySet.addReply msg } }, ?_,
    hset.lastSeq, hset.request, congrArg (List.eraseIdx · i) h.replies, hset.requests, hset.calls,
    hset.origin⟩
  rw [RequestBuffer.step, h.replies, hmsg]
  simp [RequestBuffer.updateReq, hrb]

/-- Each step of the client is made of steps of its buffer. -/
theorem Uses.act {label : Label} (h : Uses s b) (hlive : s.panicked = false)
    (hstep : act p s label = some s') :
    ∃ b', Machine.Reachable RequestBuffer.step b (fun _ _ => True) b' ∧ Uses s' b' := by
  have hone {l : RequestBuffer.Label} {b' : RequestBuffer.State}
      (hl : RequestBuffer.step b l = some b') (huses : Uses s' b') :
      ∃ b', Machine.Reachable RequestBuffer.step b (fun _ _ => True) b' ∧ Uses s' b' :=
    ⟨b', .step .start trivial hl, huses⟩
  cases label with
  | call operation =>
      cases hstep
      refine hone (l := .addRequest (prepareRequest p s.nextSeq operation)) rfl
        ⟨h.lastSeq, h.request, h.replies, h.requests, fun _ => ?_, fun r hr => ?_⟩
      · unfold handleRequest
        rw [List.map_append, List.map_append, h.calls hlive]
        rfl
      · rw [List.length_append]
        exact Nat.lt_add_right _ (h.origin r hr)
  | add i =>
      obtain ⟨c, hc, hstep⟩ := Option.bind_eq_some_iff.mp hstep
      split at hstep
      · next hphase =>
          cases hstep
          obtain ⟨cb, hcb, hshared⟩ := h.exists_call hlive hc
          have hadding : cb.phase = .adding := by
            have hsnd := congrArg Prod.snd hshared
            rwa [Call.shared, hphase] at hsnd
          refine hone (l := .add i) ?_ (h.addRequest hlive hcb hshared)
          rw [RequestBuffer.step, hcb]
          simp [hadding]
      · cases hstep
  | wake i =>
      obtain ⟨c, hc, hstep⟩ := Option.bind_eq_some_iff.mp hstep
      split at hstep
      · next seq k hphase =>
          split_ifs at hstep with hremoved
          cases hstep
          obtain ⟨cb, hcb, hmsg, hwaiting⟩ := h.exists_waiting hlive hc hphase
          refine hone (l := .wake i) ?_ (h.setCall i { c with phase := .adding }
            { cb with phase := .adding } (Prod.ext hmsg rfl))
          rw [RequestBuffer.step, hcb]
          simp [hwaiting, h.any_removed, hremoved, RequestBuffer.resume]
      · cases hstep
  | giveUp i =>
      obtain ⟨c, hc, hstep⟩ := Option.bind_eq_some_iff.mp hstep
      split at hstep
      · next seq k hphase =>
          split_ifs at hstep
          cases hstep
          exact h.giveUp hlive hc hphase
      · cases hstep
  | reply msg =>
      cases hstep
      exact h.handleReply msg
  | addReply i =>
      obtain ⟨⟨msg, k⟩, hmsg, hstep⟩ := Option.bind_eq_some_iff.mp hstep
      obtain ⟨r, hr, hstep⟩ := Option.bind_eq_some_iff.mp hstep
      cases hstep
      obtain ⟨b', hb', huses⟩ := h.addReply hmsg hr
      exact hone hb' huses
  | supply k =>
      obtain ⟨b', hb', huses⟩ := h.updateReq (fun _ _ _ => Req.supply_shared) hstep
      exact hone (l := .supply k) hb' huses
  | cancel k => exact h.cancel hstep
  | collect k => exact h.collect hstep
  | remove k =>
      obtain ⟨r, hr, hstep⟩ := Option.bind_eq_some_iff.mp hstep
      obtain ⟨reply, -, hstep⟩ := Option.bind_eq_some_iff.mp hstep
      cases hstep
      exact hone (l := .removeRequest reply.sequence) rfl
        ((h.setCollector hr { r with collector := .sending reply.result } rfl).removeRequest
          reply.sequence)
  | terminate =>
      cases hstep
      exact ⟨b, .start, h.lastSeq, h.request, h.replies, h.requests, h.calls, h.origin⟩

/-- A client runs on a request buffer. -/
theorem Reachable.uses (h : Reachable p s) : ∃ b, RequestBuffer.Reachable b ∧ Uses s b := by
  obtain ⟨startSeq, h⟩ := h
  induction h with
  | start => exact ⟨RequestBuffer.init, .start, uses_init startSeq⟩
  | step _ _ hstep ih =>
      obtain ⟨b, hb, huses⟩ := ih
      obtain ⟨hlive, hact⟩ := act_of_step hstep
      obtain ⟨b', hrest, huses'⟩ := huses.act hlive hact
      exact ⟨b', hb.trans hrest, huses'⟩

end Client

end MinBFT
