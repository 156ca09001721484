import MinBFT.ClientTimer
import MinBFT.Connections
import MinBFT.Requesting
import MinBFT.Views

/-!
# The timers of a replica

A replica starts the request timer of a client when it applies a request of the client, and stops it
when it executes this request. It starts the view-change timer when it leaves a view, and stops it
when it applies the NewView for the view it expects; it then applies all pending requests once more.
So either the view-change timer has not been stopped since the replica has left a view, or the
timers of all requests that are pending and not executed have not been stopped since the current
view. This needs that no NewView is processed ahead of the expected view.

The durations of request and prepare timers are asked for whenever one of them is started, that of
the view-change timer only once.
-/

namespace MinBFT

/-- What the providers made by `makeRequestTimeoutProvider` and `makePrepareTimeoutProvider` return
in one step, as the timers of requests are started. No request has its timer started twice in one
step. -/
structure Timeouts where
  request : Request → Int64
  prepare : Request → Int64

/-- The timers with the arguments of their callbacks: the view in which a request timer has been
started, the request and the view of a prepare timer, and the view that is expected. -/
structure Timers where
  requests : UInt32 → TimerState UInt64
  prepares : UInt32 → TimerState (Request × UInt64)
  viewChange : BackoffTimer.Timer UInt64

inductive TimerCall where
  | startRequest (r : Request) (view : UInt64)
  | stopRequest (r : Request)
  | startPrepare (r : Request) (view : UInt64)
  | stopPrepare (r : Request)
  | startViewChange (view : UInt64)
  | stopViewChange

namespace Timers

def new (timeoutViewChange : Int64) : Timers :=
  ⟨fun _ => .new, fun _ => .new, .new timeoutViewChange⟩

def setRequest (id : UInt32) (s : TimerState UInt64) (t : Timers) : Timers :=
  { t with requests := Function.update t.requests id s }

def setPrepare (id : UInt32) (s : TimerState (Request × UInt64)) (t : Timers) : Timers :=
  { t with prepares := Function.update t.prepares id s }

def call (d : Timeouts) (t : Timers) : TimerCall → Timers
  | .startRequest r view =>
      t.setRequest r.clientID ((t.requests r.clientID).start (d.request r) r.sequence view)
  | .stopRequest r => t.setRequest r.clientID ((t.requests r.clientID).stop r.sequence)
  | .startPrepare r view =>
      t.setPrepare r.clientID ((t.prepares r.clientID).start (d.prepare r) r.sequence (r, view))
  | .stopPrepare r => t.setPrepare r.clientID ((t.prepares r.clientID).stop r.sequence)
  | .startViewChange view => { t with viewChange := t.viewChange.start view }
  | .stopViewChange => { t with viewChange := t.viewChange.stop }

def calls (d : Timeouts) (t : Timers) (cs : List TimerCall) : Timers := cs.foldl (call d) t

end Timers

namespace Replica

variable (p : Params)

def applyRequestCalls (view : UInt64) (r : Request) : List TimerCall :=
  .startRequest r view :: if isPrimary view p.id p.config.n then [] else [.startPrepare r view]

/-- `executeRequest` stops the timer of each request that it delivers. -/
def executionCalls (s s' : Replica) : List TimerCall :=
  (s'.execution.requests.delivered.drop s.execution.requests.delivered.length).map .stopRequest

def applyCalls (order : List Request) (pendingReqs : RequestList) :
    CertifiedMessage → List TimerCall
  | .prepare q => if p.id = q.replicaID then [] else [.stopPrepare q.request]
  | .newView nv => .stopViewChange :: (pendingReqs.all order).flatMap
      (applyRequestCalls p nv.newView)
  | _ => []

/-- What processing a message does with timers, when it takes the replica from one state to
another. -/
def timerCalls (order : List Request) (s s' : Replica) : Message → List TimerCall
  | .request r =>
      if (s.execution.requests.captureReq r).isSome ∧ s.currentView = s.expectedView then
        applyRequestCalls p s.currentView r
      else []
  | .certified c => executionCalls s s' ++ if s.applied.length < s'.applied.length then
      applyCalls p order s'.execution.requests.pendingReqs c else []
  | .reqViewChange _ =>
      if s.expectedView < s'.expectedView then [.startViewChange s'.expectedView] else []
  | _ => []

end Replica

namespace Requests

variable {s s' : Requests}

/-- What is delivered has been retired. -/
theorem Steps.delivered_retired (h : Steps s s') :
    (∀ id, (s.clients id).lastRetiredSeq ≤ (s'.clients id).lastRetiredSeq) ∧
      ∃ new, s'.delivered = s.delivered ++ new ∧
        ∀ r ∈ new, r.sequence ≤ (s'.clients r.clientID).lastRetiredSeq := by
  induction h with
  | refl =>
      refine ⟨fun _ => UInt64.le_refl _, [], (List.append_nil _).symm, ?_⟩
      intro r hr
      cases hr
  | @tail s₁ s₂ _ hstep ih =>
      obtain ⟨hle, new, hnew, hretired⟩ := ih
      have hmono : ∀ id, (s₁.clients id).lastRetiredSeq ≤ (s₂.clients id).lastRetiredSeq := by
        intro id
        cases hstep with
        | @prepared r =>
            by_cases hid : id = r.clientID
            · subst hid
              simp [markPrepared]
            · simp [markPrepared, hid]
        | @delivered r _ hlt =>
            by_cases hid : id = r.clientID
            · subst hid
              simpa [markDelivered] using UInt64.le_of_lt hlt
            · simp [markDelivered, hid]
      refine ⟨fun id => UInt64.le_trans (hle id) (hmono id), ?_⟩
      have hkept : ∀ r ∈ new, r.sequence ≤ (s₂.clients r.clientID).lastRetiredSeq :=
        fun r hr => UInt64.le_trans (hretired r hr) (hmono r.clientID)
      cases hstep with
      | prepared => exact ⟨new, hnew, hkept⟩
      | @delivered r _ hlt =>
          refine ⟨new ++ [r], ?_, fun x hx => ?_⟩
          · rw [← List.append_assoc, ← hnew]
            rfl
          · rcases List.mem_append.mp hx with hx | hx
            · exact hkept x hx
            · cases List.mem_singleton.mp hx
              simp [markDelivered]

end Requests

def BackoffTimer.Timer.Armed (t : BackoffTimer.Timer UInt64) (view : UInt64) : Prop :=
  ∃ i u, t.timer = some i ∧ t.timers[i]? = some u ∧ u.callback = view ∧ u.status ≠ .stopped

/-- A timer that expires has not been stopped. -/
theorem BackoffTimer.Timer.Armed.expire {t : BackoffTimer.Timer UInt64} {view : UInt64}
    (h : t.Armed view) (i : ℕ) : (t.expire i).Armed view := by
  obtain ⟨j, u, htimer, hu, hcallback, hstatus⟩ := h
  rcases t.expire_cases i with ⟨-, heq⟩ | ⟨v, hv, -, heq⟩
  · rw [heq]
    exact ⟨j, u, htimer, hu, hcallback, hstatus⟩
  · rw [heq]
    by_cases hij : i = j
    · subst hij
      cases hu.symm.trans hv
      exact ⟨i, _, htimer, List.getElem?_set_self (List.getElem?_eq_some_iff.mp hu).1, hcallback,
        by simp⟩
    · exact ⟨j, u, htimer, (List.getElem?_set_ne hij).trans hu, hcallback, hstatus⟩

namespace Timers

variable {t : Timers} {d : Timeouts} {p : Params} {view : UInt64}

theorem calls_append (d : Timeouts) (t : Timers) (a b : List TimerCall) :
    t.calls d (a ++ b) = (t.calls d a).calls d b := List.foldl_append

/-- Stopping the timers of other requests. -/
theorem calls_stopRequest (d : Timeouts) (t : Timers) (rs : List Request) :
    (t.calls d (rs.map .stopRequest)).viewChange = t.viewChange ∧
      ∀ id seq f, (∀ r ∈ rs, r.clientID = id → r.sequence ≠ seq) →
        (t.requests id).Armed seq f →
        ((t.calls d (rs.map .stopRequest)).requests id).Armed seq f := by
  induction rs generalizing t with
  | nil => exact ⟨rfl, fun _ _ _ _ h => h⟩
  | cons r rs ih =>
      obtain ⟨hview, harmed⟩ := ih (t.call d (.stopRequest r))
      refine ⟨hview, fun id seq f hne h => harmed id seq f ?_ ?_⟩
      · intro x hx
        exact hne x (List.mem_cons_of_mem _ hx)
      · by_cases hid : id = r.clientID
        · subst hid
          simp only [call, setRequest, Function.update_self]
          exact h.stop (hne r List.mem_cons_self rfl)
        · simp only [call, setRequest, Function.update_of_ne hid]
          exact h

theorem calls_applyRequest (d : Timeouts) (p : Params) (view : UInt64) (t : Timers) (r : Request) :
    (t.calls d (Replica.applyRequestCalls p view r)).viewChange = t.viewChange ∧
      (t.calls d (Replica.applyRequestCalls p view r)).requests =
        Function.update t.requests r.clientID
          ((t.requests r.clientID).start (d.request r) r.sequence view) := by
  unfold Replica.applyRequestCalls
  split_ifs <;> exact ⟨rfl, rfl⟩

/-- All pending requests are applied. -/
theorem calls_applyPending (hd : ∀ r, 0 < d.request r) (rs : List Request)
    (hnodup : (rs.map (·.clientID)).Nodup) :
    (t.calls d (rs.flatMap (Replica.applyRequestCalls p view))).viewChange = t.viewChange ∧
      (∀ id, id ∉ rs.map (·.clientID) →
        (t.calls d (rs.flatMap (Replica.applyRequestCalls p view))).requests id =
          t.requests id) ∧
      ∀ r ∈ rs, ((t.calls d (rs.flatMap (Replica.applyRequestCalls p view))).requests
        r.clientID).Armed r.sequence view := by
  induction rs generalizing t with
  | nil => exact ⟨rfl, fun _ _ => rfl, fun r hr => absurd hr List.not_mem_nil⟩
  | cons r rs ih =>
      rw [List.map_cons, List.nodup_cons] at hnodup
      obtain ⟨hview, hrequests⟩ := calls_applyRequest d p view t r
      obtain ⟨hrest, hother, harmed⟩ :=
        @ih (t.calls d (Replica.applyRequestCalls p view r)) hnodup.2
      rw [List.flatMap_cons, calls_append]
      refine ⟨hrest.trans hview, fun id hid => ?_, fun x hx => ?_⟩
      · rw [List.map_cons, List.mem_cons, not_or] at hid
        rw [hother id hid.2, hrequests, Function.update_of_ne hid.1]
      · rcases List.mem_cons.mp hx with rfl | hx
        · rw [hother _ hnodup.1, hrequests, Function.update_self]
          exact TimerState.armed_start (hd _) _ _ _
        · exact harmed x hx

end Timers

namespace Replica

variable {p : Params} {order : List Request} {s s' : Replica} {m : Message} {t : Timers}
  {d : Timeouts}

/-- The replica waits for a NewView with the timer armed, or all pending requests that have not been
executed have timers armed for the current view. -/
def Watched (s : Replica) (t : Timers) : Prop :=
  t.viewChange.Armed s.expectedView ∨ s.currentView = s.expectedView ∧
    ∀ r ∈ s.execution.requests.pendingReqs.messages,
      (s.execution.requests.clients r.clientID).lastRetiredSeq < r.sequence →
        (t.requests r.clientID).Armed r.sequence s.currentView

/-- Executing requests stops the timers of no others. -/
theorem Watched.executed (h : s.Watched t)
    (hsteps : Requests.Steps s.execution.requests s'.execution.requests)
    (hexp : s'.expectedView = s.expectedView)
    (hcur : s.currentView = s.expectedView → s'.currentView = s.currentView) :
    s'.Watched (t.calls d (executionCalls s s')) := by
  obtain ⟨hretired, new, hnew, hdelivered⟩ := hsteps.delivered_retired
  have hcalls : executionCalls s s' = new.map .stopRequest := by
    rw [executionCalls, hnew, List.drop_left]
  obtain ⟨hview, harmed⟩ := t.calls_stopRequest d new
  rw [hcalls]
  rcases h with hwait | ⟨heq, hpending⟩
  · left
    rw [hview, hexp]
    exact hwait
  · right
    rw [hexp, hcur heq]
    refine ⟨heq, fun r hr hlt => ?_⟩
    apply harmed
    · intro x hx hid hseq
      have hle := hdelivered x hx
      rw [hid, hseq] at hle
      exact absurd hlt (UInt64.not_lt.mpr hle)
    · exact hpending r (hsteps.pending_subset hr) (UInt64.lt_of_le_of_lt (hretired _) hlt)

theorem viewFor_of_eq (c : CertifiedMessage) (h : s.currentView = s.expectedView) :
    s.viewFor c = s.currentView := by
  unfold viewFor
  split_ifs
  · exact h.symm
  · rfl

theorem Watched.requested {r : Request} {requests : Requests} (h : s.Watched t)
    (hd : ∀ r, 0 < d.request r) (hcap : s.execution.requests.captureReq r = some requests)
    (hview : s.currentView = s.expectedView) {o : Output} :
    ({ s.setRequests requests with output := o }.handle (.request r)).Watched
      (t.calls d (applyRequestCalls p s.currentView r)) := by
  obtain ⟨hsame, hrequests⟩ := Timers.calls_applyRequest d p s.currentView t r
  rcases h with hwait | ⟨-, hpending⟩
  · left
    rw [hsame]
    exact hwait
  · right
    refine ⟨hview, fun x hx hlt => ?_⟩
    rw [hrequests]
    rcases Requests.captureReq_cases r s.execution.requests with ⟨-, hnone⟩ | ⟨-, hsome⟩
    · cases hcap.symm.trans hnone
    · cases hcap.symm.trans hsome
      rcases RequestList.mem_add.mp hx with rfl | ⟨hx, hid⟩
      · rw [Function.update_self]
        exact TimerState.armed_start (hd _) _ _ _
      · rw [Function.update_of_ne hid]
        apply hpending x hx
        simpa [setRequests, handle, hid] using hlt

theorem Watched.completed {c : CertifiedMessage} {x : Execution} (h : s.Watched t)
    (hd : ∀ r, 0 < d.request r) (happ : s.Applicable c)
    (htake : Execution.take c s.execution = .ok () x) :
    (((s.complete p order c x).advance c).handle (.certified c)).Watched
      (t.calls d (executionCalls s (((s.complete p order c x).advance c).handle (.certified c)) ++
        applyCalls p order x.requests.pendingReqs c)) := by
  have hexec : (((s.complete p order c x).advance c).handle (.certified c)).Watched
      (t.calls d (executionCalls s
        (((s.complete p order c x).advance c).handle (.certified c)))) :=
    h.executed (Transition.taken happ htake).requests_steps rfl (viewFor_of_eq c)
  rw [Timers.calls_append]
  cases c with
  | newView nv =>
      have hview : nv.newView = s.expectedView := Option.some.inj happ.messageView
      have hperm := RequestList.all_perm order x.requests.pendingReqs
      have hnodup : ((x.requests.pendingReqs.all order).map (·.clientID)).Nodup :=
        (hperm.map _).nodup_iff.mpr x.requests.pendingReqs.nodup
      have hcur : s.viewFor (.newView nv) = s.expectedView := if_pos rfl
      refine .inr ⟨hcur, fun r hr _ => ?_⟩
      change TimerState.Armed _ _ (s.viewFor (.newView nv))
      rw [hcur, ← hview]
      exact (Timers.calls_applyPending hd _ hnodup).2.2 r (hperm.mem_iff.mpr hr)
  | prepare q =>
      simp only [applyCalls]
      split_ifs <;> exact hexec
  | _ => exact hexec

theorem Watched.transition (h : s.Watched t) (hd : ∀ r, 0 < d.request r)
    (htimely : s.Timely m) (htrans : Transition p order m s s') :
    s'.Watched (t.calls d (timerCalls p order s s' m)) := by
  -- a message that is not applied makes the replica do no more than execute requests
  have hcertified {c : CertifiedMessage} {s' : Replica}
      (hsteps : Requests.Steps s.execution.requests s'.execution.requests)
      (happlied : s'.applied = s.applied) (hexp : s'.expectedView = s.expectedView)
      (hcur : s.currentView = s.expectedView → s'.currentView = s.currentView) :
      s'.Watched (t.calls d (timerCalls p order s s' (.certified c))) := by
    rw [timerCalls, happlied, if_neg (Nat.lt_irrefl _), List.append_nil]
    exact h.executed hsteps hexp hcur
  cases htrans with
  | refused hfails =>
      cases m with
      | certified c => exact hcertified .refl rfl rfl fun _ => rfl
      | request => cases hfails
      | reqViewChange => cases hfails
      | _ => exact h
  | known hcap =>
      simp only [timerCalls, hcap]
      exact h
  | captured hcap hview =>
      simp only [timerCalls, hview, and_false, if_false]
      exact .inl (h.resolve_right fun hr => hview hr.1)
  | requested hcap hview =>
      simp only [timerCalls, hcap, hview, Option.isSome_some, and_self, if_true]
      rw [← hview]
      exact h.requested hd hcap hview
  | old => exact hcertified .refl rfl rfl fun _ => rfl
  | viewChange => exact hcertified .refl rfl rfl fun _ => rfl
  | newView => exact hcertified .refl rfl rfl fun _ => rfl
  | dropped => exact hcertified .refl rfl rfl fun _ => rfl
  | skipped hnext hlt hne =>
      refine hcertified .refl rfl rfl fun heq => ?_
      have hle := htimely hnext
      rw [heq] at hlt
      exact absurd hlt (UInt64.not_lt.mpr hle)
  | @failed c _ e x happ htake =>
      exact hcertified (Transition.taken happ htake).requests_steps rfl rfl (viewFor_of_eq c)
  | @applied c _ x happ htake =>
      have hgrows : s.applied.length <
          (((s.complete p order c x).advance c).handle (.certified c)).applied.length := by
        simp [complete, advance, handle]
      rw [timerCalls, if_pos hgrows]
      exact h.completed hd happ htake
  | reqViewChange =>
      simp only [timerCalls, handle, collectReqViewChange, UInt64.lt_irrefl, if_false]
      exact h
  | @leftView rvc cert _ hcert hlt =>
      left
      have hcalls : timerCalls p order s ((s.leaveView p rvc cert).handle (.reqViewChange rvc))
          (.reqViewChange rvc) = [.startViewChange rvc.newView] := if_pos hlt
      rw [hcalls]
      exact ⟨_, _, rfl, List.getElem?_concat_length, rfl, by simp⟩

end Replica

/-- What is known of the views for which request and view-change timers have been started, of the
prepare timers, and of the views for which the former have expired. -/
structure Timers.Traced (V : UInt64 → Prop) (W : Request × UInt64 → Prop) (A : UInt64 → Prop)
    (t : Timers) : Prop where
  requests : ∀ id, BackoffTimer.Traced V A (t.requests id).timers
  prepares : ∀ id, BackoffTimer.Traced W (fun _ => True) (t.prepares id).timers
  viewChange : BackoffTimer.Traced V A t.viewChange.timers

def TimerCall.Allowed (V : UInt64 → Prop) (W : Request × UInt64 → Prop) : TimerCall → Prop
  | .startRequest _ view => V view
  | .startPrepare r view => W (r, view)
  | .startViewChange view => V view
  | _ => True

namespace Timers.Traced

variable {V A V' A' : UInt64 → Prop} {W W' : Request × UInt64 → Prop} {t : Timers} {d : Timeouts}

theorem mono (h : t.Traced V W A) (hV : ∀ v, V v → V' v) (hW : ∀ x, W x → W' x)
    (hA : ∀ v, A v → A' v) : t.Traced V' W' A' :=
  ⟨fun id => (h.requests id).mono hV hA, fun id => (h.prepares id).mono hW fun _ hx => hx,
    h.viewChange.mono hV hA⟩

theorem setRequest (h : t.Traced V W A) (id : UInt32) {s : TimerState UInt64}
    (hs : BackoffTimer.Traced V A s.timers) : (t.setRequest id s).Traced V W A := by
  refine ⟨fun a => ?_, h.prepares, h.viewChange⟩
  by_cases ha : a = id
  · subst ha
    simpa [Timers.setRequest] using hs
  · simpa [Timers.setRequest, ha] using h.requests a

theorem setPrepare (h : t.Traced V W A) (id : UInt32) {s : TimerState (Request × UInt64)}
    (hs : BackoffTimer.Traced W (fun _ => True) s.timers) : (t.setPrepare id s).Traced V W A := by
  refine ⟨h.requests, fun a => ?_, h.viewChange⟩
  by_cases ha : a = id
  · subst ha
    simpa [Timers.setPrepare] using hs
  · simpa [Timers.setPrepare, ha] using h.prepares a

theorem call (h : t.Traced V W A) {c : TimerCall} (hc : c.Allowed V W) :
    (t.call d c).Traced V W A := by
  cases c with
  | startRequest r view => exact h.setRequest _ (TimerState.traced_start (h.requests _) _ _ hc)
  | stopRequest r => exact h.setRequest _ (TimerState.traced_stop (h.requests _) _)
  | startPrepare r view => exact h.setPrepare _ (TimerState.traced_start (h.prepares _) _ _ hc)
  | stopPrepare r => exact h.setPrepare _ (TimerState.traced_stop (h.prepares _) _)
  | startViewChange view => exact ⟨h.requests, h.prepares, h.viewChange.concat _ hc⟩
  | stopViewChange =>
      refine ⟨h.requests, h.prepares, ?_⟩
      simp only [Timers.call, BackoffTimer.Timer.stop]
      split
      · exact h.viewChange.stop _
      · exact h.viewChange

theorem calls (h : t.Traced V W A) {cs : List TimerCall} (hcs : ∀ c ∈ cs, c.Allowed V W) :
    (t.calls d cs).Traced V W A := by
  induction cs generalizing t with
  | nil => exact h
  | cons c cs ih =>
      exact ih (h.call (hcs c List.mem_cons_self)) fun x hx => hcs x (List.mem_cons_of_mem _ hx)

end Timers.Traced

namespace Output

variable {p : Params} {o o' : Output} {view : UInt64}

theorem Steps.timers_subset (h : Steps p o o') (hview : view ∈ o.timers) : view ∈ o'.timers := by
  induction h with
  | refl => exact hview
  | tail _ hstep ih =>
      cases hstep with
      | startTimer => exact List.mem_cons_of_mem _ ih
      | _ => exact ih

theorem mem_timers_applyRequest (r : Request) (o : Output) :
    view ∈ (o.applyRequest p view r).timers := by
  unfold applyRequest
  split_ifs <;> exact List.mem_cons_self

theorem mem_timers_applyPendingRequests {pendingReqs : RequestList} {order : List Request}
    {r : Request} (hr : r ∈ pendingReqs.all order) (o : Output) :
    view ∈ (o.applyPendingRequests p pendingReqs order view).timers := by
  unfold applyPendingRequests
  generalize pendingReqs.all order = rs at hr
  have hfold : ∀ (rs : List Request) (o : Output), view ∈ o.timers →
      view ∈ (rs.foldl (applyRequest p view) o).timers := by
    intro rs
    induction rs with
    | nil => exact fun _ h => h
    | cons x rs ih => exact fun o _ => ih _ (mem_timers_applyRequest x o)
  cases rs with
  | nil => cases hr
  | cons x rs => exact hfold rs _ (mem_timers_applyRequest x o)

end Output

namespace Replica

variable {p : Params} {order : List Request} {s s' : Replica} {m : Message}

structure Forwards (p : Params) (s : Replica) (x : Request × UInt64) : Prop where
  backup : isPrimary x.2 p.id p.config.n = false
  view : x.2 ≤ s.currentView
  handled : .request x.1 ∈ s.handled

theorem Forwards.mayExpire {net : Network} {i : UInt32} {view : UInt64} {r : Request}
    (h : s.Forwards (net.params i) (r, view)) : Connected.mayExpire net s i view r = true := by
  have hbackup : isPrimary view i net.config.n = false := h.backup
  unfold Connected.mayExpire
  rw [hbackup, decide_eq_true h.view, Bool.not_false, Bool.true_and, Bool.true_and]
  exact List.any_eq_true.mpr ⟨_, h.handled, beq_self_eq_true r⟩

theorem allowed_applyRequestCalls {V : UInt64 → Prop} {W : Request × UInt64 → Prop}
    {view : UInt64} {r : Request} (hV : V view)
    (hW : isPrimary view p.id p.config.n = false → W (r, view)) :
    ∀ c ∈ applyRequestCalls p view r, c.Allowed V W := by
  intro c hc
  unfold applyRequestCalls at hc
  rcases List.mem_cons.mp hc with rfl | hc
  · exact hV
  · split_ifs at hc with hprimary
    · cases hc
    · cases List.mem_singleton.mp hc
      exact hW (Bool.eq_false_iff.mpr hprimary)

theorem mem_timers_respond {nv : NewView} {pendingReqs : RequestList} {r : Request}
    (hr : r ∈ pendingReqs.all order) (o : Output) :
    nv.newView ∈ (respond p order pendingReqs (.newView nv) o).timers := by
  have hmem : nv.newView ∈ (o.applyPendingRequests p pendingReqs order nv.newView).timers :=
    Output.mem_timers_applyPendingRequests hr o
  simp only [respond]
  split_ifs
  · exact hmem
  · exact hmem

/-- Timers are started only for views the replica keeps a record of, and only for requests it has
handled. -/
theorem Transition.allowed (h : Transition p order m s s')
    (hpending : ∀ r ∈ s'.execution.requests.pendingReqs.messages, .request r ∈ s'.handled) :
    ∀ c ∈ timerCalls p order s s' m, c.Allowed (· ∈ s'.output.timers) (Forwards p s') := by
  intro c hc
  cases m with
  | request r =>
      simp only [timerCalls] at hc
      split_ifs at hc with hcond
      · cases h with
        | refused hfails => cases hfails
        | known hcap => simp [hcap] at hcond
        | captured _ hview => exact absurd hcond.2 hview
        | requested =>
            refine allowed_applyRequestCalls ?_ ?_ c hc
            · exact Output.mem_timers_applyRequest r s.output
            · intro hbackup
              exact ⟨hbackup, UInt64.le_refl _, List.mem_append_right _ List.mem_cons_self⟩
      · cases hc
  | certified msg =>
      rcases List.mem_append.mp hc with hc | hc
      · obtain ⟨r, -, rfl⟩ := List.mem_map.mp hc
        trivial
      · split_ifs at hc with hgrows
        · cases h with
          | @applied _ _ x happ htake =>
              cases msg with
              | prepare q =>
                  simp only [applyCalls] at hc
                  split_ifs at hc
                  · cases hc
                  · cases List.mem_singleton.mp hc
                    trivial
              | newView nv =>
                  rcases List.mem_cons.mp hc with rfl | hc
                  · trivial
                  · obtain ⟨r, hr, hc⟩ := List.mem_flatMap.mp hc
                    refine allowed_applyRequestCalls (mem_timers_respond hr s.output) ?_ c hc
                    intro hbackup
                    refine ⟨hbackup, ?_, hpending r (RequestList.mem_all.mp hr)⟩
                    have hview : nv.newView = s.expectedView := Option.some.inj happ.messageView
                    have hcur : s.viewFor (.newView nv) = s.expectedView := if_pos rfl
                    exact UInt64.le_of_eq (hview.trans hcur.symm)
              | _ => cases hc
          | _ => exact absurd hgrows (Nat.lt_irrefl _)
        · cases hc
  | reqViewChange rvc =>
      simp only [timerCalls] at hc
      split_ifs at hc with hlt
      · cases List.mem_singleton.mp hc
        cases h with
        | leftView => exact List.mem_cons_self
        | _ => exact absurd hlt (UInt64.lt_irrefl _)
      · cases hc
  | _ => cases hc

end Replica

end MinBFT
