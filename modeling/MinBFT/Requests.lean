import Mathlib.Logic.Relation
import MinBFT.Faults
import MinBFT.Lib.EState

/-!
# Client requests

What a replica keeps about the requests of its clients: for each client the sequence numbers last
captured, prepared and retired (package `clientstate`), and the lists of pending and of prepared
requests with one slot for each client (package `requestlist`).

A request is processed under the view lock and its sequence number is released before that lock is,
so captures never have to wait here. Timers and replies do not feed back into this state.
-/

namespace MinBFT

structure SeqState where
  lastCapturedSeq : UInt64 := 0
  lastReleasedSeq : UInt64 := 0
  lastPreparedSeq : UInt64 := 0
  lastRetiredSeq : UInt64 := 0
deriving DecidableEq, Repr

namespace SeqState

/-- `CaptureRequestSeq`; `none` when the identifier is not new. -/
def captureRequestSeq (seq : UInt64) (s : SeqState) : Option SeqState :=
  if seq ≤ s.lastCapturedSeq then none else some { s with lastCapturedSeq := seq }

def release (s : SeqState) : SeqState := { s with lastReleasedSeq := s.lastCapturedSeq }

def prepareRequestSeq (seq : UInt64) (s : SeqState) : Except Panic (Option SeqState) :=
  if seq ≤ s.lastPreparedSeq then .ok none
  else if seq > s.lastCapturedSeq then .error .requestNotCaptured
  else .ok (some { s with lastPreparedSeq := seq })

def retireRequestSeq (seq : UInt64) (s : SeqState) : Except Panic (Option SeqState) :=
  if seq ≤ s.lastRetiredSeq then .ok none
  else if seq > s.lastPreparedSeq then .error .requestNotPrepared
  else .ok (some { s with lastRetiredSeq := seq })

def unprepareRequestSeq (s : SeqState) : SeqState := { s with lastPreparedSeq := s.lastRetiredSeq }

end SeqState

/-- A set of requests with at most one for each client. -/
structure RequestList where
  messages : List Request
  nodup : (messages.map (·.clientID)).Nodup

namespace RequestList

def empty : RequestList := ⟨[], List.nodup_nil⟩

def add (req : Request) (l : RequestList) : RequestList where
  messages := req :: l.messages.filter (·.clientID != req.clientID)
  nodup := by
    rw [List.map_cons, List.nodup_cons]
    refine ⟨?_, l.nodup.sublist (List.filter_sublist.map _)⟩
    intro h
    obtain ⟨r, hr, heq⟩ := List.mem_map.mp h
    simp [heq] at hr

def remove (req : Request) (l : RequestList) : RequestList where
  messages := l.messages.filter fun r =>
    !(r.clientID == req.clientID && r.sequence == req.sequence)
  nodup := l.nodup.sublist (List.filter_sublist.map _)

/-- `All` walks a Go map, so it may return the messages in any order. -/
def all (order : List Request) (l : RequestList) : List Request :=
  if order.isPerm l.messages then order else l.messages

@[simp] theorem mem_empty (r : Request) : r ∉ empty.messages := List.not_mem_nil

theorem mem_add {req r : Request} {l : RequestList} :
    r ∈ (l.add req).messages ↔ r = req ∨ r ∈ l.messages ∧ r.clientID ≠ req.clientID := by
  simp [add]

theorem mem_remove {req r : Request} {l : RequestList} :
    r ∈ (l.remove req).messages ↔
      r ∈ l.messages ∧ (r.clientID = req.clientID → r.sequence ≠ req.sequence) := by
  simp [remove, imp_iff_not_or]

theorem all_perm (order : List Request) (l : RequestList) : (l.all order).Perm l.messages := by
  unfold all
  split_ifs with h
  · exact List.isPerm_iff.mp h
  · exact List.Perm.refl _

theorem mem_all {order : List Request} {l : RequestList} {r : Request} :
    r ∈ l.all order ↔ r ∈ l.messages := (all_perm order l).mem_iff

theorem eq_of_clientID_eq {l : RequestList} {r r' : Request} (h : r ∈ l.messages)
    (h' : r' ∈ l.messages) (hid : r.clientID = r'.clientID) : r = r' :=
  List.inj_on_of_nodup_map l.nodup h h' hid

end RequestList

structure Requests where
  clients : UInt32 → SeqState
  pendingReqs : RequestList
  preparedReqs : RequestList
  /-- The requests whose operations have been passed to the consumer, in order. -/
  delivered : List Request

namespace Requests

def init : Requests := ⟨fun _ => {}, .empty, .empty, []⟩

def setClient (s : Requests) (id : UInt32) (c : SeqState) : Requests :=
  { s with clients := Function.update s.clients id c }

@[simp] theorem setClient_clients (s : Requests) (id : UInt32) (c : SeqState) :
    (s.setClient id c).clients = Function.update s.clients id c := rfl

@[simp] theorem setClient_preparedReqs (s : Requests) (id : UInt32) (c : SeqState) :
    (s.setClient id c).preparedReqs = s.preparedReqs := rfl

abbrev Action := EStateM Fault Requests

/-- `captureReq` and the release that ends the processing of a captured request. -/
def captureReq (request : Request) (s : Requests) : Option Requests :=
  ((s.clients request.clientID).captureRequestSeq request.sequence).map fun c =>
    { s.setClient request.clientID c.release with pendingReqs := s.pendingReqs.add request }

def prepareReq (request : Request) : Action Bool := do
  let s ← get
  match (s.clients request.clientID).prepareRequestSeq request.sequence with
  | .error p => throw (.panic p)
  | .ok none => return false
  | .ok (some c) =>
      set { s.setClient request.clientID c with
        preparedReqs := s.preparedReqs.add request
        pendingReqs := s.pendingReqs.remove request }
      return true

def retireReq (request : Request) : Action Bool := do
  let s ← get
  match (s.clients request.clientID).retireRequestSeq request.sequence with
  | .error p => throw (.panic p)
  | .ok none => return false
  | .ok (some c) =>
      set { s.setClient request.clientID c with preparedReqs := s.preparedReqs.remove request }
      return true

/-- One pass of the loop of `unprepareReqs`, which concerns one client only, so that the order of
`All` does not matter. -/
def unprepareReq (s : Requests) (req : Request) : Requests :=
  { s.setClient req.clientID (s.clients req.clientID).unprepareRequestSeq with
    pendingReqs := s.pendingReqs.add req
    preparedReqs := s.preparedReqs.remove req }

def unprepareReqs (s : Requests) : Requests := s.preparedReqs.messages.foldl unprepareReq s

/-- `executeRequest`; the operation goes to the consumer once, when the request is retired. -/
def executeRequest (request : Request) : Action Unit := do
  if ← retireReq request then
    modify fun s => { s with delivered := s.delivered ++ [request] }

/-- The loop of `applyNewView` over the requests propagated from previous views. -/
def prepareAll : List Request → Action Unit
  | [] => pure ()
  | req :: reqs => do
      let _ ← prepareReq req
      prepareAll reqs

def executeAll : List Request → Action Unit
  | [] => pure ()
  | req :: reqs => do
      executeRequest req
      executeAll reqs

def markPrepared (r : Request) (s : Requests) : Requests :=
  { s.setClient r.clientID { s.clients r.clientID with lastPreparedSeq := r.sequence } with
    preparedReqs := s.preparedReqs.add r
    pendingReqs := s.pendingReqs.remove r }

def markDelivered (r : Request) (s : Requests) : Requests :=
  { s.setClient r.clientID { s.clients r.clientID with lastRetiredSeq := r.sequence } with
    preparedReqs := s.preparedReqs.remove r
    delivered := s.delivered ++ [r] }

/-- What the loop does when it goes through requests of different clients. -/
structure Unprepared (reqs : List Request) (s s' : Requests) : Prop where
  clients : ∀ id, s'.clients id =
    if id ∈ reqs.map (·.clientID) then (s.clients id).unprepareRequestSeq else s.clients id
  pending : ∀ r, r ∈ s'.pendingReqs.messages ↔
    r ∈ reqs ∨ r ∈ s.pendingReqs.messages ∧ r.clientID ∉ reqs.map (·.clientID)
  prepared : ∀ r, r ∈ s'.preparedReqs.messages ↔ r ∈ s.preparedReqs.messages ∧
    ∀ x ∈ reqs, r.clientID = x.clientID → r.sequence ≠ x.sequence
  delivered : s'.delivered = s.delivered

theorem unprepared_foldl {reqs : List Request} (hnodup : (reqs.map (·.clientID)).Nodup)
    (s : Requests) : Unprepared reqs s (reqs.foldl unprepareReq s) := by
  induction reqs generalizing s with
  | nil => exact ⟨fun _ => rfl, by simp, by simp, rfl⟩
  | cons x reqs ih =>
      obtain ⟨hx, hrest⟩ := List.nodup_cons.mp hnodup
      obtain ⟨hclients, hpending, hprepared, hdelivered⟩ := ih hrest (s.unprepareReq x)
      refine ⟨fun id => ?_, fun r => ?_, fun r => ?_, hdelivered⟩
      · rw [List.foldl_cons, hclients]
        by_cases hid : id = x.clientID
        · subst hid
          simp [unprepareReq, hx]
        · simp [unprepareReq, hid]
      · rw [List.foldl_cons, hpending, unprepareReq, RequestList.mem_add, List.mem_cons,
          List.map_cons, List.mem_cons, not_or]
        constructor
        · rintro (h | ⟨rfl | ⟨h, hne⟩, hno⟩)
          · exact .inl (.inr h)
          · exact .inl (.inl rfl)
          · exact .inr ⟨h, hne, hno⟩
        · rintro ((rfl | h) | ⟨h, hne, hno⟩)
          · exact .inr ⟨.inl rfl, hx⟩
          · exact .inl h
          · exact .inr ⟨.inr ⟨h, hne⟩, hno⟩
      · rw [List.foldl_cons, hprepared, unprepareReq, RequestList.mem_remove, List.forall_mem_cons,
          and_assoc]

theorem unprepared_unprepareReqs (s : Requests) :
    Unprepared s.preparedReqs.messages s s.unprepareReqs :=
  unprepared_foldl s.preparedReqs.nodup s

/-- Nothing is prepared any more. -/
theorem not_mem_preparedReqs_unprepareReqs (s : Requests) (r : Request) :
    r ∉ s.unprepareReqs.preparedReqs.messages := by
  rw [s.unprepared_unprepareReqs.prepared]
  exact fun ⟨hr, hno⟩ => hno r hr rfl rfl

theorem prepareReq_cases (r : Request) (s : Requests) :
    (r.sequence ≤ (s.clients r.clientID).lastPreparedSeq ∧ prepareReq r s = .ok false s) ∨
      (s.clients r.clientID).lastPreparedSeq < r.sequence ∧
        (((s.clients r.clientID).lastCapturedSeq < r.sequence ∧
            prepareReq r s = .error (.panic .requestNotCaptured) s) ∨
          r.sequence ≤ (s.clients r.clientID).lastCapturedSeq ∧
            prepareReq r s = .ok true (s.markPrepared r)) := by
  unfold prepareReq SeqState.prepareRequestSeq
  rw [EStateM.bind_apply, EStateM.get_apply]
  by_cases hold : r.sequence ≤ (s.clients r.clientID).lastPreparedSeq
  · simp only [if_pos hold]
    exact .inl ⟨hold, rfl⟩
  · refine .inr ⟨UInt64.not_le.mp hold, ?_⟩
    by_cases hcap : r.sequence > (s.clients r.clientID).lastCapturedSeq
    · simp only [if_neg hold, if_pos hcap]
      exact .inl ⟨hcap, rfl⟩
    · simp only [if_neg hold, if_neg hcap]
      exact .inr ⟨UInt64.not_lt.mp hcap, rfl⟩

theorem executeRequest_cases (r : Request) (s : Requests) :
    (r.sequence ≤ (s.clients r.clientID).lastRetiredSeq ∧ executeRequest r s = .ok () s) ∨
      (s.clients r.clientID).lastRetiredSeq < r.sequence ∧
        (((s.clients r.clientID).lastPreparedSeq < r.sequence ∧
            executeRequest r s = .error (.panic .requestNotPrepared) s) ∨
          r.sequence ≤ (s.clients r.clientID).lastPreparedSeq ∧
            executeRequest r s = .ok () (s.markDelivered r)) := by
  unfold executeRequest retireReq SeqState.retireRequestSeq
  simp only [EStateM.bind_apply, EStateM.get_apply]
  by_cases hold : r.sequence ≤ (s.clients r.clientID).lastRetiredSeq
  · simp only [if_pos hold]
    exact .inl ⟨hold, rfl⟩
  · refine .inr ⟨UInt64.not_le.mp hold, ?_⟩
    by_cases hprep : r.sequence > (s.clients r.clientID).lastPreparedSeq
    · simp only [if_neg hold, if_pos hprep]
      exact .inl ⟨hprep, rfl⟩
    · simp only [if_neg hold, if_neg hprep]
      exact .inr ⟨UInt64.not_lt.mp hprep, rfl⟩

inductive Step : Requests → Requests → Prop where
  | prepared {r : Request} {s : Requests}
      (hnew : (s.clients r.clientID).lastPreparedSeq < r.sequence)
      (hcap : r.sequence ≤ (s.clients r.clientID).lastCapturedSeq) : Step s (s.markPrepared r)
  | delivered {r : Request} {s : Requests}
      (hnew : (s.clients r.clientID).lastRetiredSeq < r.sequence)
      (hprep : r.sequence ≤ (s.clients r.clientID).lastPreparedSeq) : Step s (s.markDelivered r)

abbrev Steps : Requests → Requests → Prop := Relation.ReflTransGen Step

structure Holding (Q : Request → Prop) (s : Requests) : Prop where
  pending : ∀ r ∈ s.pendingReqs.messages, Q r
  prepared : ∀ r ∈ s.preparedReqs.messages, Q r
  delivered : ∀ r ∈ s.delivered, Q r

section Holding

variable {Q : Request → Prop} {s s' : Requests} {r : Request} {reqs : List Request}

theorem holding_init : Holding Q init :=
  ⟨fun _ h => absurd h List.not_mem_nil, fun _ h => absurd h List.not_mem_nil,
    fun _ h => absurd h List.not_mem_nil⟩

theorem Holding.captureReq (h : Holding Q s) (hr : Q r) (hcap : s.captureReq r = some s') :
    Holding Q s' := by
  unfold Requests.captureReq at hcap
  obtain ⟨c, -, rfl⟩ := Option.map_eq_some_iff.mp hcap
  refine ⟨fun x hx => ?_, h.prepared, h.delivered⟩
  rcases RequestList.mem_add.mp hx with rfl | ⟨hx, -⟩
  · exact hr
  · exact h.pending x hx

theorem Holding.prepareReq (h : Holding Q s) (hr : Q r) : Holding Q (prepareReq r s).state := by
  rcases prepareReq_cases r s with ⟨-, heq⟩ | ⟨-, ⟨-, heq⟩ | ⟨-, heq⟩⟩
  · rwa [heq]
  · rwa [heq]
  · rw [heq]
    refine ⟨fun x hx => h.pending x (RequestList.mem_remove.mp hx).1, fun x hx => ?_, h.delivered⟩
    rcases RequestList.mem_add.mp hx with rfl | ⟨hx, -⟩
    · exact hr
    · exact h.prepared x hx

theorem Holding.executeRequest (h : Holding Q s) (hr : Q r) :
    Holding Q (executeRequest r s).state := by
  rcases executeRequest_cases r s with ⟨-, heq⟩ | ⟨-, ⟨-, heq⟩ | ⟨-, heq⟩⟩
  · rwa [heq]
  · rwa [heq]
  · rw [heq]
    refine ⟨h.pending, fun x hx => h.prepared x (RequestList.mem_remove.mp hx).1, fun x hx => ?_⟩
    rcases List.mem_append.mp hx with hx | hx
    · exact h.delivered x hx
    · rw [List.mem_singleton.mp hx]
      exact hr

theorem Holding.prepareAll (h : Holding Q s) (hreqs : ∀ r ∈ reqs, Q r) :
    Holding Q (prepareAll reqs s).state := by
  induction reqs generalizing s with
  | nil => exact h
  | cons r reqs ih =>
      have hr := h.prepareReq (hreqs r List.mem_cons_self)
      rw [Requests.prepareAll, EStateM.bind_apply]
      cases hres : Requests.prepareReq r s with
      | ok b s' =>
          rw [hres] at hr
          exact ih hr fun x hx => hreqs x (.tail r hx)
      | error e s' =>
          rw [hres] at hr
          exact hr

theorem Holding.executeAll (h : Holding Q s) (hreqs : ∀ r ∈ reqs, Q r) :
    Holding Q (executeAll reqs s).state := by
  induction reqs generalizing s with
  | nil => exact h
  | cons r reqs ih =>
      have hr := h.executeRequest (hreqs r List.mem_cons_self)
      rw [Requests.executeAll, EStateM.bind_apply]
      cases hres : Requests.executeRequest r s with
      | ok b s' =>
          rw [hres] at hr
          exact ih hr fun x hx => hreqs x (.tail r hx)
      | error e s' =>
          rw [hres] at hr
          exact hr

theorem Holding.unprepareReqs (h : Holding Q s) : Holding Q s.unprepareReqs := by
  have hunprep := s.unprepared_unprepareReqs
  refine ⟨fun x hx => ?_, fun x hx => absurd hx (s.not_mem_preparedReqs_unprepareReqs x),
    hunprep.delivered ▸ h.delivered⟩
  rcases (hunprep.pending x).mp hx with hx | ⟨hx, -⟩
  · exact h.prepared x hx
  · exact h.pending x hx

end Holding

/-- Nothing becomes pending by being prepared or delivered. -/
theorem Steps.pending_subset {s s' : Requests} (h : Steps s s') :
    s'.pendingReqs.messages ⊆ s.pendingReqs.messages := by
  induction h with
  | refl => exact List.Subset.refl _
  | tail _ hstep ih =>
      cases hstep with
      | prepared => exact fun r hr => ih (RequestList.mem_remove.mp hr).1
      | delivered => exact ih

theorem prepareReq_steps (r : Request) (s : Requests) : Steps s (prepareReq r s).state := by
  rcases prepareReq_cases r s with ⟨-, h⟩ | ⟨hnew, ⟨-, h⟩ | ⟨hcap, h⟩⟩
  · rw [h]
    exact .refl
  · rw [h]
    exact .refl
  · rw [h]
    exact .single (.prepared hnew hcap)

theorem executeRequest_steps (r : Request) (s : Requests) :
    Steps s (executeRequest r s).state := by
  rcases executeRequest_cases r s with ⟨-, h⟩ | ⟨hnew, ⟨-, h⟩ | ⟨hprep, h⟩⟩
  · rw [h]
    exact .refl
  · rw [h]
    exact .refl
  · rw [h]
    exact .single (.delivered hnew hprep)

theorem prepareAll_steps (reqs : List Request) (s : Requests) :
    Steps s (prepareAll reqs s).state := by
  induction reqs generalizing s with
  | nil => exact .refl
  | cons r reqs ih =>
      have h := prepareReq_steps r s
      rw [prepareAll, EStateM.bind_apply]
      cases hres : prepareReq r s with
      | ok b s' => rw [hres] at h; exact h.trans (ih s')
      | error e s' => rw [hres] at h; exact h

theorem executeAll_steps (reqs : List Request) (s : Requests) :
    Steps s (executeAll reqs s).state := by
  induction reqs generalizing s with
  | nil => exact .refl
  | cons r reqs ih =>
      have h := executeRequest_steps r s
      rw [executeAll, EStateM.bind_apply]
      cases hres : executeRequest r s with
      | ok b s' => rw [hres] at h; exact h.trans (ih s')
      | error e s' => rw [hres] at h; exact h

end Requests

end MinBFT
