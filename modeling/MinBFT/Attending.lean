import MinBFT.Timing

/-!
# Timers that are running

A node with its timers. Its runs are runs of the node without them, which lets any timer expire that
has ever been started. As long as no NewView is processed ahead of the expected view, there is
always a timer running that makes the replica ask for another view while it waits for a NewView or
for a pending request to be prepared, unless it has asked already.

There may be none for a request that has been prepared: the requests that a NewView propagates are
prepared before the pending ones are applied, and have no timer started in the new view.
-/

namespace MinBFT

/-- A node with its timers. The callbacks of request and view-change timers that have expired run in
goroutines of their own; the callback of a prepare timer appends to the log for the primary. -/
structure TimedNode where
  node : Node
  timers : Timers
  due : List UInt64
  unicast : UInt32 → List Request

namespace TimedNode

inductive Label where
  | node (l : MinBFT.Label) (d : Timeouts)
  | requestExpired (clientID : UInt32) (i : ℕ)
  | prepareExpired (clientID : UInt32) (i : ℕ)
  | viewChangeExpired (i : ℕ)
  /-- The callback of a request or view-change timer. -/
  | callback (view : UInt64)

variable (p : Params)

def init (timeoutViewChange : Int64) : TimedNode :=
  ⟨.init p, .new timeoutViewChange, [], fun _ => []⟩

def withNode (node : Node) (s : TimedNode) : TimedNode := { s with node }

def processed (d : Timeouts) (order : List Request) (m : Message) (node : Node) (s : TimedNode) :
    TimedNode :=
  { s with
    node
    timers := s.timers.calls d (Replica.timerCalls p order s.node.replica node.replica m) }

def advance (d : Timeouts) (l : MinBFT.Label) (s : TimedNode) (node : Node) : TimedNode :=
  match s.node.processing l with
  | some m => s.processed p d l.order m node
  | none => s.withNode node

def expireRequest (clientID : UInt32) (view : UInt64) (t : TimerState UInt64) (s : TimedNode) :
    TimedNode :=
  { s with timers := s.timers.setRequest clientID t, due := s.due ++ [view] }

def expirePrepare (clientID : UInt32) (r : Request) (view : UInt64)
    (t : TimerState (Request × UInt64)) (s : TimedNode) : TimedNode :=
  let primary := (view % p.config.n.toUInt64).toUInt32
  { s with
    timers := s.timers.setPrepare clientID t
    unicast := Function.update s.unicast primary (s.unicast primary ++ [r]) }

def expireViewChange (i : ℕ) (view : UInt64) (s : TimedNode) : TimedNode :=
  { s with
    timers := { s.timers with viewChange := s.timers.viewChange.expire i }
    due := s.due ++ [view] }

def called (view : UInt64) (s : TimedNode) (node : Node) : TimedNode :=
  { s with node, due := s.due.erase view }

def step (s : TimedNode) : Label → Option TimedNode
  | .node (.timeout _) _ => none
  | .node l d => (s.node.step p l).map (s.advance p d l)
  | .requestExpired clientID i => ((s.timers.requests clientID).expire i).map fun (view, t) =>
      s.expireRequest clientID view t
  | .prepareExpired clientID i => ((s.timers.prepares clientID).expire i).map fun ((r, view), t) =>
      s.expirePrepare p clientID r view t
  | .viewChangeExpired i => match s.timers.viewChange.timers[i]? with
      | some u => if u.status = .running then some (s.expireViewChange i u.callback) else none
      | none => none
  | .callback view =>
      if view ∈ s.due then (s.node.step p (.timeout view)).map (s.called view) else none

abbrev Reachable (timeoutViewChange : Int64) (D : Timeouts → Prop)
    (C : Replica → Message → Prop) : TimedNode → Prop :=
  Machine.Reachable (step p) (init p timeoutViewChange) fun s l => ∀ l' d, l = .node l' d →
    D d ∧ ∀ m, s.node.processing l' = some m → C s.node.replica m

def checked (cond : Replica → Message → Bool) (s : TimedNode) : Label → Bool
  | .node l _ => (s.node.processing l).all (cond s.node.replica)
  | _ => true

variable {p} {timeoutViewChange : Int64} {D : Timeouts → Prop} {C : Replica → Message → Prop}
  {s s' : TimedNode} {l : Label}

theorem exists_reachable {cond : Replica → Message → Bool} (hcond : ∀ r m, cond r m = true → C r m)
    {P : TimedNode → Bool} {ls : List Label} (hD : ∀ l d, .node l d ∈ ls → D d)
    (h : (Machine.exec (step p) (checked cond) (init p timeoutViewChange) ls).any P = true) :
    ∃ s, Reachable p timeoutViewChange D C s ∧ P s = true := by
  apply Machine.exists_reachable _ h
  rintro s l hmem hl l' d rfl
  refine ⟨hD l' d hmem, fun m hm => hcond _ _ ?_⟩
  simpa [checked, hm] using hl

/-- The callback for an expired timer of this view is due or has run. -/
def Answered (s : TimedNode) (view : UInt64) : Prop :=
  view ∈ s.due ∨ view + 1 ≤ s.node.replica.requested

structure Sound (p : Params) (s : TimedNode) : Prop where
  traced : s.timers.Traced (· ∈ s.node.replica.output.timers) (s.node.replica.Forwards p)
    s.Answered
  due : ∀ view ∈ s.due, view ∈ s.node.replica.output.timers

theorem sound_init : (init p timeoutViewChange).Sound p :=
  ⟨⟨fun _ => .nil, fun _ => .nil, .nil⟩, fun _ h => absurd h List.not_mem_nil⟩

inductive Stepped (p : Params) (s : TimedNode) : Label → TimedNode → Prop where
  | idle {l : MinBFT.Label} {d : Timeouts} {n : Node} (hstep : s.node.step p l = some n)
      (hreplica : n.replica = s.node.replica) : Stepped p s (.node l d) (s.withNode n)
  | processed {l : MinBFT.Label} {d : Timeouts} {n : Node} {m : Message}
      (hstep : s.node.step p l = some n) (hproc : s.node.processing l = some m)
      (htrans : Replica.Transition p l.order m s.node.replica n.replica) :
      Stepped p s (.node l d) (s.processed p d l.order m n)
  | requestExpired {id : UInt32} {i : ℕ} {view : UInt64} {t : TimerState UInt64}
      (hexpire : (s.timers.requests id).expire i = some (view, t)) :
      Stepped p s (.requestExpired id i) (s.expireRequest id view t)
  | prepareExpired {id : UInt32} {i : ℕ} {r : Request} {view : UInt64}
      {t : TimerState (Request × UInt64)}
      (hexpire : (s.timers.prepares id).expire i = some ((r, view), t)) :
      Stepped p s (.prepareExpired id i) (s.expirePrepare p id r view t)
  | viewChangeExpired {i : ℕ} {u : BackoffTimer.Underlying UInt64}
      (hu : s.timers.viewChange.timers[i]? = some u) (hrunning : u.status = .running) :
      Stepped p s (.viewChangeExpired i) (s.expireViewChange i u.callback)
  | called {view : UInt64} {n : Node} (hdue : view ∈ s.due)
      (hstep : s.node.step p (.timeout view) = some n) :
      Stepped p s (.callback view) (s.called view n)

theorem step_stepped (h : s.step p l = some s') : Stepped p s l s' := by
  cases l with
  | node l d =>
      have hl : ∀ view, l ≠ .timeout view := by
        rintro view rfl
        cases h
      have hmap : (s.node.step p l).map (s.advance p d l) = some s' := by
        cases l with
        | timeout view => exact absurd rfl (hl view)
        | _ => exact h
      obtain ⟨n, hn, rfl⟩ := Option.map_eq_some_iff.mp hmap
      rcases Node.replica_of_step hn hl with ⟨hproc, hreplica⟩ | ⟨m, hproc, hreplica⟩
      · rw [advance, hproc]
        exact .idle hn hreplica
      · rw [advance, hproc]
        exact .processed hn hproc (hreplica ▸ Replica.processMessage_transition m _)
  | requestExpired id i =>
      obtain ⟨⟨view, t⟩, hexpire, rfl⟩ := Option.map_eq_some_iff.mp h
      exact .requestExpired hexpire
  | prepareExpired id i =>
      obtain ⟨⟨⟨r, view⟩, t⟩, hexpire, rfl⟩ := Option.map_eq_some_iff.mp h
      exact .prepareExpired hexpire
  | viewChangeExpired i =>
      simp only [step] at h
      split at h
      · rename_i hu
        split_ifs at h with hrunning
        cases h
        exact .viewChangeExpired hu hrunning
      · cases h
  | callback view =>
      simp only [step] at h
      split_ifs at h with hdue
      obtain ⟨n, hn, rfl⟩ := Option.map_eq_some_iff.mp h
      exact .called hdue hn

/-- The node goes through a run. -/
theorem Reachable.node (h : Reachable p timeoutViewChange D C s) : s.node.Reachable p C := by
  induction h with
  | start => exact .init
  | step _ hcond hstep ih =>
      cases step_stepped hstep with
      | idle hn => exact .step ih hn (hcond _ _ rfl).2
      | processed hn => exact .step ih hn (hcond _ _ rfl).2
      | called _ hn => exact .step ih hn fun m hm => nomatch hm
      | _ => exact ih

structure Further (s s' : TimedNode) : Prop where
  timers : ∀ view ∈ s.node.replica.output.timers, view ∈ s'.node.replica.output.timers
  currentView : s.node.replica.currentView ≤ s'.node.replica.currentView
  handled : ∀ m ∈ s.node.replica.handled, m ∈ s'.node.replica.handled
  answered : ∀ view, s.Answered view → s'.Answered view

theorem Further.traced {t : Timers} (h : Further s s')
    (ht : t.Traced (· ∈ s.node.replica.output.timers) (s.node.replica.Forwards p) s.Answered) :
    t.Traced (· ∈ s'.node.replica.output.timers) (s'.node.replica.Forwards p) s'.Answered :=
  ht.mono h.timers (fun _ hx => ⟨hx.backup, UInt64.le_trans hx.view h.currentView,
    h.handled _ hx.handled⟩) h.answered

theorem Further.of_replica (hreplica : s'.node.replica = s.node.replica)
    (hdue : ∀ view ∈ s.due, view ∈ s'.due) : Further s s' := by
  refine ⟨?_, ?_, ?_, fun view h => h.imp (hdue view) fun hle => ?_⟩ <;> rw [hreplica]
  · exact fun _ h => h
  · exact UInt64.le_refl _
  · exact fun _ h => h
  · exact hle

theorem Further.processed {d : Timeouts} {order : List Request} {m : Message} {n : Node}
    (h : Replica.Transition p order m s.node.replica n.replica) :
    Further s (s.processed p d order m n) := by
  refine ⟨fun view => h.output_steps.timers_subset, h.currentView_le, fun x hx => ?_,
    fun view hview => hview.imp id fun hle => ?_⟩
  · change x ∈ n.replica.handled
    rcases h.handled_cases with heq | ⟨heq, -⟩
    · exact heq ▸ hx
    · rw [heq]
      exact List.mem_append_left _ hx
  · change view + 1 ≤ n.replica.requested
    rw [h.requested_eq]
    exact hle

theorem requested_requestViewChange (v : UInt64) (r : Replica) :
    r.requested ≤ (r.requestViewChange p v).requested ∧
      v ≤ (r.requestViewChange p v).requested := by
  unfold Replica.requestViewChange
  split_ifs with hge
  · exact ⟨UInt64.le_refl _, hge⟩
  all_goals exact ⟨UInt64.le_of_lt (UInt64.not_le.mp hge), UInt64.le_refl _⟩

theorem replica_of_timeout {view : UInt64} {n : Node}
    (h : s.node.step p (.timeout view) = some n) :
    n.replica = s.node.replica.requestViewChange p (view + 1) := by
  cases (Node.step_cases h).2.1
  rfl

theorem Further.called {view : UInt64} {n : Node} (h : s.node.step p (.timeout view) = some n) :
    Further s (s.called view n) := by
  have hreplica : (s.called view n).node.replica = _ := replica_of_timeout h
  obtain ⟨hle, hasked⟩ := requested_requestViewChange (p := p) (view + 1) s.node.replica
  refine ⟨fun v hv => ?_, ?_, ?_, fun v hv => ?_⟩
  · rw [hreplica]
    exact (Replica.requestViewChange_steps _ _).timers_subset hv
  · rw [hreplica, Replica.currentView_requestViewChange]
    exact UInt64.le_refl _
  · rw [hreplica, Replica.handled_requestViewChange]
    exact fun _ hm => hm
  · unfold Answered
    rw [hreplica]
    by_cases heq : v = view
    · subst heq
      exact .inr hasked
    · exact hv.imp (List.mem_erase_of_ne heq).mpr fun h => UInt64.le_trans h hle

theorem Reachable.sound (hid : p.id < p.config.n) (h : Reachable p timeoutViewChange D C s) :
    s.Sound p := by
  induction h with
  | start => exact sound_init
  | @step s s' l hreach hcond hstep ih =>
      have hnode' := Reachable.node (hreach.step hcond hstep)
      cases step_stepped hstep with
      | @idle _ _ n _ hreplica =>
          have hfurther : Further s (s.withNode n) := .of_replica hreplica fun _ hv => hv
          exact ⟨hfurther.traced ih.traced,
            fun view hview => hfurther.timers view (ih.due view hview)⟩
      | @processed _ d _ _ _ _ htrans =>
          have hfurther := Further.processed (d := d) htrans
          refine ⟨?_, fun view hview => hfurther.timers view (ih.due view hview)⟩
          exact (hfurther.traced ih.traced).calls
            (htrans.allowed (hnode'.run.kept_handled hid).pending)
      | @requestExpired id i view t hexpire =>
          have hfurther : Further s (s.expireRequest id view t) :=
            .of_replica rfl fun v hv => List.mem_append_left _ hv
          have htraced := hfurther.traced ih.traced
          have hdue : view ∈ s.due ++ [view] := List.mem_append_right _ List.mem_cons_self
          obtain ⟨u, hu, -, rfl, rfl⟩ := TimerState.expire_eq_some hexpire
          refine ⟨?_, ?_⟩
          · exact htraced.setRequest id ((htraced.requests id).expire hu (.inl hdue))
          · intro v hv
            rcases List.mem_append.mp hv with hv | hv
            · exact ih.due v hv
            · rw [List.mem_singleton.mp hv]
              exact (ih.traced.requests id).callback u (List.mem_of_getElem? hu)
      | @prepareExpired id i r view t hexpire =>
          have hfurther : Further s (s.expirePrepare p id r view t) :=
            .of_replica rfl fun v hv => hv
          have htraced := hfurther.traced ih.traced
          obtain ⟨u, hu, -, -, rfl⟩ := TimerState.expire_eq_some hexpire
          refine ⟨?_, ih.due⟩
          exact htraced.setPrepare id ((htraced.prepares id).expire hu trivial)
      | @viewChangeExpired i u hu hrunning =>
          have hfurther : Further s (s.expireViewChange i u.callback) :=
            .of_replica rfl fun v hv => List.mem_append_left _ hv
          have htraced := hfurther.traced ih.traced
          have hdue : u.callback ∈ s.due ++ [u.callback] :=
            List.mem_append_right _ List.mem_cons_self
          refine ⟨⟨htraced.requests, htraced.prepares, ?_⟩, ?_⟩
          · simp only [expireViewChange, BackoffTimer.Timer.expire, hu, hrunning, if_true]
            exact htraced.viewChange.expire hu (.inl hdue)
          · intro v hv
            rcases List.mem_append.mp hv with hv | hv
            · exact ih.due v hv
            · rw [List.mem_singleton.mp hv]
              exact ih.traced.viewChange.callback u (List.mem_of_getElem? hu)
      | @called view n hdue hn =>
          have hfurther := Further.called hn
          refine ⟨hfurther.traced ih.traced, fun v hv => ?_⟩
          exact hfurther.timers v (ih.due v (List.mem_of_mem_erase hv))

/-- The timers do not go beyond what the node and its connections allow for: what is due may run,
and a request that is passed on may have been. -/
theorem refines_node {net : Network} {i : UInt32} (hid : i < net.config.n)
    (h : Reachable (net.params i) timeoutViewChange D C s) :
    s.node.Reachable (net.params i) C ∧
      (∀ view ∈ s.due, (s.node.act (net.params i) (.timeout view)).isSome) ∧
      ∀ id k r view t, (s.timers.prepares id).expire k = some ((r, view), t) →
        Connected.mayExpire net s.node.replica i view r = true := by
  have hsound := Reachable.sound hid h
  refine ⟨Reachable.node h, fun view hview => ?_, fun id k r view t hexpire => ?_⟩
  · rw [Node.act, if_pos (hsound.due view hview)]
    rfl
  · obtain ⟨u, hu, -, hcallback, -⟩ := TimerState.expire_eq_some hexpire
    have hforwards := (hsound.traced.prepares id).callback u (List.mem_of_getElem? hu)
    rw [hcallback] at hforwards
    exact hforwards.mayExpire

end TimedNode

namespace Concrete

def timeouts : Timeouts := ⟨fun _ => 1, fun _ => 1⟩

def timed (ls : List Label) : List TimedNode.Label := ls.map fun l => .node l timeouts

/-- A backup has handled a request, whose request timer has expired. -/
theorem refines_node_of_passing : ∃ s,
    TimedNode.Reachable (passingNetwork.params 1) 1 (fun _ => True) (fun _ _ => True) s ∧
      s.due = [0] ∧
      (s.node.act (passingNetwork.params 1) (.timeout 0)).isSome ∧
      Connected.mayExpire passingNetwork s.node.replica 1 0 (request 7 1) = true := by
  have hrun : (Machine.exec (TimedNode.step (passingNetwork.params 1))
      (TimedNode.checked fun _ _ => true) (TimedNode.init (passingNetwork.params 1) 1)
      (timed (handling 0 (.request (request 7 1))) ++ [.requestExpired 7 0])).any (fun s =>
        decide (s.due = [0]) && ((s.timers.prepares 7).expire 0).any
          (fun x => decide (x.1 = (request 7 1, 0)))) = true := by
    decide +kernel
  obtain ⟨s, hreach, hs⟩ :=
    TimedNode.exists_reachable (fun _ _ _ => trivial) (fun _ _ _ => trivial) hrun
  rw [Bool.and_eq_true, decide_eq_true_eq, Option.any_eq_true] at hs
  obtain ⟨hdue, ⟨x, t⟩, hexpire, hx⟩ := hs
  cases of_decide_eq_true hx
  obtain ⟨-, hact, hforward⟩ := TimedNode.refines_node (i := 1) (by decide) hreach
  exact ⟨s, hreach, hdue, hact 0 (hdue ▸ List.mem_cons_self), hforward 7 0 _ _ t hexpire⟩

end Concrete

end MinBFT
