import MinBFT.Handling
import MinBFT.Lib.Machine
import MinBFT.NormalCase

/-!
# Connections between correct replicas

Every replica opens a connection to every other one and says Hello. The other one answers with a
stream over its message log, mixed with one over the log of the messages meant for this peer only:
requests for which its prepare timer has expired. The messages of a stream are handled one at a
time, and an error ends the connection for good.

In the normal case a connection between correct replicas never ends, no matter what the faulty
replicas do. So when the correct replicas have nothing left to do for each other, all of them have
executed all that any of them has passed on to the primary.
-/

namespace MinBFT

/-- What one replica has for one of its peers: the log `unicastLogs[peerID]`, the stream over its
message log since the Hello of the peer, how many messages of the other log have been taken, the
messages on the way, and the goroutine of the peer that handles the last one taken off. -/
structure Link where
  unicast : List Request
  stream : Option Stream
  forwarded : ℕ
  transit : List Message
  current : Option ℕ

namespace Link

def init : Link := ⟨[], none, 0, [], none⟩

/-- The handler of an expired prepare timer. -/
def append (r : Request) (lk : Link) : Link := { lk with unicast := lk.unicast ++ [r] }

def withStream (stream : Stream) (lk : Link) : Link := { lk with stream := some stream }

def push (m : Message) (lk : Link) : Link := { lk with transit := lk.transit ++ [m] }

def pushForwarded (r : Request) (lk : Link) : Link :=
  { lk with forwarded := lk.forwarded + 1, transit := lk.transit ++ [.request r] }

def hello (p : Params) (s : Node) (peerID : UInt32) (lk : Link) : Option Link :=
  match lk.stream, handleHello p (.hello ⟨peerID⟩) with
  | none, .ok _ => some (lk.withStream ⟨[], 0, s.replica.output.resets⟩)
  | _, _ => none

def fetch (s : Node) (lk : Link) : Option Link :=
  lk.stream.bind fun stream => (Node.fetch { s with stream }).map fun s' =>
    lk.withStream s'.stream

def send (lk : Link) : Option Link :=
  match lk.stream with
  | some ⟨m :: batch, next, resets⟩ => some ((lk.withStream ⟨batch, next, resets⟩).push m)
  | _ => none

def forward (lk : Link) : Option Link :=
  match lk.stream, lk.unicast[lk.forwarded]? with
  | some _, some r => some (lk.pushForwarded r)
  | _, _ => none

def ready (s : Node) (lk : Link) : Bool :=
  match lk.current with
  | none => true
  | some k => s.threads[k]?.any fun t => t.tasks.isEmpty && t.failed.isNone

def accept (s : Node) (transit : List Message) (lk : Link) : Link :=
  { lk with transit, current := some s.threads.length }

end Link

/-- Two correct replicas, which are connected in both directions. What a replica does for a faulty
one is of no account, as the adversary knows all that is generated. -/
def Network.Peers (net : Network) (i j : UInt32) : Prop :=
  i ∈ net.correct ∧ j ∈ net.correct ∧ i ≠ j

instance (net : Network) (i j : UInt32) : Decidable (net.Peers i j) :=
  inferInstanceAs (Decidable (i ∈ net.correct ∧ j ∈ net.correct ∧ i ≠ j))

structure Connected where
  system : System
  links : UInt32 → UInt32 → Link

namespace Connected

inductive Label where
  /-- A replica makes a step, which is not about any of the connections. -/
  | replica (i : UInt32) (l : MinBFT.Label)
  /-- The prepare timer of a request expires. -/
  | expire (i : UInt32) (view : UInt64) (r : Request)
  | hello (i j : UInt32)
  | fetch (i j : UInt32)
  | send (i j : UInt32)
  | forward (i j : UInt32)
  | deliver (i j : UInt32)

variable (net : Network)

def init : Connected := ⟨.init net, fun _ _ => .init⟩

def setLink (c : Connected) (i j : UInt32) (lk : Link) : Connected :=
  ⟨c.system, fun a b => if a = i ∧ b = j then lk else c.links a b⟩

/-- A prepare timer may have been started for any request a backup has handled, in any view up to
the current one. -/
def mayExpire (s : Replica) (i : UInt32) (view : UInt64) (r : Request) : Bool :=
  !isPrimary view i net.config.n && decide (view ≤ s.currentView) && s.handled.any fun
    | .request x => x == r
    | _ => false

def move (c : Connected) (i j : UInt32) (f : Link → Option Link) : Option Connected :=
  if net.Peers i j then (f (c.links i j)).map (c.setLink i j) else none

def deliver (c : Connected) (i j : UInt32) : Option Connected :=
  match (c.links i j).transit with
  | [] => none
  | m :: transit =>
      if net.Peers i j ∧ (c.links i j).ready (c.system.nodes j) = true then
        (c.system.step net j (.receive m)).map fun system =>
          setLink ⟨system, c.links⟩ i j ((c.links i j).accept (c.system.nodes j) transit)
      else none

def step (c : Connected) : Label → Option Connected
  | .replica i l => (c.system.step net i l).map fun system => ⟨system, c.links⟩
  | .expire i view r => c.move net i (view % net.config.n.toUInt64).toUInt32 fun lk =>
      if mayExpire net (c.system.nodes i).replica i view r then some (lk.append r) else none
  | .hello i j => c.move net i j (Link.hello (net.params i) (c.system.nodes i) j)
  | .fetch i j => c.move net i j (Link.fetch (c.system.nodes i))
  | .send i j => c.move net i j Link.send
  | .forward i j => c.move net i j Link.forward
  | .deliver i j => c.deliver net i j

abbrev Reachable : Connected → Prop :=
  Machine.Reachable (step net) (init net) fun _ _ => True

end Connected

namespace Link

variable {net : Network} {sys sys' : System} {i j : UInt32} {lk lk' : Link} {m : Message}

inductive Moved (s : Node) : Link → Link → Prop where
  | opened {lk : Link} (hnone : lk.stream = none) :
      Moved s lk (lk.withStream ⟨[], 0, s.replica.output.resets⟩)
  | fetched {lk : Link} {stream : Stream} (hstream : lk.stream = some stream)
      (hreset : stream.batch = [] ∨ stream.resets ≠ s.replica.output.resets) :
      Moved s lk (lk.withStream ⟨s.replica.output.log.drop
          (if stream.resets = s.replica.output.resets then stream.next else 0),
        s.replica.output.log.length, s.replica.output.resets⟩)
  | sent {lk : Link} {m : Message} {batch : List Message} {next resets : ℕ}
      (hstream : lk.stream = some ⟨m :: batch, next, resets⟩) :
      Moved s lk ((lk.withStream ⟨batch, next, resets⟩).push m)
  | forwarded {lk : Link} {stream : Stream} {r : Request} (hstream : lk.stream = some stream)
      (hr : lk.unicast[lk.forwarded]? = some r) :
      Moved s lk (lk.pushForwarded r)

theorem hello_moved {p : Params} {s : Node} (h : lk.hello p s j = some lk') : Moved s lk lk' := by
  unfold hello at h
  split at h
  · rename_i hnone _
    cases h
    exact .opened hnone
  · cases h

theorem fetch_moved {s : Node} (h : lk.fetch s = some lk') : Moved s lk lk' := by
  obtain ⟨stream, hstream, h⟩ := Option.bind_eq_some_iff.mp h
  obtain ⟨s', hs', rfl⟩ := Option.map_eq_some_iff.mp h
  unfold Node.fetch at hs'
  by_cases hbusy : stream.batch ≠ [] ∧ stream.resets = s.replica.output.resets
  · rw [if_pos hbusy] at hs'
    cases hs'
  · rw [if_neg hbusy] at hs'
    cases hs'
    apply Moved.fetched hstream
    by_contra hno
    exact hbusy (by simpa [not_or] using hno)

theorem send_moved {s : Node} (h : lk.send = some lk') : Moved s lk lk' := by
  unfold send at h
  split at h
  · rename_i hstream
    cases h
    exact .sent hstream
  · cases h

theorem forward_moved {s : Node} (h : lk.forward = some lk') : Moved s lk lk' := by
  unfold forward at h
  split at h
  · rename_i hstream hr
    cases h
    exact .forwarded hstream hr
  · cases h

end Link

namespace Connected

variable {net : Network} {c c' : Connected} {l : Label} {i j : UInt32}

inductive Stepped (net : Network) (c : Connected) : Label → Connected → Prop where
  | replica {i : UInt32} {l : MinBFT.Label} {sys' : System}
      (hstep : c.system.step net i l = some sys') : Stepped net c (.replica i l) ⟨sys', c.links⟩
  | expired {i j : UInt32} {view : UInt64} {r : Request}
      (hr : .request r ∈ (c.system.nodes i).replica.handled) :
      Stepped net c (.expire i view r) (c.setLink i j ((c.links i j).append r))
  | moved {l : Label} {i j : UInt32} {lk : Link} (hpeers : net.Peers i j)
      (hmoved : Link.Moved (c.system.nodes i) (c.links i j) lk) :
      Stepped net c l (c.setLink i j lk)
  | delivered {i j : UInt32} {m : Message} {transit : List Message} {sys' : System}
      (hpeers : net.Peers i j) (htransit : (c.links i j).transit = m :: transit)
      (hready : (c.links i j).ready (c.system.nodes j) = true)
      (hstep : c.system.step net j (.receive m) = some sys') :
      Stepped net c (.deliver i j)
        (setLink ⟨sys', c.links⟩ i j ((c.links i j).accept (c.system.nodes j) transit))

theorem move_stepped {f : Link → Option Link} (h : c.move net i j f = some c')
    (hf : ∀ lk, f (c.links i j) = some lk → Link.Moved (c.system.nodes i) (c.links i j) lk) :
    Stepped net c l c' := by
  unfold move at h
  split_ifs at h with hpeers
  obtain ⟨lk, hlk, rfl⟩ := Option.map_eq_some_iff.mp h
  exact .moved hpeers (hf lk hlk)

theorem handled_of_mayExpire {s : Replica} {view : UInt64} {r : Request}
    (h : mayExpire net s i view r = true) : .request r ∈ s.handled := by
  unfold mayExpire at h
  rw [Bool.and_eq_true] at h
  obtain ⟨m, hm, heq⟩ := List.any_eq_true.mp h.2
  split at heq
  · rw [← beq_iff_eq.mp heq]
    exact hm
  · cases heq

theorem step_stepped (h : c.step net l = some c') : Stepped net c l c' := by
  cases l with
  | replica i l =>
      obtain ⟨sys', hstep, rfl⟩ := Option.map_eq_some_iff.mp h
      exact .replica hstep
  | expire i view r =>
      simp only [step, move] at h
      split_ifs at h with hpeers hmay
      · obtain ⟨lk, hlk, rfl⟩ := Option.map_eq_some_iff.mp h
        cases hlk
        exact .expired (handled_of_mayExpire hmay)
      · cases h
  | hello i j => exact move_stepped h fun _ => Link.hello_moved
  | fetch i j => exact move_stepped h fun _ => Link.fetch_moved
  | send i j => exact move_stepped h fun _ => Link.send_moved
  | forward i j => exact move_stepped h fun _ => Link.forward_moved
  | deliver i j =>
      simp only [step, deliver] at h
      split at h
      · cases h
      · rename_i htransit
        split_ifs at h with hready
        obtain ⟨sys', hstep, rfl⟩ := Option.map_eq_some_iff.mp h
        exact .delivered hready.1 htransit hready.2 hstep

/-- The replicas go through a run of the system. -/
theorem Reachable.system (h : Reachable net c) :
    System.Reachable net (fun _ _ _ => True) c.system := by
  induction h with
  | start => exact .init
  | step _ _ hstep ih =>
      cases step_stepped hstep with
      | replica hsys => exact .step ih hsys fun _ _ => trivial
      | expired => exact ih
      | moved => exact ih
      | delivered _ _ _ hsys => exact .step ih hsys fun _ _ => trivial

end Connected

def Label.order : Label → List Request
  | .run _ order => order
  | .own order => order
  | _ => []

namespace Node

variable {p : Params} {C : Replica → Message → Prop} {s s' : Node} {l : Label} {k : ℕ}
  {t : Thread} {m : Message} {tasks : List Task} {order : List Request}

theorem Stepped.lastUI_le (hid : p.id < p.config.n) (h : s.Reachable p C)
    (hstepped : Stepped p s l s') (r : UInt32) : s.replica.lastUI r ≤ s'.replica.lastUI r := by
  rcases hstepped.replica_cases with heq | ⟨view, -, heq⟩ | ⟨m, order, hproc, heq, -⟩
  · rw [heq]
    exact UInt64.le_refl _
  · rw [heq, Replica.lastUI_requestViewChange]
    exact UInt64.le_refl _
  · rw [heq]
    apply (Replica.processMessage_transition m _).lastUI_le
    rintro c rfl
    exact (h.run.admitted hid (h.linked.2.admits hproc)).self.2.1.1

/-- A goroutine does not change unless it runs. -/
theorem Stepped.thread_kept (h : Stepped p s l s') (hl : ∀ order, l ≠ .run k order)
    (ht : s.threads[k]? = some t) : s'.threads[k]? = some t := by
  have hset {i : ℕ} {u : Thread} {r : Replica} {order : List Request} (heq : l = .run i order) :
      ({ s with replica := r }.setThread i u).threads[k]? = some t := by
    have hne : i ≠ k := by
      rintro rfl
      exact hl order heq
    rw [@getElem?_setThread { s with replica := r } i k u t ht, if_neg hne]
  cases h with
  | received =>
      rw [List.getElem?_append_left (List.getElem?_eq_some_iff.mp ht).1]
      exact ht
  | expanded => exact hset rfl
  | invalid => exact hset rfl
  | processed => exact hset rfl
  | failed => exact hset rfl
  | _ => exact ht

theorem act_of_step (h : s.step p l = some s') : s.act p l = some s' := by
  unfold step at h
  split_ifs at h
  exact (Option.filter_eq_some_iff.mp h).1

/-- Unless a timer expires, the replica is changed by processing a message only. -/
theorem replica_of_step (h : s.step p l = some s') (hl : ∀ view, l ≠ .timeout view) :
    (s.processing l = none ∧ s'.replica = s.replica) ∨ ∃ m, s.processing l = some m ∧
      s'.replica = (Replica.processMessage p l.order m s.replica).state := by
  have hact := act_of_step h
  cases l with
  | receive m =>
      simp only [act] at hact
      split_ifs at hact
      cases hact
      exact .inl ⟨rfl, rfl⟩
  | run i order =>
      obtain ⟨t, ht, hrun⟩ := Option.bind_eq_some_iff.mp hact
      unfold runThread at hrun
      split at hrun
      · cases hrun
      · rename_i htasks
        left
        refine ⟨by simp [processing, ht, htasks], ?_⟩
        split at hrun <;> cases hrun <;> rfl
      · rename_i m tasks htasks
        right
        refine ⟨m, processing_run ht htasks, ?_⟩
        split at hrun <;> rename_i hproc <;> cases hrun <;> rw [Label.order, hproc] <;> rfl
  | fetch =>
      simp only [act, fetch] at hact
      split_ifs at hact <;> cases hact <;> exact .inl ⟨rfl, rfl⟩
  | supply =>
      simp only [act, supply] at hact
      split at hact <;> cases hact
      exact .inl ⟨rfl, rfl⟩
  | own order =>
      simp only [act] at hact
      unfold runOwn at hact
      split at hact
      · cases hact
      · rename_i htasks
        cases hact
        exact .inl ⟨by simp [processing, htasks], rfl⟩
      · rename_i m tasks htasks
        right
        refine ⟨m, processing_own htasks, ?_⟩
        split at hact <;> rename_i hproc <;> cases hact <;> rw [Label.order, hproc] <;> rfl
  | timeout view => exact absurd rfl (hl view)

theorem runThread_of_step (h : s.step p (.run k order) = some s') (ht : s.threads[k]? = some t) :
    s.runThread p order k t = some s' := by
  have hact := act_of_step h
  rw [act, ht] at hact
  exact hact

end Node

theorem valid_of_proposed {crypto : Crypto} {config : Config} {c : CertifiedMessage} {q : Prepare}
    (h : WellFormed crypto config (.certified c)) (hq : c.proposed = .prepare q) :
    Valid crypto config (.certified c) := by
  obtain ⟨hid, hui, hshape⟩ := h
  apply valid_certified.mpr
  refine ⟨hid, hui, ?_⟩
  cases c with
  | prepare => exact check_eq_ok.mpr hshape
  | commit => exact validateCommit_eq_ok.mpr hshape
  | viewChange => cases hq
  | newView => cases hq

/-- All that is in the messages of a correct replica is found valid. -/
theorem System.Reachable.valid {net : Network} {C : UInt32 → Replica → Message → Prop}
    {sys : System} {i : UInt32} {g m : Message} (hnet : net.Admissible)
    (h : System.Reachable net C sys) (hn : NormalCase net sys) (hi : i ∈ net.correct)
    (hg : g ∈ (sys.nodes i).replica.output.generated) (hm : m ∈ g.nested) :
    Valid net.crypto net.config m := by
  have hrun := (h.node i).run
  have hwf := (((hrun.sources (hnet.lt hi)).generated g hg).of_nested hm).self
  rcases h.nested_cases hnet hn hi hg hm with
    ⟨r, rfl⟩ | ⟨rvc, rfl, rfl⟩ | ⟨c, c', q, -, rfl, -, -, hq⟩
  · have hverified := ((hrun.verifiedSources.generated g hg).of_nested hm).self r rfl
    exact check_eq_ok.mpr hverified
  · have htag := (h.node i).linked.2.tags _ hg
    rw [Valid, validateMessage, check_bind_eq_ok, validateReqViewChange, check_bind_eq_ok,
      decide_eq_true_iff, decide_eq_true_iff]
    exact ⟨hwf.1, hwf.2, check_eq_ok.mpr htag⟩
  · exact valid_of_proposed hwf hq

def Link.Sendable (s : Node) (m : Message) : Prop :=
  m ∈ s.replica.output.generated ∨ ∃ r, m = .request r ∧ .request r ∈ s.replica.handled

theorem Link.Sendable.mono {s s' : Node} {m : Message} (hext : Node.Extends s.replica s'.replica)
    (h : Sendable s m) : Sendable s' m := by
  rcases h with hgen | ⟨r, heq, hr⟩
  · exact .inl (hext.generated.subset hgen)
  · exact .inr ⟨r, heq, hext.handled.subset hr⟩

/-- What is left to do leads to the message being processed, or it has been. -/
inductive Thread.Aims (s : Replica) (t : Thread) : Prop where
  | begun (htasks : t.tasks = [.handle t.message])
  | expanded (before : List Task) (htasks : t.tasks = before ++ [.process t.message])
  | handled (htasks : t.tasks = []) (hhandled : t.message ∈ s.handled)

structure Thread.Underway (sender s : Node) (i : UInt32) (t : Thread) : Prop where
  unfailed : t.failed = none
  sendable : Link.Sendable sender t.message
  inSequence : ∀ c, t.message = .certified c → c.counter.toNat ≤ (s.replica.lastUI i).toNat + 1
  aims : t.Aims s.replica

namespace Thread

variable {net : Network} {C : UInt32 → Replica → Message → Prop} {sys : System} {i j : UInt32}
  {sender sender' s s' : Node} {t : Thread} {k : ℕ}

theorem Aims.mono {r r' : Replica} (hext : Node.Extends r r') (h : t.Aims r) : t.Aims r' := by
  cases h with
  | begun htasks => exact .begun htasks
  | expanded before htasks => exact .expanded before htasks
  | handled htasks hhandled => exact .handled htasks (hext.handled.subset hhandled)

theorem Aims.expand {r : Replica} {m : Message} {tasks : List Task} (h : t.Aims r)
    (htasks : t.tasks = .handle m :: tasks) :
    { t with tasks := Node.expand m ++ tasks }.Aims r := by
  cases h with
  | begun hbegun =>
      cases htasks.symm.trans hbegun
      exact .expanded (t.message.embedded.map .handle) (by simp [Node.expand])
  | expanded before hexpanded =>
      cases before with
      | nil => cases htasks.symm.trans hexpanded
      | cons x before =>
          cases htasks.symm.trans hexpanded
          exact .expanded (Node.expand m ++ before) (by simp)
  | handled hdone => cases htasks.symm.trans hdone

theorem Aims.processed {r r' : Replica} {m : Message} {tasks : List Task} (h : t.Aims r)
    (htasks : t.tasks = .process m :: tasks) (hm : m ∈ r'.handled) :
    { t with tasks }.Aims r' := by
  cases h with
  | begun hbegun => cases htasks.symm.trans hbegun
  | expanded before hexpanded =>
      cases before with
      | nil =>
          cases htasks.symm.trans hexpanded
          exact .handled rfl hm
      | cons x before =>
          cases htasks.symm.trans hexpanded
          exact .expanded before rfl
  | handled hdone => cases htasks.symm.trans hdone

theorem Underway.mono (h : t.Underway sender s i)
    (hsender : Node.Extends sender.replica sender'.replica)
    (hext : Node.Extends s.replica s'.replica)
    (hlast : s.replica.lastUI i ≤ s'.replica.lastUI i) : t.Underway sender' s' i := by
  refine ⟨h.unfailed, h.sendable.mono hsender, fun c hc => ?_, h.aims.mono hext⟩
  have hle := h.inSequence c hc
  have hnat := UInt64.le_iff_toNat_le.mp hlast
  omega

section Running

variable (hnet : net.Admissible) (h : System.Reachable net C sys) (hn : sys.NormalCase net)
  (hi : i ∈ net.correct) (hj : j ∈ net.correct)
include hnet h hn hi

/-- Everything the goroutine will validate is valid. -/
theorem Underway.valid {m : Message} (ht : t.Underway (sys.nodes i) s i)
    (hm : m ∈ t.message.nested) : Valid net.crypto net.config m := by
  rcases ht.sendable with hgen | ⟨r, heq, hr⟩
  · exact h.valid hnet hn hi hgen hm
  · rw [heq] at hm
    cases List.mem_singleton.mp hm
    exact check_eq_ok.mpr ((h.node i).run.verified_of_handled hr)

include hj in
/-- Everything the goroutine will process can be processed. -/
theorem Underway.process_ok {m : Message} (order : List Request)
    (ht : t.Underway (sys.nodes i) (sys.nodes j) i) (hmem : t ∈ (sys.nodes j).threads)
    (htasks : t.tasks.head? = some (.process m)) :
    ∃ new r, Replica.processMessage (net.params j) order m (sys.nodes j).replica = .ok new r := by
  have hok := (h.node j).linked.2.threads t hmem
  have hcons := (List.cons_head?_tail htasks).symm
  have hm := hok.nested (.process m) (hcons ▸ List.mem_cons_self)
  apply h.process_ok hnet hn hj (hok.admits hcons).1 (((h.clean j).threads t hmem).of_nested hm)
  rintro c' rfl
  rcases ht.sendable with hgen | ⟨r, heq, -⟩
  · rcases h.nested_cases hnet hn hi hgen hm with
      ⟨r, hr⟩ | ⟨rvc, hr, -⟩ | ⟨c, x, q, hc, hx, hown, hcases, -⟩
    · cases hr
    · cases hr
    · cases hx
      have hle := ht.inSequence c hc
      rcases hcases with rfl | ⟨hzero, hcounter⟩
      · rw [hown]
        exact ⟨hi, hle⟩
      · -- the proposal of the primary committed to
        have hprimary := UInt64.le_iff_toNat_le.mp ((h.abreast hnet hn hj).le_primary i hi)
        rw [hzero, hcounter]
        exact ⟨hn.primary, by omega⟩
  · rw [heq] at hm
    cases List.mem_singleton.mp hm

include hj in
/-- The goroutine gets on when it runs. -/
theorem Underway.run {order : List Request} (ht : t.Underway (sys.nodes i) (sys.nodes j) i)
    (hk : (sys.nodes j).threads[k]? = some t)
    (hstep : (sys.nodes j).step (net.params j) (.run k order) = some s') :
    ∃ t', s'.threads[k]? = some t' ∧ t'.message = t.message ∧ t'.failed = none ∧
      t'.Aims s'.replica := by
  have hmem := List.mem_of_getElem? hk
  have hrun := Node.runThread_of_step hstep hk
  cases htasks : t.tasks with
  | nil =>
      rw [Node.runThread, htasks] at hrun
      cases hrun
  | cons x tasks =>
      cases x with
      | handle m =>
          have hm := ((h.node j).linked.2.threads t hmem).nested (.handle m)
            (htasks ▸ List.mem_cons_self)
          have hvalid : validateMessage (net.params j).crypto (net.params j).config m = .ok () :=
            ht.valid hnet h hn hi hm
          simp only [Node.runThread, htasks, hvalid, Option.some.injEq] at hrun
          subst hrun
          refine ⟨_, Node.getElem?_setThread hk, ?_⟩
          rw [if_pos rfl]
          exact ⟨rfl, ht.unfailed, ht.aims.expand htasks⟩
      | process m =>
          obtain ⟨new, r, hproc⟩ := ht.process_ok hnet h hn hi hj order hmem
            (by rw [htasks, List.head?_cons])
          simp only [Node.runThread, htasks, hproc, Option.some.injEq] at hrun
          subst hrun
          refine ⟨_, @Node.getElem?_setThread { sys.nodes j with replica := r } _ _ _ _ hk, ?_⟩
          rw [if_pos rfl]
          exact ⟨rfl, ht.unfailed,
            ht.aims.processed htasks (Replica.mem_handled_of_ok hproc)⟩

end Running

end Thread

namespace System

variable {net : Network} {C : UInt32 → Replica → Message → Prop} {sys sys' : System}
  {i : UInt32} {l : Label}

/-- Every replica has handled and generated more, and come further with all others. -/
theorem Reachable.step_extends (hnet : net.Admissible) (h : Reachable net C sys)
    (hstep : sys.step net i l = some sys') (j : UInt32) :
    Node.Extends (sys.nodes j).replica (sys'.nodes j).replica ∧
      ∀ r, (sys.nodes j).replica.lastUI r ≤ (sys'.nodes j).replica.lastUI r := by
  obtain ⟨hi, -, s, hs, hnodes⟩ := step_cases hstep
  have hstepped := (Node.step_cases hs).2.1
  rw [hnodes]
  by_cases hij : j = i
  · subst hij
    rw [Function.update_self]
    exact ⟨(hstepped.grown (hnet.lt hi) (h.node j)).extends_,
      hstepped.lastUI_le (hnet.lt hi) (h.node j)⟩
  · rw [Function.update_of_ne hij]
    exact ⟨.refl _, fun _ => UInt64.le_refl _⟩

end System

namespace Link

variable {net : Network} {C : UInt32 → Replica → Message → Prop} {sys sys' : System}
  {i j : UInt32} {lk lk' : Link} {sender sender' receiver receiver' : Node} {m : Message}

def source (lk : Link) : Stream := lk.stream.getD ⟨[], 0, 0⟩

def taken (sender : Node) (lk : Link) : List Message :=
  sender.replica.output.generated.take lk.source.next

def pending (lk : Link) : List Message := lk.transit ++ lk.source.batch

/-- The peer has begun to handle the message, and nothing from here since. -/
def Handling (receiver : Node) (lk : Link) (m : Message) : Prop :=
  ∃ k t, lk.current = some k ∧ receiver.threads[k]? = some t ∧ t.message = m

def Quiet (receiver : Node) (lk : Link) : Prop :=
  ∀ k t, lk.current = some k → receiver.threads[k]? = some t → t.tasks = []

theorem quiet_of_ready (h : lk.ready receiver = true) : lk.Quiet receiver := by
  intro k t hk ht
  simp only [ready, hk, ht, Option.any_some, Bool.and_eq_true, List.isEmpty_iff] at h
  exact h.1

/-- There is nothing left to do for the peer, nor for the peer. -/
structure Drained (sender receiver : Node) (lk : Link) : Prop where
  batch : lk.source.batch = []
  next : lk.source.next = sender.replica.output.log.length
  forwarded : lk.forwarded = lk.unicast.length
  transit : lk.transit = []
  quiet : lk.Quiet receiver

structure Sound (sender receiver : Node) (i : UInt32) (lk : Link) : Prop where
  resets : lk.source.resets = 0
  next : lk.source.next ≤ sender.replica.output.generated.length
  unicast : ∀ r ∈ lk.unicast, .request r ∈ sender.replica.handled
  forwarded : lk.forwarded ≤ lk.unicast.length
  sendable : ∀ m ∈ lk.pending, Sendable sender m
  current : ∀ k, lk.current = some k →
    ∃ t, receiver.threads[k]? = some t ∧ t.Underway sender receiver i
  ordered : ∃ done, Output.certified (lk.taken sender) = done ++ Output.certified lk.pending ∧
    (done.length ≤ (receiver.replica.lastUI i).toNat ∨
      ∃ c, lk.Handling receiver (.certified c) ∧ c.counter.toNat = done.length)
  complete : ∀ m ∈ lk.taken sender ++ (lk.unicast.take lk.forwarded).map .request,
    m ∈ receiver.replica.handled ∨ m ∈ lk.pending ∨ lk.Handling receiver m

namespace Sound

theorem init : Sound sender receiver i .init where
  resets := rfl
  next := Nat.zero_le _
  unicast := fun _ hr => absurd hr List.not_mem_nil
  forwarded := Nat.zero_le _
  sendable := fun _ hm => absurd hm List.not_mem_nil
  current := fun _ hk => nomatch hk
  ordered := ⟨[], rfl, .inl (Nat.zero_le _)⟩
  complete := fun _ hm => absurd hm List.not_mem_nil

theorem frame (h : Sound sender receiver i lk)
    (hsender : Node.Extends sender.replica sender'.replica)
    (hreceiver : Node.Extends receiver.replica receiver'.replica)
    (hlast : receiver.replica.lastUI i ≤ receiver'.replica.lastUI i)
    (hthread : ∀ (k : ℕ) (t : Thread), receiver.threads[k]? = some t →
      t.Underway sender receiver i → ∃ t' : Thread, receiver'.threads[k]? = some t' ∧
        t'.message = t.message ∧ t'.Underway sender' receiver' i) :
    Sound sender' receiver' i lk := by
  have htaken : lk.taken sender' = lk.taken sender := by
    obtain ⟨new, hnew⟩ := hsender.generated
    rw [taken, ← hnew, List.take_append_of_le_length h.next]
    rfl
  have hhandling : ∀ m, lk.Handling receiver m → lk.Handling receiver' m := by
    rintro m ⟨k, t, hk, ht, rfl⟩
    obtain ⟨t₀, ht₀, hunder⟩ := h.current k hk
    cases ht.symm.trans ht₀
    obtain ⟨t', ht', hmsg, -⟩ := hthread k t ht hunder
    exact ⟨k, t', hk, ht', hmsg⟩
  refine ⟨h.resets, h.next.trans hsender.generated.length_le,
    fun r hr => hsender.handled.subset (h.unicast r hr), h.forwarded,
    fun m hm => (h.sendable m hm).mono hsender, fun k hk => ?_, ?_, fun m hm => ?_⟩
  · obtain ⟨t, ht, hunder⟩ := h.current k hk
    obtain ⟨t', ht', -, hunder'⟩ := hthread k t ht hunder
    exact ⟨t', ht', hunder'⟩
  · obtain ⟨done, heq, hdone⟩ := h.ordered
    refine ⟨done, htaken ▸ heq, ?_⟩
    rcases hdone with hle | ⟨c, hc, hcounter⟩
    · exact .inl (hle.trans (UInt64.le_iff_toNat_le.mp hlast))
    · exact .inr ⟨c, hhandling _ hc, hcounter⟩
  · rw [htaken] at hm
    rcases h.complete m hm with hm | hm | hm
    · exact .inl (hreceiver.handled.subset hm)
    · exact .inr (.inl hm)
    · exact .inr (.inr (hhandling m hm))

/-- A replica makes a step. -/
theorem step {a : UInt32} {l : Label} (hnet : net.Admissible) (hreach : System.Reachable net C sys)
    (hn : sys.NormalCase net) (hi : i ∈ net.correct) (hj : j ∈ net.correct)
    (hstep : sys.step net a l = some sys') (h : Sound (sys.nodes i) (sys.nodes j) i lk) :
    Sound (sys'.nodes i) (sys'.nodes j) i lk := by
  have hsender := (hreach.step_extends hnet hstep i).1
  obtain ⟨hreceiver, hlast⟩ := hreach.step_extends hnet hstep j
  apply h.frame hsender hreceiver (hlast i)
  intro k t ht hunder
  have hmono := hunder.mono hsender hreceiver (hlast i)
  obtain ⟨-, -, s, hs, hnodes⟩ := System.step_cases hstep
  by_cases hja : j = a
  · subst hja
    have hnode : sys'.nodes j = s := by rw [hnodes, Function.update_self]
    by_cases hl : ∃ order, l = .run k order
    · obtain ⟨order, rfl⟩ := hl
      obtain ⟨t', ht', hmsg, hfailed, haims⟩ := hunder.run hnet hreach hn hi hj ht hs
      rw [← hnode] at ht' haims
      refine ⟨t', ht', hmsg, hfailed, ?_, ?_, haims⟩
      · rw [hmsg]
        exact hmono.sendable
      · rw [hmsg]
        exact hmono.inSequence
    · refine ⟨t, ?_, rfl, hmono⟩
      rw [hnode]
      exact (Node.step_cases hs).2.1.thread_kept (not_exists.mp hl) ht
  · refine ⟨t, ?_, rfl, hmono⟩
    rw [hnodes, Function.update_of_ne hja]
    exact ht

/-- What is taken from the logs is pending. -/
theorem extend (h : Sound sender receiver i lk) (lk' : Link) (hcurrent : lk'.current = lk.current)
    (hresets : lk'.source.resets = 0)
    (hnext : lk'.source.next ≤ sender.replica.output.generated.length)
    (hunicast : ∀ r ∈ lk'.unicast, .request r ∈ sender.replica.handled)
    (hforwarded : lk'.forwarded ≤ lk'.unicast.length)
    (hpending : ∀ m ∈ lk'.pending, m ∈ lk.pending ∨ Sendable sender m)
    (hkept : ∀ m ∈ lk.pending, m ∈ lk'.pending)
    (hordered : ∃ new, Output.certified (lk'.taken sender) =
        Output.certified (lk.taken sender) ++ new ∧
      Output.certified lk'.pending = Output.certified lk.pending ++ new)
    (hcomplete : ∀ m ∈ lk'.taken sender ++ (lk'.unicast.take lk'.forwarded).map .request,
      m ∈ lk.taken sender ++ (lk.unicast.take lk.forwarded).map .request ∨ m ∈ lk'.pending) :
    Sound sender receiver i lk' := by
  have hhandling : ∀ m, lk.Handling receiver m → lk'.Handling receiver m := by
    rintro m ⟨k, t, hk, ht⟩
    exact ⟨k, t, hcurrent.trans hk, ht⟩
  refine ⟨hresets, hnext, hunicast, hforwarded, fun m hm => ?_, ?_, ?_, fun m hm => ?_⟩
  · exact (hpending m hm).elim (h.sendable m) id
  · rw [hcurrent]
    exact h.current
  · obtain ⟨new, htaken, hnew⟩ := hordered
    obtain ⟨done, heq, hdone⟩ := h.ordered
    refine ⟨done, ?_, hdone.imp_right fun ⟨c, hc, hcounter⟩ => ⟨c, hhandling _ hc, hcounter⟩⟩
    rw [htaken, heq, hnew, List.append_assoc]
  · rcases hcomplete m hm with hm | hm
    · rcases h.complete m hm with hm | hm | hm
      · exact .inl hm
      · exact .inr (.inl (hkept m hm))
      · exact .inr (.inr (hhandling m hm))
    · exact .inr (.inl hm)

theorem append {r : Request} (h : Sound sender receiver i lk)
    (hr : .request r ∈ sender.replica.handled) : Sound sender receiver i (lk.append r) := by
  apply h.extend (lk.append r) rfl h.resets h.next
  · intro x hx
    rcases List.mem_append.mp hx with hx | hx
    · exact h.unicast x hx
    · cases List.mem_singleton.mp hx
      exact hr
  · exact h.forwarded.trans (by simp [Link.append])
  · exact fun m hm => .inl hm
  · exact fun m hm => hm
  · exact ⟨[], (List.append_nil _).symm, (List.append_nil _).symm⟩
  · intro m hm
    left
    rw [Link.append, List.take_append_of_le_length h.forwarded] at hm
    exact hm

/-- The sender goes on. -/
theorem moved (h : Sound sender receiver i lk) (hmoved : Moved sender lk lk')
    (hlog : sender.replica.output.log = sender.replica.output.generated)
    (hresets : sender.replica.output.resets = 0) : Sound sender receiver i lk' := by
  cases hmoved with
  | opened hnone =>
      have hsource : (lk.withStream ⟨[], 0, sender.replica.output.resets⟩).source = lk.source := by
        rw [hresets]
        simp [source, hnone, withStream]
      have hpending : (lk.withStream ⟨[], 0, sender.replica.output.resets⟩).pending =
          lk.pending := by
        rw [pending, pending, hsource]
        rfl
      have htaken : (lk.withStream ⟨[], 0, sender.replica.output.resets⟩).taken sender =
          lk.taken sender := by
        rw [taken, taken, hsource]
      apply h.extend (lk.withStream _) rfl (hsource ▸ h.resets) (hsource ▸ h.next) h.unicast
        h.forwarded
      · exact fun m hm => .inl (hpending ▸ hm)
      · exact fun m hm => hpending ▸ hm
      · refine ⟨[], ?_, ?_⟩
        · rw [htaken, List.append_nil]
        · rw [hpending, List.append_nil]
      · intro m hm
        rw [htaken] at hm
        exact .inl hm
  | @fetched stream hstream hreset =>
      have hsource : lk.source = stream := by rw [source, hstream, Option.getD_some]
      have hsame : stream.resets = sender.replica.output.resets := by
        rw [← hsource, h.resets, hresets]
      have hbatch := hreset.resolve_right (not_not_intro hsame)
      rw [if_pos hsame, hlog, hresets, ← hsource]
      set new := sender.replica.output.generated.drop lk.source.next with hnew
      set n := sender.replica.output.generated.length with hn
      have hpending : (lk.withStream ⟨new, n, 0⟩).pending = lk.pending ++ new := by
        rw [pending, pending, hsource, hbatch, List.append_nil]
        rfl
      have htaken : (lk.withStream ⟨new, n, 0⟩).taken sender = lk.taken sender ++ new := by
        rw [hnew, taken, taken, List.take_append_drop]
        exact List.take_length
      apply h.extend (lk.withStream _) rfl rfl (Nat.le_refl _) h.unicast h.forwarded
      · intro m hm
        rw [hpending] at hm
        exact (List.mem_append.mp hm).imp_right fun hm => .inl (List.mem_of_mem_drop hm)
      · intro m hm
        rw [hpending]
        exact List.mem_append_left _ hm
      · refine ⟨Output.certified new, ?_, ?_⟩
        · rw [htaken, Output.certified_append]
        · rw [hpending, Output.certified_append]
      · intro m hm
        rw [htaken] at hm
        rw [hpending]
        simp only [List.mem_append] at hm ⊢
        rcases hm with (hm | hm) | hm
        · exact .inl (.inl hm)
        · exact .inr (.inr hm)
        · exact .inl (.inr hm)
  | @sent m batch next resets hstream =>
      have hsource : lk.source = ⟨m :: batch, next, resets⟩ := by
        rw [source, hstream, Option.getD_some]
      have hnext := h.next
      have hres := h.resets
      rw [hsource] at hnext hres
      have hpending : ((lk.withStream ⟨batch, next, resets⟩).push m).pending = lk.pending := by
        rw [pending, pending, hsource]
        exact (List.append_cons _ _ _).symm
      have htaken : ((lk.withStream ⟨batch, next, resets⟩).push m).taken sender =
          lk.taken sender := by
        rw [taken, taken, hsource]
        rfl
      apply h.extend ((lk.withStream ⟨batch, next, resets⟩).push m) rfl hres hnext h.unicast
        h.forwarded
      · exact fun x hx => .inl (hpending ▸ hx)
      · exact fun x hx => hpending ▸ hx
      · refine ⟨[], ?_, ?_⟩
        · rw [htaken, List.append_nil]
        · rw [hpending, List.append_nil]
      · intro x hx
        rw [htaken] at hx
        exact .inl hx
  | @forwarded stream r hstream hr =>
      have hlt := (List.getElem?_eq_some_iff.mp hr).1
      have hpending : (lk.pushForwarded r).pending =
          (lk.transit ++ [.request r]) ++ lk.source.batch := rfl
      apply h.extend (lk.pushForwarded r) rfl h.resets h.next h.unicast hlt
      · intro x hx
        rw [hpending] at hx
        simp only [pending, List.mem_append, List.mem_singleton] at hx ⊢
        rcases hx with (hx | hx) | hx
        · exact .inl (.inl hx)
        · exact .inr (.inr ⟨r, hx, h.unicast r (List.mem_of_getElem? hr)⟩)
        · exact .inl (.inr hx)
      · intro x hx
        rw [hpending]
        simp only [pending, List.mem_append] at hx ⊢
        exact hx.imp_left .inl
      · refine ⟨[], (List.append_nil _).symm, ?_⟩
        rw [hpending]
        simp [pending, Output.certified]
      · intro x hx
        rw [show (lk.pushForwarded r).unicast.take (lk.pushForwarded r).forwarded =
          lk.unicast.take lk.forwarded ++ [r] by
            simp [pushForwarded, List.take_add_one, hr], List.map_append, ← List.append_assoc] at hx
        rcases List.mem_append.mp hx with hx | hx
        · exact .inl hx
        · right
          rw [hpending, List.mem_singleton.mp hx]
          simp

theorem handled_of_quiet (h : Sound sender receiver i lk) (hquiet : lk.Quiet receiver)
    (hm : lk.Handling receiver m) : m ∈ receiver.replica.handled := by
  obtain ⟨k, t, hk, ht, rfl⟩ := hm
  obtain ⟨t₀, ht₀, hunder⟩ := h.current k hk
  cases ht.symm.trans ht₀
  have hnil := hquiet k t hk ht
  cases hunder.aims with
  | begun htasks => cases htasks.symm.trans hnil
  | expanded before htasks => exact absurd (htasks.symm.trans hnil) (by simp)
  | handled _ hhandled => exact hhandled

section Accepting

variable (h : Sound sender receiver i lk) (hquiet : lk.Quiet receiver)
  (hown : ∀ c, .certified c ∈ sender.replica.output.generated → c.replicaID = i)
  (hist : ∀ c, .certified c ∈ receiver.replica.handled →
    c.counter ≤ receiver.replica.lastUI c.replicaID)
include h hquiet hown hist

/-- When the peer is done with a message, it has processed all that it has taken off. -/
theorem processed : ∃ done,
    Output.certified (lk.taken sender) = done ++ Output.certified lk.pending ∧
      done.length ≤ (receiver.replica.lastUI i).toNat := by
  obtain ⟨done, heq, hdone⟩ := h.ordered
  refine ⟨done, heq, ?_⟩
  rcases hdone with hle | ⟨c, hc, hcounter⟩
  · exact hle
  · have hle := UInt64.le_iff_toNat_le.mp (hist c (h.handled_of_quiet hquiet hc))
    obtain ⟨k, t, hk, ht, hmsg⟩ := hc
    obtain ⟨t₀, ht₀, hunder⟩ := h.current k hk
    cases ht.symm.trans ht₀
    rcases hunder.sendable with hgen | ⟨r, hr, -⟩
    · rw [hmsg] at hgen
      rw [hown c hgen] at hle
      omega
    · cases hmsg.symm.trans hr

theorem accept {transit : List Message}
    (hnumbered : Numbered 0 (Output.certified sender.replica.output.generated))
    (htransit : lk.transit = m :: transit) :
    Sound sender { receiver with threads := receiver.threads ++ [⟨m, [.handle m], none⟩] } i
      (lk.accept receiver transit) := by
  obtain ⟨done, heq, hle⟩ := h.processed hquiet hown hist
  have hpending : lk.pending = m :: (lk.accept receiver transit).pending := by
    rw [pending, htransit]
    rfl
  have hget : (receiver.threads ++ [⟨m, [.handle m], none⟩])[receiver.threads.length]? =
      some ⟨m, [.handle m], none⟩ := List.getElem?_concat_length
  have hcounter : ∀ c, m = .certified c → c.counter.toNat = done.length + 1 := by
    rintro c rfl
    rw [hpending] at heq
    obtain ⟨rest, hrest⟩ : Output.certified (lk.taken sender) <+:
        Output.certified sender.replica.output.generated :=
      (List.take_prefix _ _).filterMap _
    have hc : (Output.certified sender.replica.output.generated)[done.length]? = some c := by
      rw [← hrest, heq]
      simp [Output.certified]
    rw [hnumbered _ c hc]
    omega
  refine ⟨h.resets, h.next, h.unicast, h.forwarded, fun x hx => ?_, fun k hk => ?_, ?_,
    fun x hx => ?_⟩
  · exact h.sendable x (hpending ▸ .tail m hx)
  · cases hk
    refine ⟨_, hget, rfl, h.sendable m (hpending ▸ List.mem_cons_self), fun c hc => ?_, .begun rfl⟩
    have hnext := hcounter c hc
    change c.counter.toNat ≤ (receiver.replica.lastUI i).toNat + 1
    omega
  · rw [hpending] at heq
    cases m with
    | certified c =>
        refine ⟨done ++ [c], ?_, .inr ⟨c, ⟨_, _, rfl, hget, rfl⟩, ?_⟩⟩
        · rw [List.append_assoc]
          exact heq
        · rw [hcounter c rfl, List.length_append, List.length_singleton]
    | _ => exact ⟨done, heq, .inl hle⟩
  · rcases h.complete x hx with hx | hx | hx
    · exact .inl hx
    · rw [hpending] at hx
      rcases List.mem_cons.mp hx with rfl | hx
      · exact .inr (.inr ⟨_, _, rfl, hget, rfl⟩)
      · exact .inr (.inl hx)
    · exact .inl (h.handled_of_quiet hquiet hx)

end Accepting

end Sound

end Link

namespace System

variable {net : Network} {sys : System} {j : UInt32} {m : Message}

theorem ownAuthentic_of_authentic (hj : j ∈ net.correct) (h : sys.authentic net m = true) :
    Node.ownAuthentic (net.params j) (sys.nodes j).replica m = true := by
  apply List.all_eq_true.mpr
  intro x hx
  have hx := List.all_eq_true.mp h x hx
  cases x with
  | certified c =>
      by_cases hid : c.replicaID = j
      · subst hid
        simpa [hj, Network.params] using hx
      · have hne : (c.replicaID != (net.params j).id) = true := bne_iff_ne.mpr hid
        simp [hne]
  | _ => rfl

/-- Any message that is not forged may arrive. -/
theorem step_receive (hj : j ∈ net.correct) (hlive : (sys.nodes j).crashed = none)
    (h : sys.authentic net m = true) : ∃ sys', sys.step net j (.receive m) = some sys' := by
  have hown := ownAuthentic_of_authentic hj h
  have hadmitted : sys.admitted net (.receive m) = true := h
  simp [step, hj, hadmitted, Node.step, hlive, Node.act, hown]

end System

namespace Connected

variable {net : Network} {c : Connected} {i j : UInt32}

theorem links_setLink_self (c : Connected) (i j : UInt32) (lk : Link) :
    (c.setLink i j lk).links i j = lk := if_pos ⟨rfl, rfl⟩

theorem links_setLink_of_ne {a b : UInt32} (c : Connected) (lk : Link) (h : ¬(i = a ∧ j = b)) :
    (c.setLink a b lk).links i j = c.links i j := if_neg h

section Normal

variable (hnet : net.Admissible) (h : Reachable net c) (hn : c.system.NormalCase net)
  (hi : i ∈ net.correct) (hj : j ∈ net.correct) (hij : i ≠ j)
include hnet h hn hi hj hij

theorem Reachable.sound : (c.links i j).Sound (c.system.nodes i) (c.system.nodes j) i := by
  induction h with
  | start => exact .init
  | @step c c' l hreach _ hstep ih =>
      have hsystem := Reachable.system hreach
      cases step_stepped hstep with
      | replica hsys =>
          have hn₀ := hn.of_step hsys
          exact (ih hn₀).step hnet hsystem hn₀ hi hj hsys
      | @expired a b _ r hr =>
          by_cases hab : i = a ∧ j = b
          · obtain ⟨rfl, rfl⟩ := hab
            rw [links_setLink_self]
            exact (ih hn).append hr
          · rw [links_setLink_of_ne _ _ hab]
            exact ih hn
      | @moved _ a b lk _ hmoved =>
          have hsound := ih hn
          by_cases hab : i = a ∧ j = b
          · obtain ⟨rfl, rfl⟩ := hab
            obtain ⟨hlog, hresets⟩ :=
              (hsystem.node i).run.log_eq_generated (hnet.lt hi) (hn.views i hi)
            rw [links_setLink_self]
            exact hsound.moved hmoved hlog hresets
          · rw [links_setLink_of_ne _ _ hab]
            exact hsound
      | @delivered a b m transit sys' _ htransit hready hsys =>
          have hn₀ := hn.of_step hsys
          have hsound := ih hn₀
          by_cases hab : i = a ∧ j = b
          · obtain ⟨rfl, rfl⟩ := hab
            rw [links_setLink_self]
            obtain ⟨-, -, s, hs, hnodes⟩ := System.step_cases hsys
            have hsender : sys'.nodes i = c.system.nodes i := by
              rw [hnodes, Function.update_of_ne hij]
            have hreceiver : sys'.nodes j = s := by rw [hnodes, Function.update_self]
            change Link.Sound (sys'.nodes i) (sys'.nodes j) i _
            rw [hsender, hreceiver]
            cases (Node.step_cases hs).2.1
            apply hsound.accept (Link.quiet_of_ready hready)
            · exact fun x hx => (hsystem.node i).run.replicaID_generated hx
            · exact ((hsystem.node j).run.history (hnet.lt hj)).certified
            · exact hsystem.numbered hnet hn₀ hi
            · exact htransit
          · rw [links_setLink_of_ne _ _ hab]
            exact hsound.step hnet hsystem hn₀ hi hj hsys

theorem Reachable.unfailed {k : ℕ} {t : Thread} (hk : (c.links i j).current = some k)
    (ht : (c.system.nodes j).threads[k]? = some t) : t.failed = none := by
  obtain ⟨t₀, ht₀, hunder⟩ := (Reachable.sound hnet h hn hi hj hij).current k hk
  cases ht.symm.trans ht₀
  exact hunder.unfailed

theorem Reachable.deliverable (hne : (c.links i j).transit ≠ [])
    (hquiet : (c.links i j).Quiet (c.system.nodes j)) :
    (c.step net (.deliver i j)).isSome := by
  have hsound := Reachable.sound hnet h hn hi hj hij
  have hready : (c.links i j).ready (c.system.nodes j) = true := by
    unfold Link.ready
    split
    · rfl
    · rename_i k hk
      obtain ⟨t, ht, hunder⟩ := hsound.current k hk
      simp [ht, hquiet k t hk ht, hunder.unfailed]
  obtain ⟨m, transit, htransit⟩ := List.exists_cons_of_ne_nil hne
  have hauthentic : c.system.authentic net m = true := by
    have hm : m ∈ (c.links i j).pending := by
      rw [Link.pending, htransit]
      exact List.mem_cons_self
    rcases hsound.sendable m hm with hgen | ⟨r, rfl, -⟩
    · exact (Reachable.system h).authentic hgen
    · rfl
  obtain ⟨sys', hsys⟩ := System.step_receive hj (hn.alive j hj) hauthentic
  have hpeers : net.Peers i j := ⟨hi, hj, hij⟩
  simp [step, deliver, htransit, hpeers, hready, hsys]

/-- A connection between correct replicas lasts: the peer finds no error in the messages, and when
it is done with one, it can take off the next. -/
theorem lasting :
    (∀ k t, (c.links i j).current = some k → (c.system.nodes j).threads[k]? = some t →
      t.failed = none) ∧
    ((c.links i j).transit ≠ [] → (c.links i j).Quiet (c.system.nodes j) →
      (c.step net (.deliver i j)).isSome) :=
  ⟨fun _ _ => Reachable.unfailed hnet h hn hi hj hij,
    Reachable.deliverable hnet h hn hi hj hij⟩

/-- What has been sent over a connection with nothing left to do has been handled. -/
theorem Reachable.handled_of_drained {m : Message}
    (hdrained : (c.links i j).Drained (c.system.nodes i) (c.system.nodes j))
    (hm : m ∈ (c.system.nodes i).replica.output.generated ∨
      ∃ r ∈ (c.links i j).unicast, m = .request r) :
    m ∈ (c.system.nodes j).replica.handled := by
  have hsound := Reachable.sound hnet h hn hi hj hij
  have hlog := ((Reachable.system h).node i).run.log_eq_generated (hnet.lt hi) (hn.views i hi)
  have hsupplied : m ∈ (c.links i j).taken (c.system.nodes i) ++
      ((c.links i j).unicast.take (c.links i j).forwarded).map .request := by
    rw [Link.taken, hdrained.next, hlog.1, List.take_length, hdrained.forwarded, List.take_length,
      List.mem_append, List.mem_map]
    refine hm.imp_right ?_
    rintro ⟨r, hr, rfl⟩
    exact ⟨r, hr, rfl⟩
  rcases hsound.complete m hsupplied with hm | hm | hm
  · exact hm
  · rw [Link.pending, hdrained.transit, hdrained.batch] at hm
    cases hm
  · exact hsound.handled_of_quiet hdrained.quiet hm

end Normal

structure Idle (net : Network) (c : Connected) : Prop where
  links : ∀ i ∈ net.correct, ∀ j ∈ net.correct, i ≠ j →
    (c.links i j).Drained (c.system.nodes i) (c.system.nodes j)
  own : ∀ i ∈ net.correct, (c.system.nodes i).own = [] ∧ (c.system.nodes i).stream.batch = [] ∧
    (c.system.nodes i).stream.next = (c.system.nodes i).replica.output.log.length

theorem Reachable.exchanged (hnet : net.Admissible) (h : Reachable net c)
    (hn : c.system.NormalCase net) (hidle : Idle net c) : c.system.Exchanged net := by
  intro i hi j hj m hm
  by_cases hij : i = j
  · -- the own-message goroutine has been supplied with the whole log
    subst hij
    obtain ⟨hown, hbatch, hnext⟩ := hidle.own i hi
    have hnode := (Reachable.system h).node i
    have hstreaming := hnode.streaming (hnet.lt hi) hnet.tolerant (hn.alive i hi)
    obtain ⟨hlog, hresets⟩ := hnode.run.log_eq_generated (hnet.lt hi) (hn.views i hi)
    have hsame : (c.system.nodes i).stream.resets = (c.system.nodes i).replica.output.resets := by
      have hle := hstreaming.resets
      omega
    obtain ⟨-, done, hdone, hhandled⟩ := hstreaming.supplied hsame
    rw [hbatch, hnext, List.take_length, List.append_nil, hlog] at hdone
    rcases hhandled m (hdone ▸ hm) with hm | hlast
    · exact hm
    · rw [hown] at hlast
      cases hlast
  · exact Reachable.handled_of_drained hnet h hn hi hj hij (hidle.links i hi j hj hij) (.inl hm)

/-- The replica has executed what the primary has proposed, in this order, and this is all that the
primary has received from clients and that correct replicas have for it after a timeout. -/
structure Complete (net : Network) (c : Connected) (s : Replica) : Prop where
  delivered : s.execution.requests.delivered.map Request.content = contents c.system.proposals
  received : ∀ r, .request r ∈ (c.system.nodes 0).replica.handled → 0 < r.sequence →
    System.Executed s r
  forwarded : ∀ i ∈ net.correct, i ≠ 0 → ∀ r ∈ (c.links i 0).unicast, 0 < r.sequence →
    System.Executed s r

theorem Reachable.complete (hnet : net.Admissible) (h : Reachable net c)
    (hn : c.system.NormalCase net) (hidle : Idle net c) (hj : j ∈ net.correct) :
    Complete net c (c.system.nodes j).replica := by
  have hex := Reachable.exchanged hnet h hn hidle
  obtain ⟨hdelivered, hexecuted⟩ :=
    System.executed_of_exchanged hnet (Reachable.system h) hn hex hj
  refine ⟨hdelivered, hexecuted, fun i hi hne r hr => hexecuted r ?_⟩
  apply Reachable.handled_of_drained hnet h hn hi hn.primary hne
    (hidle.links i hi 0 hn.primary hne)
  exact .inr ⟨r, hr, rfl⟩

end Connected

namespace Concrete

def passedPrepare : CertifiedMessage := .prepare (prepare 0 0 (request 7 1) 1)

def passingNetwork : Network :=
  ⟨⟨3, 1⟩, ledgerCrypto [passedPrepare, commit 1 passedPrepare 1], {0, 1}⟩

theorem passingNetwork_admissible : passingNetwork.Admissible where
  tolerant := by
    unfold Config.Tolerant
    decide
  sha256 := injective_sha256_ledgerCrypto _
  uniqueUI := uniqueUI_ledgerCrypto (by decide +kernel)
  replicas := by decide +kernel
  faulty := by decide +kernel

/-- A request that has only reached the backup is passed on to the primary, which proposes it. The
backup's Commit is on the way. -/
def passing : List Connected.Label := List.flatten
  [[.hello 0 1, .hello 1 0], (handling 0 (.request (request 7 1))).map (.replica 1),
    [.expire 1 0 (request 7 1), .forward 1 0, .deliver 1 0, .replica 0 (.run 0 []),
      .replica 0 (.run 0 [])],
    (ownHandling (.certified passedPrepare)).map (.replica 0),
    [.fetch 0 1, .send 0 1, .deliver 0 1], List.replicate 4 (.replica 1 (.run 1 [])),
    (ownHandling (.certified (commit 1 passedPrepare 1))).map (.replica 1),
    [.fetch 1 0, .send 1 0]]

def inNormalCase (sys : System) (i : UInt32) : Bool :=
  decide ((sys.nodes i).replica.expectedView = 0) && (sys.nodes i).crashed.isNone &&
    decide ((sys.sent i).length + 1 < UInt64.size)

theorem forall_passing {P : UInt32 → Prop} (hzero : P 0) (hone : P 1) :
    ∀ i ∈ passingNetwork.correct, P i := by
  simp only [passingNetwork, Finset.forall_mem_insert, Finset.mem_singleton, forall_eq]
  exact ⟨hzero, hone⟩

theorem normalCase_of_check {sys : System} (hzero : inNormalCase sys 0 = true)
    (hone : inNormalCase sys 1 = true) : sys.NormalCase passingNetwork := by
  simp only [inNormalCase, Bool.and_eq_true, decide_eq_true_eq, Option.isNone_iff_eq_none]
    at hzero hone
  exact ⟨by decide, forall_passing hzero.1.1 hone.1.1, forall_passing hzero.1.2 hone.1.2,
    forall_passing hzero.2 hone.2⟩

theorem lasting_of_passing : ∃ c, Connected.Reachable passingNetwork c ∧
    c.system.NormalCase passingNetwork ∧ (c.links 1 0).transit ≠ [] ∧
      (c.links 1 0).Quiet (c.system.nodes 0) ∧
      (c.step passingNetwork (.deliver 1 0)).isSome := by
  have hrun : (Machine.exec (Connected.step passingNetwork) (fun _ _ => true)
      (Connected.init passingNetwork) passing).any (fun c =>
        inNormalCase c.system 0 && inNormalCase c.system 1 && !(c.links 1 0).transit.isEmpty &&
          (c.links 1 0).ready (c.system.nodes 0)) = true := by
    decide +kernel
  obtain ⟨c, hreach, hc⟩ := Machine.exists_reachable (fun _ _ _ _ => trivial) hrun
  simp only [Bool.and_eq_true, Bool.not_eq_true', List.isEmpty_eq_false_iff] at hc
  obtain ⟨⟨⟨hzero, hone⟩, hne⟩, hready⟩ := hc
  have hn := normalCase_of_check hzero hone
  have hquiet := Link.quiet_of_ready hready
  exact ⟨c, hreach, hn, hne, hquiet, (Connected.lasting passingNetwork_admissible hreach hn
    (by decide) (by decide) (by decide)).2 hne hquiet⟩

end Concrete

end MinBFT
