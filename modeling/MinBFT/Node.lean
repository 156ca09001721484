import MinBFT.Nested
import MinBFT.Replica

/-!
# The goroutines of one replica

A `Node` is a replica together with the goroutines that handle messages. Handling a message means to
validate it, to handle the messages embedded in it one after the other, and to process it; a
goroutine keeps what is left of this as a stack of tasks. Every task is one atomic step, and steps
of different goroutines interleave freely.

Messages from peers and clients each get a goroutine of their own, which is at least as concurrent
as one goroutine for each connection. The replica's own messages are handled by a single goroutine,
one at a time, in the order in which the stream of the message log supplies them, and without
validation.
-/

namespace MinBFT

inductive Task where
  | handle (m : Message)
  | process (m : Message)

structure Thread where
  message : Message
  tasks : List Task
  failed : Option Error

/-- The goroutine behind `log.Stream`: what it has taken from the log and not yet supplied, and how
far into the log and after how many resets that was. -/
structure Stream where
  batch : List Message
  next : ℕ
  resets : ℕ

structure Node where
  replica : Replica
  threads : List Thread
  own : List Task
  stream : Stream
  crashed : Option Panic

inductive Label where
  /-- A message arrives from a peer or a client. -/
  | receive (m : Message)
  /-- The goroutine with this index continues. -/
  | run (i : ℕ) (order : List Request)
  /-- The log stream looks into the log again. -/
  | fetch
  /-- The log stream supplies its next message to the own-message goroutine. -/
  | supply
  /-- The own-message goroutine continues. -/
  | own (order : List Request)
  /-- A timer started for this view expires. -/
  | timeout (view : UInt64)

namespace Node

variable (p : Params)

def init : Node := ⟨.init p, [], [], ⟨[], 0, 0⟩, none⟩

def hasGenerated (generated : List Message) (m : CertifiedMessage) : Bool :=
  (Output.certified generated).any fun g => g.counter == m.counter &&
    g.authenBytes p.crypto.sha256 == m.authenBytes p.crypto.sha256

/-- The USIG of the replica is its own: nobody else can assign its identifiers. -/
def ownAuthentic (s : Replica) (m : Message) : Bool :=
  m.nested.all fun
    | .certified m => m.replicaID != p.id || m.counter == 0 || !m.uiAccepted p.crypto ||
        hasGenerated p s.output.generated m
    | _ => true

def tagAccepted : Message → Bool
  | .certified m => m.counter != 0 && m.uiAccepted p.crypto
  | .reqViewChange m => p.crypto.verifyMessageAuthenTag .replicaAuthen m.replicaID m.authenBytes
      m.signature
  | _ => true

def setThread (s : Node) (i : ℕ) (t : Thread) : Node := { s with threads := s.threads.set i t }

def expand (m : Message) : List Task := m.embedded.map .handle ++ [.process m]

def runThread (order : List Request) (i : ℕ) (t : Thread) (s : Node) : Option Node :=
  match t.tasks with
  | [] => none
  | .handle m :: tasks =>
      match validateMessage p.crypto p.config m with
      | .ok _ => some (s.setThread i { t with tasks := expand m ++ tasks })
      | .error (.error e) => some (s.setThread i { t with tasks := [], failed := some e })
      | .error (.panic e) => some { s with crashed := some e }
  | .process m :: tasks =>
      match Replica.processMessage p order m s.replica with
      | .ok _ replica => some ({ s with replica }.setThread i { t with tasks })
      | .error (.error e) replica =>
          some ({ s with replica }.setThread i { t with tasks := [], failed := some e })
      | .error (.panic e) replica => some { s with replica, crashed := some e }

/-- The own-message goroutine skips validation and panics on an error. -/
def runOwn (order : List Request) (s : Node) : Option Node :=
  match s.own with
  | [] => none
  | .handle m :: tasks => some { s with own := expand m ++ tasks }
  | .process m :: tasks =>
      match Replica.processMessage p order m s.replica with
      | .ok _ replica => some { s with replica, own := tasks }
      | .error (.error e) replica => some { s with replica, crashed := some (.ownMessage e) }
      | .error (.panic e) replica => some { s with replica, crashed := some e }

/-- The head of the loop of `supplyMessages`. A reset seen here discards what is left of the
batch. -/
def fetch (s : Node) : Option Node :=
  let next := if s.stream.resets = s.replica.output.resets then s.stream.next else 0
  if s.stream.batch ≠ [] ∧ s.stream.resets = s.replica.output.resets then none
  else some { s with stream :=
    ⟨s.replica.output.log.drop next, s.replica.output.log.length, s.replica.output.resets⟩ }

def supply (s : Node) : Option Node :=
  match s.own, s.stream.batch with
  | [], m :: batch => some { s with own := [.handle m], stream := { s.stream with batch } }
  | _, _ => none

def act (s : Node) : Label → Option Node
  | .receive m => if ownAuthentic p s.replica m then
      some { s with threads := s.threads ++ [⟨m, [.handle m], none⟩] } else none
  | .run i order => s.threads[i]?.bind fun t => s.runThread p order i t
  | .fetch => s.fetch
  | .supply => s.supply
  | .own order => s.runOwn p order
  | .timeout view => if view ∈ s.replica.output.timers then
      some { s with replica := s.replica.requestViewChange p (view + 1) } else none

/-- One step; none is possible after a panic, or when the authenticator would not accept the tags
of the messages generated in the step. -/
def step (s : Node) (l : Label) : Option Node :=
  if s.crashed.isSome then none
  else (s.act p l).filter fun s' =>
    (s'.replica.output.generated.drop s.replica.output.generated.length).all (tagAccepted p)

def processing (s : Node) : Label → Option Message
  | .run i _ => match s.threads[i]?.bind (·.tasks.head?) with
      | some (.process m) => some m
      | _ => none
  | .own _ => match s.own.head? with
      | some (.process m) => some m
      | _ => none
  | _ => none

inductive Reachable (C : Replica → Message → Prop) : Node → Prop where
  | init : Reachable C (Node.init p)
  | step {s s' : Node} {l : Label} (h : Reachable C s) (hstep : s.step p l = some s')
      (hcond : ∀ m, s.processing l = some m → C s.replica m) : Reachable C s'

def exec (cond : Replica → Message → Bool) (s : Node) : List Label → Option Node
  | [] => some s
  | l :: ls => if (s.processing l).all (cond s.replica) then
      (s.step p l).bind fun s' => s'.exec cond ls else none

theorem reachable_of_exec {C : Replica → Message → Prop} {cond : Replica → Message → Bool}
    (hcond : ∀ r m, cond r m = true → C r m) {s s' : Node} {ls : List Label}
    (h : Reachable p C s) (hexec : s.exec p cond ls = some s') : Reachable p C s' := by
  induction ls generalizing s with
  | nil =>
      cases hexec
      exact h
  | cons l ls ih =>
      rw [exec] at hexec
      split_ifs at hexec with hall
      obtain ⟨s₁, hstep, hexec⟩ := Option.bind_eq_some_iff.mp hexec
      refine ih (.step h hstep fun m hm => hcond _ _ ?_) hexec
      rwa [hm] at hall

/-- A state with a property that an execution from the initial state is found to end in. -/
theorem exists_reachable {C : Replica → Message → Prop} {cond : Replica → Message → Bool}
    (hcond : ∀ r m, cond r m = true → C r m) {P : Node → Bool} {ls : List Label}
    (h : ((Node.init p).exec p cond ls).any P = true) : ∃ s, Reachable p C s ∧ P s = true := by
  obtain ⟨s, hexec, hs⟩ := (Option.any_eq_true P _).mp h
  exact ⟨s, reachable_of_exec p hcond .init hexec, hs⟩

inductive Stepped (s : Node) : Label → Node → Prop where
  | received {m : Message} (hauthentic : ownAuthentic p s.replica m = true) :
      Stepped s (.receive m) { s with threads := s.threads ++ [⟨m, [.handle m], none⟩] }
  | expanded {i : ℕ} {order : List Request} {t : Thread} {m : Message} {tasks : List Task}
      (ht : s.threads[i]? = some t) (htasks : t.tasks = .handle m :: tasks)
      (hvalid : Valid p.crypto p.config m) :
      Stepped s (.run i order) (s.setThread i { t with tasks := expand m ++ tasks })
  | invalid {i : ℕ} {order : List Request} {t : Thread} {e : Error}
      (ht : s.threads[i]? = some t) :
      Stepped s (.run i order) (s.setThread i { t with tasks := [], failed := some e })
  | unknown {i : ℕ} {order : List Request} {t : Thread} {e : Panic} {m : Message}
      (ht : s.threads[i]? = some t)
      (hpanic : validateMessage p.crypto p.config m = .error (.panic e)) :
      Stepped s (.run i order) { s with crashed := some e }
  | processed {i : ℕ} {order : List Request} {t : Thread} {m : Message} {tasks : List Task}
      {new : Bool} {r : Replica} (ht : s.threads[i]? = some t)
      (htasks : t.tasks = .process m :: tasks)
      (hproc : Replica.processMessage p order m s.replica = .ok new r) :
      Stepped s (.run i order) ({ s with replica := r }.setThread i { t with tasks })
  | failed {i : ℕ} {order : List Request} {t : Thread} {m : Message} {tasks : List Task}
      {e : Error} {r : Replica} (ht : s.threads[i]? = some t)
      (htasks : t.tasks = .process m :: tasks)
      (hproc : Replica.processMessage p order m s.replica = .error (.error e) r) :
      Stepped s (.run i order)
        ({ s with replica := r }.setThread i { t with tasks := [], failed := some e })
  | panicked {i : ℕ} {order : List Request} {t : Thread} {m : Message} {tasks : List Task}
      {e : Panic} {r : Replica} (ht : s.threads[i]? = some t)
      (htasks : t.tasks = .process m :: tasks)
      (hproc : Replica.processMessage p order m s.replica = .error (.panic e) r) :
      Stepped s (.run i order) { s with replica := r, crashed := some e }
  | fetched (hreset : s.stream.batch = [] ∨ s.stream.resets ≠ s.replica.output.resets) :
      Stepped s .fetch { s with stream :=
        ⟨s.replica.output.log.drop
            (if s.stream.resets = s.replica.output.resets then s.stream.next else 0),
          s.replica.output.log.length, s.replica.output.resets⟩ }
  | supplied {m : Message} {batch : List Message} (hown : s.own = [])
      (hbatch : s.stream.batch = m :: batch) :
      Stepped s .supply { s with own := [.handle m], stream := { s.stream with batch } }
  | ownExpanded {order : List Request} {m : Message} {tasks : List Task}
      (htasks : s.own = .handle m :: tasks) :
      Stepped s (.own order) { s with own := expand m ++ tasks }
  | ownProcessed {order : List Request} {m : Message} {tasks : List Task} {new : Bool}
      {r : Replica} (htasks : s.own = .process m :: tasks)
      (hproc : Replica.processMessage p order m s.replica = .ok new r) :
      Stepped s (.own order) { s with replica := r, own := tasks }
  | ownFailed {order : List Request} {m : Message} {tasks : List Task} {e : Error}
      {r : Replica} (htasks : s.own = .process m :: tasks)
      (hproc : Replica.processMessage p order m s.replica = .error (.error e) r) :
      Stepped s (.own order) { s with replica := r, crashed := some (.ownMessage e) }
  | ownPanicked {order : List Request} {m : Message} {tasks : List Task} {e : Panic}
      {r : Replica} (htasks : s.own = .process m :: tasks)
      (hproc : Replica.processMessage p order m s.replica = .error (.panic e) r) :
      Stepped s (.own order) { s with replica := r, crashed := some e }
  | timedOut {view : UInt64} (hview : view ∈ s.replica.output.timers) :
      Stepped s (.timeout view) { s with replica := s.replica.requestViewChange p (view + 1) }

variable {p}

theorem runThread_stepped {order : List Request} {i : ℕ} {t : Thread} {s s' : Node}
    (ht : s.threads[i]? = some t) (h : s.runThread p order i t = some s') :
    Stepped p s (.run i order) s' := by
  unfold runThread at h
  split at h
  · cases h
  · rename_i m tasks htasks
    split at h
    · rename_i hvalid
      cases h
      exact .expanded ht htasks hvalid
    · cases h
      exact .invalid ht
    · rename_i hpanic
      cases h
      exact .unknown ht hpanic
  · rename_i m tasks htasks
    split at h
    · rename_i hproc
      cases h
      exact .processed ht htasks hproc
    · rename_i hproc
      cases h
      exact .failed ht htasks hproc
    · rename_i hproc
      cases h
      exact .panicked ht htasks hproc

theorem runOwn_stepped {order : List Request} {s s' : Node} (h : s.runOwn p order = some s') :
    Stepped p s (.own order) s' := by
  unfold runOwn at h
  split at h
  · cases h
  · rename_i m tasks htasks
    cases h
    exact .ownExpanded htasks
  · rename_i m tasks htasks
    split at h
    · rename_i hproc
      cases h
      exact .ownProcessed htasks hproc
    · rename_i hproc
      cases h
      exact .ownFailed htasks hproc
    · rename_i hproc
      cases h
      exact .ownPanicked htasks hproc

theorem act_stepped {s s' : Node} {l : Label} (h : s.act p l = some s') : Stepped p s l s' := by
  cases l with
  | receive m =>
      simp only [act] at h
      split_ifs at h with hauthentic
      cases h
      exact .received hauthentic
  | run i order =>
      obtain ⟨t, ht, hrun⟩ := Option.bind_eq_some_iff.mp h
      exact runThread_stepped ht hrun
  | fetch =>
      unfold act fetch at h
      by_cases hbusy : s.stream.batch ≠ [] ∧ s.stream.resets = s.replica.output.resets
      · rw [if_pos hbusy] at h
        cases h
      · rw [if_neg hbusy] at h
        cases h
        refine .fetched ?_
        by_contra hno
        exact hbusy (by simpa [not_or] using hno)
  | supply =>
      simp only [act, supply] at h
      split at h
      · rename_i hown hbatch
        cases h
        exact .supplied hown hbatch
      · cases h
  | own order => exact runOwn_stepped h
  | timeout view =>
      simp only [act] at h
      split_ifs at h with hview
      cases h
      exact .timedOut hview

theorem step_cases {s s' : Node} {l : Label} (h : s.step p l = some s') :
    s.crashed = none ∧ Stepped p s l s' ∧
      (s'.replica.output.generated.drop s.replica.output.generated.length).all (tagAccepted p) =
        true := by
  unfold step at h
  split_ifs at h with hcrashed
  obtain ⟨hact, hcheck⟩ := Option.filter_eq_some_iff.mp h
  exact ⟨by simpa using hcrashed, act_stepped hact, hcheck⟩

end Node

end MinBFT
