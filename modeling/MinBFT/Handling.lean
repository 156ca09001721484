import MinBFT.Preparing

/-!
# Messages from the network

A message from a peer goes to `handlePeerMessage`, which a node runs task by task. What comes in
on a connection that a peer has opened goes to the Hello handler, which has a case for every kind
of message.

The type switches of the validators have none for a Hello or a Reply, and `makeCommitValidator` has
none for a proposal that is neither a Prepare nor a NewView. When no message holds such a thing at
any depth, the only panic left is over a Commit to a proposal that has not been prepared.
-/

namespace MinBFT

/-- The handler made by `makeHelloHandler`, up to the replies: it returns the peer whose stream of
messages it starts. -/
def handleHello (p : Params) : Message → Except Fault UInt32
  | .hello h =>
      if h.replicaID ≥ p.config.n ∨ h.replicaID = p.id then .error (.error .unexpectedPeerID)
      else .ok h.replicaID
  | _ => .error (.error .unexpectedMessageType)

/-- Every type switch has a case for the message. -/
def Message.Known : Message → Prop
  | .hello _ => False
  | .reply _ => False
  | .certified (.commit m) => m.proposal.kind = .prepare ∨ m.proposal.kind = .newView
  | _ => True

instance : DecidablePred Message.Known
  | .hello _ => .isFalse id
  | .reply _ => .isFalse id
  | .request _ => .isTrue trivial
  | .reqViewChange _ => .isTrue trivial
  | .certified (.prepare _) => .isTrue trivial
  | .certified (.commit m) =>
      inferInstanceAs (Decidable (m.proposal.kind = .prepare ∨ m.proposal.kind = .newView))
  | .certified (.viewChange _) => .isTrue trivial
  | .certified (.newView _) => .isTrue trivial

def Panicless {α : Type} (x : Except Fault α) : Prop := ∀ q, x ≠ .error (.panic q)

namespace Panicless

variable {α β : Type}

theorem ok (a : α) : Panicless (.ok a : Except Fault α) := fun _ h => nomatch h

theorem check (b : Bool) (e : Error) : Panicless (check b e) := by
  intro q h
  cases b <;> cases h

theorem bind {x : Except Fault α} {f : α → Except Fault β} (hx : Panicless x)
    (hf : ∀ a, Panicless (f a)) : Panicless (x >>= f) := by
  cases x with
  | ok a => exact hf a
  | error e =>
      intro q h
      cases h
      exact hx q rfl

/-- A panic comes from what follows. -/
theorem of_bind {x : Except Fault α} {f : α → Except Fault β} {q : Panic} (hx : Panicless x)
    (h : (x >>= f) = .error (.panic q)) : ∃ a, f a = .error (.panic q) := by
  cases x with
  | ok a => exact ⟨a, h⟩
  | error e =>
      cases h
      exact absurd rfl (hx q)

theorem mapError {x : Except Fault α} {w : Error → Error} (hx : Panicless x) :
    Panicless (x.mapError (Fault.wrap w)) := by
  cases x with
  | ok a => exact ok a
  | error e =>
      intro q h
      have he : Fault.wrap w e = .panic q := Except.error.inj h
      exact hx q (congrArg _ (Execution.eq_panic_of_wrap he))

end Panicless

section Validators

variable {crypto : Crypto} {config : Config}

theorem certReplicas_panicless {α : Type} (replicaID : α → UInt32) (newViewOf : α → UInt64)
    (message : α → Message) (newView : UInt64) (cert : List α) (seen : List UInt32) :
    Panicless (certReplicas replicaID newViewOf message newView seen cert) := by
  induction cert generalizing seen with
  | nil => exact .ok seen
  | cons m cert ih =>
      exact (Panicless.check _ _).bind fun _ => (Panicless.check _ _).bind fun _ => ih _

theorem validateLogBackwards_panicless (replicaID : UInt32) (view : UInt64)
    (log : List CertifiedMessage) (nextCV : UInt64) :
    Panicless (validateLogBackwards replicaID view log nextCV) := by
  induction log generalizing nextCV with
  | nil => exact .ok ()
  | cons m before ih =>
      refine (Panicless.check _ _).bind fun _ => (Panicless.check _ _).bind fun _ => ?_
      cases m.startsView with
      | some msgView =>
          exact (Panicless.check _ _).bind fun _ => (Panicless.check _ _).bind fun _ => ih _
      | none => exact (Panicless.check _ _).bind fun _ => ih _

theorem validateCertifiedMessage_panicless {m : CertifiedMessage}
    (h : (Message.certified m).Known) : Panicless (validateCertifiedMessage crypto config m) := by
  refine Panicless.bind (.mapError ((Panicless.check _ _).bind fun _ => .check _ _)) fun _ => ?_
  cases m with
  | prepare m => exact .check _ _
  | commit m =>
      refine (Panicless.check _ _).bind fun _ => ?_
      have hkind : m.proposal.kind = .prepare ∨ m.proposal.kind = .newView := h
      cases hprop : m.proposal with
      | prepare q => exact .ok ()
      | newView nv => exact .ok ()
      | _ =>
          rw [hprop] at hkind
          exact absurd hkind (by simp [CertifiedMessage.kind])
  | viewChange m =>
      refine (Panicless.check _ _).bind fun _ => .bind (.mapError ?_) fun _ => .mapError ?_
      · exact (Panicless.check _ _).bind fun _ =>
          (certReplicas_panicless _ _ _ _ _ _).bind fun _ => .ok ()
      · exact (Panicless.check _ _).bind fun _ => validateLogBackwards_panicless _ _ _ _
  | newView m =>
      refine (Panicless.check _ _).bind fun _ => (Panicless.check _ _).bind fun _ => .mapError ?_
      exact (Panicless.check _ _).bind fun _ =>
        (certReplicas_panicless _ _ _ _ _ _).bind fun _ => .check _ _

theorem validateMessage_panicless {m : Message} (h : m.Known) :
    Panicless (validateMessage crypto config m) := by
  cases m with
  | hello m => exact h.elim
  | reply m => exact h.elim
  | request m => exact .check _ _
  | certified m => exact (Panicless.check _ _).bind fun _ => validateCertifiedMessage_panicless h
  | reqViewChange m =>
      exact (Panicless.check _ _).bind fun _ => (Panicless.check _ _).bind fun _ => .check _ _

/-- The panics of the validators are those of their type switches. -/
theorem validateMessage_panic {m : Message} {q : Panic}
    (h : validateMessage crypto config m = .error (.panic q)) :
    q = .unknownMessageType ∨ q = .unexpectedProposalType := by
  by_cases hknown : m.Known
  · exact absurd h (validateMessage_panicless hknown q)
  · cases m with
    | hello m =>
        obtain ⟨-, hpanic⟩ := (Panicless.check _ _).of_bind h
        cases hpanic
        exact .inl rfl
    | reply m =>
        cases h
        exact .inl rfl
    | certified m =>
        cases m with
        | commit m =>
            obtain ⟨-, h⟩ := (Panicless.check _ _).of_bind h
            obtain ⟨-, h⟩ := Panicless.of_bind
              (.mapError ((Panicless.check _ _).bind fun _ => .check _ _)) h
            obtain ⟨-, h⟩ := (Panicless.check _ _).of_bind h
            split at h <;> cases h
            exact .inr rfl
        | _ => exact absurd trivial hknown
    | _ => exact absurd trivial hknown

end Validators

theorem handleHello_panicless (p : Params) (m : Message) : Panicless (handleHello p m) := by
  intro q h
  cases m with
  | hello m =>
      simp only [handleHello] at h
      split_ifs at h
      cases h
  | _ => cases h

namespace Node

variable {p : Params} {C : Replica → Message → Prop} {s s' : Node}

/-- Where a goroutine that handles a message from the network can take the node down. -/
theorem crashed_of_run {i : ℕ} {order : List Request} {q : Panic}
    (hstep : s.step p (.run i order) = some s') (hq : s'.crashed = some q) :
    ∃ t ∈ s.threads, ∃ m tasks,
      t.tasks = .handle m :: tasks ∧ validateMessage p.crypto p.config m = .error (.panic q) ∨
      t.tasks = .process m :: tasks ∧ s.processing (.run i order) = some m ∧
        ∃ r, Replica.processMessage p order m s.replica = .error (.panic q) r := by
  have hlive := (step_cases hstep).1
  unfold step at hstep
  split_ifs at hstep with hcrashed
  obtain ⟨hact, -⟩ := Option.filter_eq_some_iff.mp hstep
  obtain ⟨t, ht, hrun⟩ := Option.bind_eq_some_iff.mp hact
  refine ⟨t, List.mem_of_getElem? ht, ?_⟩
  have hno {a : Node} (heq : some a = some s') (ha : a.crashed = s.crashed) : False := by
    rw [← Option.some.inj heq, ha, hlive] at hq
    cases hq
  unfold runThread at hrun
  split at hrun
  · cases hrun
  · rename_i m tasks htasks
    split at hrun
    · exact (hno hrun rfl).elim
    · exact (hno hrun rfl).elim
    · rename_i hpanic
      cases hrun
      cases hq
      exact ⟨m, tasks, .inl ⟨htasks, hpanic⟩⟩
  · rename_i m tasks htasks
    split at hrun
    · exact (hno hrun rfl).elim
    · exact (hno hrun rfl).elim
    · rename_i hpanic
      cases hrun
      cases hq
      exact ⟨m, tasks, .inr ⟨htasks, processing_run ht htasks, _, hpanic⟩⟩

/-- A panic over a message without anything unknown in it is over a Commit to a proposal that has
not been prepared. -/
theorem Reachable.panic_of_known {i : ℕ} {order : List Request} {q : Panic}
    (hid : p.id < p.config.n) (h : s.Reachable p C)
    (hknown : ∀ t ∈ s.threads, Hereditarily Message.Known t.message)
    (hstep : s.step p (.run i order) = some s') (hq : s'.crashed = some q) :
    q = .requestNotPrepared ∧ ∃ m r, s.processing (.run i order) = some m ∧
      Replica.processMessage p order m s.replica = .error (.panic q) r := by
  obtain ⟨t, ht, m, tasks, hcases⟩ := crashed_of_run hstep hq
  have hok := h.linked.2.threads t ht
  rcases hcases with ⟨htasks, hpanic⟩ | ⟨htasks, hproc, r, hpanic⟩
  · have hm : m ∈ t.message.nested := hok.nested (.handle m) (htasks ▸ List.mem_cons_self)
    exact absurd hpanic (validateMessage_panicless ((hknown t ht).of_nested hm).self q)
  · obtain ⟨hadmits, hvalid⟩ := hok.admits htasks
    obtain ⟨rfl, -⟩ := Replica.processMessage_panic (h.run.history hid) hvalid.self.wellFormed
      hvalid.sound hadmits.embedded hpanic
    exact ⟨rfl, m, r, hproc, hpanic⟩

end Node

end MinBFT
