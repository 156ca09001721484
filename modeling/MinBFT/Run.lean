import MinBFT.Node
import MinBFT.Transition

/-!
# Runs of a replica

A `Run` forgets the goroutines: it is any sequence of transitions in which a message is processed
only after all that is embedded in it has been handled. Messages come from outside, and are then
valid through and through, or from what the replica has generated itself. Every reachable state of a
node is the end of such a run, so what holds over runs holds under every interleaving.
-/

namespace MinBFT

namespace Replica

variable (p : Params)

def OwnGenerated (s : Replica) (m : CertifiedMessage) : Prop :=
  ∃ g, .certified g ∈ s.output.generated ∧ g.counter = m.counter ∧
    g.authenBytes p.crypto.sha256 = m.authenBytes p.crypto.sha256

def OwnAuthentic (s : Replica) : Message → Prop
  | .certified m => m.replicaID = p.id → UIValid p.crypto m → s.OwnGenerated p m
  | _ => True

structure Admits (s : Replica) (m : Message) : Prop where
  embedded : ∀ x ∈ m.embedded, x ∈ s.handled
  source : HereditarilyValid p.crypto p.config m ∧ (∀ x ∈ m.nested, s.OwnAuthentic p x) ∨
    ∃ g ∈ s.output.generated, m ∈ g.nested

/-- The states at the end of runs in which every message is processed under the condition `C` and
the authenticator accepts what the replica generates. -/
inductive Run (C : Replica → Message → Prop) : Replica → Prop where
  | init : Run C (Replica.init p)
  | process {s s' : Replica} {m : Message} {order : List Request} (h : Run C s)
      (hadmits : s.Admits p m) (hcond : C s m) (htrans : Transition p order m s s')
      (htags : ∀ g ∈ s'.output.generated, Node.tagAccepted p g = true) : Run C s'
  | timeout {s : Replica} {view : UInt64} (h : Run C s) (hview : view ∈ s.output.timers)
      (htags : ∀ g ∈ (s.requestViewChange p (view + 1)).output.generated,
        Node.tagAccepted p g = true) : Run C (s.requestViewChange p (view + 1))

variable {p} {order : List Request}

theorem respond_steps (pendingReqs : RequestList) (m : CertifiedMessage) (o : Output) :
    Output.Steps p o (respond p order pendingReqs m o) := by
  cases m with
  | prepare m =>
      simp only [respond]
      split_ifs
      · exact .refl
      · exact .single (.generate _ (fun _ => rfl) fun _ => rfl)
  | newView m =>
      have h := Output.applyPendingRequests_steps (p := p) pendingReqs order m.newView o
      simp only [respond]
      split_ifs
      · exact h
      · exact h.tail (.generate _ (fun _ => rfl) fun _ => rfl)
  | _ => exact .refl

theorem Transition.output_steps {m : Message} {s s' : Replica}
    (h : Transition p order m s s') : Output.Steps p s.output s'.output := by
  cases h with
  | requested => exact Output.applyRequest_steps _ _ _
  | newView =>
      exact (Relation.ReflTransGen.single (.resetLog _)).tail
        (.generate _ (fun _ => rfl) fun _ => rfl)
  | applied => exact respond_steps _ _ _
  | leftView =>
      exact ((Relation.ReflTransGen.single (.resetLog _)).tail (.startTimer _ _)).tail
        (.generate _ (fun _ => rfl) fun _ => rfl)
  | _ => exact .refl

theorem requestViewChange_steps (newView : UInt64) (s : Replica) :
    Output.Steps p s.output (s.requestViewChange p newView).output := by
  unfold requestViewChange
  split_ifs
  · exact .refl
  · exact .refl
  · exact .single (.reqViewChange _ _)

@[simp] theorem expectedView_requestViewChange (newView : UInt64) (s : Replica) :
    (s.requestViewChange p newView).expectedView = s.expectedView := by
  unfold requestViewChange
  split_ifs <;> rfl

@[simp] theorem currentView_requestViewChange (newView : UInt64) (s : Replica) :
    (s.requestViewChange p newView).currentView = s.currentView := by
  unfold requestViewChange
  split_ifs <;> rfl

@[simp] theorem lastUI_requestViewChange (newView : UInt64) (s : Replica) :
    (s.requestViewChange p newView).lastUI = s.lastUI := by
  unfold requestViewChange
  split_ifs <;> rfl

@[simp] theorem execution_requestViewChange (newView : UInt64) (s : Replica) :
    (s.requestViewChange p newView).execution = s.execution := by
  unfold requestViewChange
  split_ifs <;> rfl

@[simp] theorem handled_requestViewChange (newView : UInt64) (s : Replica) :
    (s.requestViewChange p newView).handled = s.handled := by
  unfold requestViewChange
  split_ifs <;> rfl

@[simp] theorem processed_requestViewChange (newView : UInt64) (s : Replica) :
    (s.requestViewChange p newView).processed = s.processed := by
  unfold requestViewChange
  split_ifs <;> rfl

@[simp] theorem viewChanges_requestViewChange (newView : UInt64) (s : Replica) :
    (s.requestViewChange p newView).viewChanges = s.viewChanges := by
  unfold requestViewChange
  split_ifs <;> rfl

@[simp] theorem attempted_requestViewChange (newView : UInt64) (s : Replica) :
    (s.requestViewChange p newView).attempted = s.attempted := by
  unfold requestViewChange
  split_ifs <;> rfl

@[simp] theorem applied_requestViewChange (newView : UInt64) (s : Replica) :
    (s.requestViewChange p newView).applied = s.applied := by
  unfold requestViewChange
  split_ifs <;> rfl

/-- A condition may be replaced by one that it implies in every run under it. -/
theorem Run.imp {C C' : Replica → Message → Prop} {s : Replica}
    (hC : ∀ s m, s.Run p C → s.Admits p m → C s m → C' s m) (h : s.Run p C) : s.Run p C' := by
  induction h with
  | init => exact .init
  | process hrun hadmits hcond htrans htags ih =>
      exact .process ih hadmits (hC _ _ hrun hadmits hcond) htrans htags
  | timeout _ hview htags ih => exact .timeout ih hview htags

theorem Transition.handled_prefix {m : Message} {s s' : Replica}
    (h : Transition p order m s s') : s.handled <+: s'.handled := by
  cases h with
  | refused => exact List.prefix_refl _
  | failed => exact List.prefix_refl _
  | _ => exact List.prefix_append _ _

/-- Requests are handled without fail. -/
theorem Transition.request_handled {r : Request} {s s' : Replica}
    (h : Transition p order (.request r) s s') : .request r ∈ s'.handled := by
  cases h with
  | refused hfails => cases hfails
  | _ => exact List.mem_append_right _ List.mem_cons_self

end Replica

end MinBFT
