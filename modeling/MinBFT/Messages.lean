import Mathlib.Data.Finset.Card
import Mathlib.Data.List.AList

/-!
# Protocol messages

The message kinds of package `messages`, with the fields their accessors return. The four kinds
certified by a USIG are mutually recursive: a Commit carries the proposal it refers to, a ViewChange
carries the certified messages its sender has logged since the start of the view, and a NewView
carries the ViewChanges that justify it.

Identifiers are 32-bit and counters, views and sequence numbers are 64-bit machine integers, as in
the source, so sums wrap around where the source's do.
-/

namespace MinBFT

abbrev Bytes := List UInt8

structure UI where
  counter : UInt64
  cert : Bytes
deriving DecidableEq, Repr

structure Hello where
  replicaID : UInt32
deriving DecidableEq, Repr

structure Request where
  clientID : UInt32
  sequence : UInt64
  operation : Bytes
  signature : Bytes
deriving DecidableEq, Repr

structure Reply where
  replicaID : UInt32
  clientID : UInt32
  sequence : UInt64
  result : Bytes
  signature : Bytes
deriving DecidableEq, Repr

structure Prepare where
  replicaID : UInt32
  view : UInt64
  request : Request
  ui : UI
deriving DecidableEq, Repr

structure ReqViewChange where
  replicaID : UInt32
  newView : UInt64
  signature : Bytes
deriving DecidableEq, Repr

mutual

inductive CertifiedMessage where
  | prepare (m : Prepare)
  | commit (m : Commit)
  | viewChange (m : ViewChange)
  | newView (m : NewView)

structure Commit where
  replicaID : UInt32
  proposal : CertifiedMessage
  ui : UI

structure ViewChange where
  replicaID : UInt32
  newView : UInt64
  messageLog : List CertifiedMessage
  viewChangeCert : List ReqViewChange
  ui : UI

structure NewView where
  replicaID : UInt32
  newView : UInt64
  newViewCert : List ViewChange
  ui : UI

end

inductive Message where
  | hello (m : Hello)
  | request (m : Request)
  | reply (m : Reply)
  | reqViewChange (m : ReqViewChange)
  | certified (m : CertifiedMessage)

namespace CertifiedMessage

def replicaID : CertifiedMessage → UInt32
  | prepare m => m.replicaID
  | commit m => m.replicaID
  | viewChange m => m.replicaID
  | newView m => m.replicaID

def ui : CertifiedMessage → UI
  | prepare m => m.ui
  | commit m => m.ui
  | viewChange m => m.ui
  | newView m => m.ui

def counter (m : CertifiedMessage) : UInt64 := m.ui.counter

@[simp] theorem replicaID_prepare (m : Prepare) : (prepare m).replicaID = m.replicaID := rfl
@[simp] theorem replicaID_commit (m : Commit) : (commit m).replicaID = m.replicaID := rfl
@[simp] theorem replicaID_viewChange (m : ViewChange) :
    (viewChange m).replicaID = m.replicaID := rfl
@[simp] theorem replicaID_newView (m : NewView) : (newView m).replicaID = m.replicaID := rfl

@[simp] theorem ui_prepare (m : Prepare) : (prepare m).ui = m.ui := rfl
@[simp] theorem ui_commit (m : Commit) : (commit m).ui = m.ui := rfl
@[simp] theorem ui_viewChange (m : ViewChange) : (viewChange m).ui = m.ui := rfl
@[simp] theorem ui_newView (m : NewView) : (newView m).ui = m.ui := rfl

@[simp] theorem counter_prepare (m : Prepare) : (prepare m).counter = m.ui.counter := rfl
@[simp] theorem counter_commit (m : Commit) : (commit m).counter = m.ui.counter := rfl
@[simp] theorem counter_viewChange (m : ViewChange) :
    (viewChange m).counter = m.ui.counter := rfl
@[simp] theorem counter_newView (m : NewView) : (newView m).counter = m.ui.counter := rfl

end CertifiedMessage

mutual

/-- Nesting depth, counting one level for every Commit, ViewChange and NewView passed. -/
def CertifiedMessage.depth : CertifiedMessage → ℕ
  | .prepare _ => 0
  | .commit m => m.depth
  | .viewChange m => m.depth
  | .newView m => m.depth

def Commit.depth : Commit → ℕ
  | ⟨_, proposal, _⟩ => proposal.depth + 1

def ViewChange.depth : ViewChange → ℕ
  | ⟨_, _, messageLog, _, _⟩ => logDepth messageLog + 1

def NewView.depth : NewView → ℕ
  | ⟨_, _, newViewCert, _⟩ => certDepth newViewCert + 1

def logDepth : List CertifiedMessage → ℕ
  | [] => 0
  | m :: log => max m.depth (logDepth log)

def certDepth : List ViewChange → ℕ
  | [] => 0
  | vc :: cert => max vc.depth (certDepth cert)

end

theorem depth_le_logDepth {log : List CertifiedMessage} {m : CertifiedMessage} (h : m ∈ log) :
    m.depth ≤ logDepth log := by
  induction log with
  | nil => cases h
  | cons a log ih =>
      rw [logDepth]
      rcases List.mem_cons.mp h with rfl | h
      · exact le_max_left _ _
      · exact (ih h).trans (le_max_right _ _)

theorem depth_le_certDepth {cert : List ViewChange} {vc : ViewChange} (h : vc ∈ cert) :
    vc.depth ≤ certDepth cert := by
  induction cert with
  | nil => cases h
  | cons a cert ih =>
      rw [certDepth]
      rcases List.mem_cons.mp h with rfl | h
      · exact le_max_left _ _
      · exact (ih h).trans (le_max_right _ _)

theorem certDepth_le {cert : List ViewChange} {d : ℕ} (h : ∀ vc ∈ cert, vc.depth ≤ d) :
    certDepth cert ≤ d := by
  induction cert with
  | nil => exact Nat.zero_le d
  | cons vc cert ih =>
      rw [certDepth]
      exact max_le (h vc List.mem_cons_self)
        (ih fun x hx => h x (List.mem_cons_of_mem vc hx))

theorem Commit.depth_proposal_lt (m : Commit) : m.proposal.depth < m.depth := by
  cases m
  rw [Commit.depth]
  exact Nat.lt_succ_self _

theorem ViewChange.depth_lt_of_mem {vc : ViewChange} {m : CertifiedMessage}
    (h : m ∈ vc.messageLog) : m.depth < vc.depth := by
  cases vc
  rw [ViewChange.depth]
  exact Nat.lt_succ_of_le (depth_le_logDepth h)

theorem NewView.certDepth_lt (nv : NewView) : certDepth nv.newViewCert < nv.depth := by
  cases nv
  rw [NewView.depth]
  exact Nat.lt_succ_self _

theorem NewView.depth_lt_of_mem {nv : NewView} {vc : ViewChange} (h : vc ∈ nv.newViewCert) :
    vc.depth < nv.depth :=
  (depth_le_certDepth h).trans_lt nv.certDepth_lt

/-- Induction over a certified message and the certified messages directly embedded in it. -/
@[elab_as_elim]
theorem CertifiedMessage.embeddedInduction {P : CertifiedMessage → Prop}
    (prepare : ∀ m, P (.prepare m))
    (commit : ∀ m : Commit, P m.proposal → P (.commit m))
    (viewChange : ∀ m : ViewChange, (∀ x ∈ m.messageLog, P x) → P (.viewChange m))
    (newView : ∀ m : NewView, (∀ vc ∈ m.newViewCert, P (.viewChange vc)) → P (.newView m))
    (m : CertifiedMessage) : P m := by
  induction hd : m.depth using Nat.strong_induction_on generalizing m with
  | _ d ih =>
    subst hd
    cases m with
    | prepare m => exact prepare m
    | commit m => exact commit m (ih _ m.depth_proposal_lt _ rfl)
    | viewChange m =>
        exact viewChange m fun x hx => ih _ (ViewChange.depth_lt_of_mem hx) x rfl
    | newView m =>
        exact newView m fun vc hvc => ih _ (NewView.depth_lt_of_mem hvc) (.viewChange vc) rfl

end MinBFT
