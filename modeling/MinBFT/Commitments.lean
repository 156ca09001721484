import MinBFT.PreparedRequests
import MinBFT.Validation

/-!
# Accepting and counting commitments

The state behind `makeCommitmentAcceptor` and `makeCommitmentCounter`. The acceptor keeps for each
replica the view it has committed in and the last counters seen there. The counter keeps, for the
latest view, as many of the highest primary counters as are needed besides the next one to complete
a commit certificate.
-/

namespace MinBFT

structure Commitments where
  replicaViews : UInt32 → UInt64
  lastPrimaryCVs : UInt32 → UInt64
  lastReplicaCVs : UInt32 → UInt64
  lastView : UInt64
  highest : List UInt64
  /-- The commitments accepted so far. -/
  accepted : List CertifiedMessage
  /-- The proposals executed or accepted so far, one entry each time. -/
  completed : List CertifiedMessage

namespace Commitments

def init (commitCertSize : UInt32) : Commitments where
  replicaViews := fun _ => 0
  lastPrimaryCVs := fun _ => 0
  lastReplicaCVs := fun _ => 0
  lastView := 0
  highest := List.replicate (commitCertSize - 1).toNat 0
  accepted := []
  completed := []

def setLast (s : Commitments) (replicaID : UInt32) (primaryCV replicaCV : UInt64) : Commitments :=
  { s with
    lastPrimaryCVs := Function.update s.lastPrimaryCVs replicaID primaryCV
    lastReplicaCVs := Function.update s.lastReplicaCVs replicaID replicaCV }

def acceptCommitment (replicaID : UInt32) (newView : Bool) (view primaryCV replicaCV : UInt64)
    (s : Commitments) : Except Error Commitments :=
  if newView then
    if view ≤ s.replicaViews replicaID then .error .unexpectedViewNumber
    else
      .ok ({ s with replicaViews := Function.update s.replicaViews replicaID view }.setLast
        replicaID primaryCV replicaCV)
  else if view ≠ s.replicaViews replicaID then .error .unexpectedViewNumber
  else if primaryCV ≠ s.lastPrimaryCVs replicaID + 1 then .error .nonSequentialPrimaryUI
  else if replicaCV ≠ s.lastReplicaCVs replicaID + 1 then .error .nonSequentialReplicaUI
  else .ok (s.setLast replicaID primaryCV replicaCV)

/-- The loop over `highest`: the first value below `cv` is replaced; `none` when there is none. -/
def replaceFirstBelow (cv : UInt64) : List UInt64 → Option (List UInt64)
  | [] => none
  | x :: xs => if cv > x then some (cv :: xs) else (replaceFirstBelow cv xs).map (x :: ·)

def countCommitment (view primaryCV : UInt64) (s : Commitments) : Bool × Commitments :=
  if view < s.lastView then (false, s)
  else
    let s := if view > s.lastView then
        { s with lastView := view, highest := List.replicate s.highest.length 0 }
      else s
    match replaceFirstBelow primaryCV s.highest with
    | some highest => (false, { s with highest })
    | none => (true, s)

end Commitments

def CertifiedMessage.messageView (m : CertifiedMessage) : Option UInt64 :=
  match m.proposed with
  | .prepare p => some p.view
  | .newView nv => some nv.newView
  | _ => none

namespace CertifiedMessage

variable {m : CertifiedMessage}

theorem kind_of_messageView {v : UInt64} (h : m.messageView = some v) :
    m.kind ≠ .viewChange := by
  cases m with
  | viewChange => cases h
  | _ => simp [kind]

theorem messageView_of_prepare {q : Prepare} (h : m.proposed = .prepare q) :
    m.messageView = some q.view := by
  rw [messageView, h]

theorem messageView_of_newView {nv : NewView} (h : m.proposed = .newView nv) :
    m.messageView = some nv.newView := by
  rw [messageView, h]

end CertifiedMessage

end MinBFT
