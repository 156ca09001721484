import MinBFT.Executing
import MinBFT.System

/-!
# Agreement

Replicas that process only messages which follow on from one another deliver operations in one
order. The validators do not see to that. They take the log of a ViewChange for what its replica has
committed to as long as the counters have no gap, so a replica can have committed twice to a later
proposal and never to an earlier one, and its log, being the longest, is the one that a NewView
takes over.
-/

namespace MinBFT

section Known

variable {crypto : Crypto} {config : Config} {Known Known' : CertifiedMessage → Prop}

theorem Sequenced.union (h : Sequenced crypto Known) (h' : Sequenced crypto Known') :
    Sequenced crypto fun m => Known m ∨ Known' m where
  sound := fun m hm => hm.elim (h.sound m) (h'.sound m)
  first := fun m hm => hm.elim (h.first m) (h'.first m)
  next := by
    rintro m (hm | hm) hne
    · obtain ⟨x, hx, hrest⟩ := h.next m hm hne
      exact ⟨x, .inl hx, hrest⟩
    · obtain ⟨x, hx, hrest⟩ := h'.next m hm hne
      exact ⟨x, .inr hx, hrest⟩

theorem Closed.union (h : Closed crypto config Known) (h' : Closed crypto config Known') :
    Closed crypto config fun m => Known m ∨ Known' m where
  toSequenced := h.toSequenced.union h'.toSequenced
  wellFormed := fun m hm => hm.elim (h.wellFormed m) (h'.wellFormed m)
  proposed := fun m hm => hm.imp (h.proposed m) (h'.proposed m)
  messageLog := fun vc hvc x hx => hvc.imp (h.messageLog vc · x hx) (h'.messageLog vc · x hx)
  newViewCert := fun nv hnv vc hvc =>
    hnv.imp (h.newViewCert nv · vc hvc) (h'.newViewCert nv · vc hvc)
  validated := fun nv hnv => hnv.elim (h.validated nv) (h'.validated nv)

/-- What two replicas have executed belongs to one history. -/
theorem Reached.comparable {c c' : Commitments} {l l' : List Content}
    (hsha : Function.Injective crypto.sha256) (huniq : UniqueUI crypto) (htol : config.Tolerant)
    (hc : Closed crypto config Known) (h : Reached config Known c l)
    (h' : Reached config Known c' l') : l <+: l' ∨ l' <+: l := by
  cases h with
  | nothing => exact .inl List.nil_prefix
  | through hchron hs =>
      cases h' with
      | nothing => exact .inr List.nil_prefix
      | through hchron' hs' =>
          exact hc.settled_comparable hsha huniq htol hchron hs hchron' hs'

theorem Execution.Carried.comparable {x x' : Execution} {panicked panicked' : Prop}
    (hsha : Function.Injective crypto.sha256) (huniq : UniqueUI crypto) (htol : config.Tolerant)
    (hc : Closed crypto config Known) (hc' : Closed crypto config Known')
    (h : x.Carried config Known panicked) (h' : x'.Carried config Known' panicked') :
    x.requests.delivered.map Request.content <+: x'.requests.delivered.map Request.content ∨
      x'.requests.delivered.map Request.content <+: x.requests.delivered.map Request.content := by
  obtain ⟨l, d, hl, hd, hpre, -⟩ := h
  obtain ⟨l', d', hl', hd', hpre', -⟩ := h'
  have hcomp := Reached.comparable hsha huniq htol (hc.union hc') (hl.mono fun _ => .inl)
    (hl'.mono fun _ => .inr)
  have hdd : d <+: d' ∨ d' <+: d := by
    rcases hcomp with hcomp | hcomp
    · exact List.prefix_or_prefix_of_prefix (hpre.trans hcomp) hpre'
    · exact List.prefix_or_prefix_of_prefix hpre (hpre'.trans hcomp)
  rw [hd.delivered, hd'.delivered]
  exact hdd.imp Fresh.fresh_prefix Fresh.fresh_prefix

end Known

/-- As long as messages follow on from one another, any two correct replicas deliver operations in
the same order. -/
theorem System.delivered_comparable {net : Network} {sys : System} {i j : UInt32}
    (hnet : net.Admissible) (h : System.Reachable net (fun _ => Replica.Conforms ∅) sys)
    (hi : i ∈ net.correct) (hj : j ∈ net.correct) :
    (sys.nodes i).replica.execution.requests.delivered.map (·.operation) <+:
        (sys.nodes j).replica.execution.requests.delivered.map (·.operation) ∨
      (sys.nodes j).replica.execution.requests.delivered.map (·.operation) <+:
        (sys.nodes i).replica.execution.requests.delivered.map (·.operation) := by
  have hclosed {k : UInt32} (hk : k ∈ net.correct) := (h.node k).run.closed (hnet.lt hk)
    hnet.tolerant hnet.sha256 hnet.uniqueUI
  have hcarried {k : UInt32} (hk : k ∈ net.correct) := (h.node k).carried (hnet.lt hk)
    hnet.tolerant hnet.sha256 hnet.uniqueUI
  have hoperations (l : List Request) :
      l.map (·.operation) = (l.map Request.content).map (·.2.2) := by
    rw [List.map_map]
    rfl
  rw [hoperations, hoperations]
  exact (Execution.Carried.comparable hnet.sha256 hnet.uniqueUI hnet.tolerant (hclosed hi)
    (hclosed hj) (hcarried hi) (hcarried hj)).imp (·.map _) (·.map _)

namespace Concrete

def executedPrepare : CertifiedMessage := .prepare (prepare 0 0 (request 0 1) 1)

def honestViewChange : ViewChange := viewChange 1 1 [commit 1 executedPrepare 1] [1, 2] 2

def carriedViewChange : ViewChange := viewChange 2 1 [] [1, 2] 1

def carryingNewView : NewView := newView 1 1 [honestViewChange, carriedViewChange] 3

def carryingNetwork : Network :=
  ⟨⟨3, 1⟩, ledgerCrypto [executedPrepare, commit 1 executedPrepare 1,
    .viewChange honestViewChange, .viewChange carriedViewChange, .newView carryingNewView,
    commit 2 (.newView carryingNewView) 2], {0, 1}⟩

theorem carryingNetwork_admissible : carryingNetwork.Admissible where
  tolerant := by
    unfold Config.Tolerant
    decide
  sha256 := injective_sha256_ledgerCrypto _
  uniqueUI := uniqueUI_ledgerCrypto (by decide +kernel)
  replicas := by decide +kernel
  faulty := by decide +kernel

/-- Replica 0 executes a request in the initial view, and replica 1 in the next one. -/
def carrying : List (UInt32 × Label) :=
  (handling 0 (.request (request 0 1)) ++ ownHandling (.certified executedPrepare)).map (0, ·) ++
    (handling 0 (.request (request 0 1)) ++ [Label.timeout 0] ++
      ownHandling (.reqViewChange (reqViewChange 1 1)) ++
      handling 1 (.certified executedPrepare)).map (1, ·) ++
    (handling 1 (.certified (commit 1 executedPrepare 1))).map (0, ·) ++
    (handling 2 (.reqViewChange (reqViewChange 2 1)) ++
      ownHandling (.certified (.viewChange honestViewChange)) ++
      handling 3 (.certified (.viewChange carriedViewChange)) ++
      ownHandling (.certified (.newView carryingNewView)) ++
      handling 4 (.certified (commit 2 (.newView carryingNewView) 2))).map (1, ·)

def deliveredOperations (sys : System) : List Bytes × List Bytes :=
  ((sys.nodes 0).replica.execution.requests.delivered.map (·.operation),
    (sys.nodes 1).replica.execution.requests.delivered.map (·.operation))

theorem delivered_comparable_of_carrying :
    ∃ sys, System.Reachable carryingNetwork (fun _ => Replica.Conforms ∅) sys ∧
      deliveredOperations sys = ([[1]], [[1]]) ∧
      ((deliveredOperations sys).1 <+: (deliveredOperations sys).2 ∨
        (deliveredOperations sys).2 <+: (deliveredOperations sys).1) := by
  have h : ((System.init carryingNetwork).exec carryingNetwork
      (fun _ r m => decide (r.Conforms ∅ m)) carrying).any
      (fun sys => deliveredOperations sys == ([[1]], [[1]])) = true := by
    decide +kernel
  obtain ⟨sys, hreach, hsys⟩ := System.exists_reachable (fun _ _ _ => of_decide_eq_true) h
  exact ⟨sys, hreach, beq_iff_eq.mp hsys, System.delivered_comparable carryingNetwork_admissible
    hreach (by decide) (by decide)⟩

/-- The next Prepare, which replica 2 commits to twice, without a commitment to the first. -/
def forgottenPrepare : CertifiedMessage := .prepare (prepare 0 0 (request 1 2) 2)

def skippingViewChange : ViewChange :=
  viewChange 2 1 [commit 2 forgottenPrepare 1, commit 2 forgottenPrepare 2] [1, 2] 3

def skippingNewView : NewView := newView 1 1 [honestViewChange, skippingViewChange] 3

def divergingNetwork : Network :=
  ⟨⟨3, 1⟩, ledgerCrypto [executedPrepare, forgottenPrepare, commit 1 executedPrepare 1,
    commit 2 forgottenPrepare 1, commit 2 forgottenPrepare 2, .viewChange honestViewChange,
    .viewChange skippingViewChange, .newView skippingNewView,
    .prepare (prepare 1 1 (request 0 1) 4), commit 2 (.newView skippingNewView) 4], {0, 1}⟩

theorem divergingNetwork_admissible : divergingNetwork.Admissible where
  tolerant := by
    unfold Config.Tolerant
    decide
  sha256 := injective_sha256_ledgerCrypto _
  uniqueUI := uniqueUI_ledgerCrypto (by decide +kernel)
  replicas := by decide +kernel
  faulty := by decide +kernel

/-- Replica 0 executes the first request with the Commit of replica 1. In the next view replica 1
executes what the longer log of the faulty replica 2 leaves of the initial one. -/
def diverging : List (UInt32 × Label) :=
  (handling 0 (.request (request 0 1)) ++ handling 1 (.request (request 1 2)) ++
      ownHandling (.certified executedPrepare)).map (0, ·) ++
    (handling 0 (.request (request 0 1)) ++ [Label.timeout 0] ++
      ownHandling (.reqViewChange (reqViewChange 1 1)) ++
      handling 1 (.certified executedPrepare)).map (1, ·) ++
    (handling 2 (.certified (commit 1 executedPrepare 1))).map (0, ·) ++
    (handling 2 (.reqViewChange (reqViewChange 2 1)) ++
      ownHandling (.certified (.viewChange honestViewChange)) ++
      handling 3 (.certified (.viewChange skippingViewChange)) ++
      ownHandling (.certified (.newView skippingNewView)) ++
      handling 4 (.certified (commit 2 (.newView skippingNewView) 4))).map (1, ·)

theorem delivered_diverges : divergingNetwork.Admissible ∧
    ∃ sys, System.Reachable divergingNetwork (fun _ _ _ => True) sys ∧
      ∃ i ∈ divergingNetwork.correct, ∃ j ∈ divergingNetwork.correct,
        ¬ ((sys.nodes i).replica.execution.requests.delivered.map (·.operation) <+:
            (sys.nodes j).replica.execution.requests.delivered.map (·.operation) ∨
          (sys.nodes j).replica.execution.requests.delivered.map (·.operation) <+:
            (sys.nodes i).replica.execution.requests.delivered.map (·.operation)) := by
  refine ⟨divergingNetwork_admissible, ?_⟩
  have h : ((System.init divergingNetwork).exec divergingNetwork (fun _ _ _ => true)
      diverging).any (fun sys => deliveredOperations sys == ([[1]], [[2]])) = true := by
    decide +kernel
  obtain ⟨sys, hreach, hsys⟩ := System.exists_reachable (fun _ _ _ _ => trivial) h
  refine ⟨sys, hreach, 0, by decide, 1, by decide, ?_⟩
  obtain ⟨h₀, h₁⟩ := Prod.mk.inj (beq_iff_eq.mp hsys)
  rw [h₀, h₁]
  decide

end Concrete

end MinBFT
