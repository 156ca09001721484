import MinBFT.Accepting
import MinBFT.Ledger
import MinBFT.Panicking
import MinBFT.System

/-!
# Current and expected view

The current view follows NewViews and the expected view follows collected requests for a view
change, and each is guarded by its own comparison only. As long as no NewView is processed ahead of
the expected view, the current view stays behind the expected one, and it reaches it only with the
NewView applied. A replica that lags behind by several views can be given a NewView ahead of the
view it expects.
-/

namespace MinBFT

namespace Replica

variable {p : Params} {order : List Request} {s s' : Replica} {m : Message}

/-- A NewView that is next in sequence does not run ahead of the expected view. -/
def Timely (s : Replica) : Message → Prop
  | .certified (.newView nv) => s.Next (.newView nv) → nv.newView ≤ s.expectedView
  | _ => True

instance (s : Replica) : (m : Message) → Decidable (s.Timely m)
  | .certified (.newView nv) =>
      inferInstanceAs (Decidable (s.Next (.newView nv) → nv.newView ≤ s.expectedView))
  | .certified (.prepare _) => .isTrue trivial
  | .certified (.commit _) => .isTrue trivial
  | .certified (.viewChange _) => .isTrue trivial
  | .hello _ => .isTrue trivial
  | .request _ => .isTrue trivial
  | .reply _ => .isTrue trivial
  | .reqViewChange _ => .isTrue trivial

structure Ordered (s : Replica) : Prop where
  le : s.currentView ≤ s.expectedView
  replicaViews : ∀ r, s.execution.commitments.replicaViews r ≤ s.currentView
  attempted : ∀ a ∈ s.attempted, a.message.kind ≠ .newView →
    a.message.messageView = some a.currentView ∧ a.currentView = a.expectedView

def Active (s : Replica) : Prop :=
  s.currentView = s.expectedView → s.expectedView ≠ 0 →
    ∃ nv, .newView nv ∈ s.applied ∧ nv.newView = s.expectedView

theorem Applicable.currentView_le_viewFor {c : CertifiedMessage} (happ : s.Applicable c) :
    s.currentView ≤ s.viewFor c := by
  unfold viewFor
  split_ifs with hnv
  · exact UInt64.le_of_lt (happ.newView hnv)
  · exact UInt64.le_refl _

/-- A commitment is only recorded in a view that the current one has reached. -/
theorem replicaViews_attempt {c : CertifiedMessage} {x : Execution}
    {res : EStateM.Result Fault Execution Unit}
    (h : ∀ r, s.execution.commitments.replicaViews r ≤ s.currentView) (happ : s.Applicable c)
    (htake : Execution.take c s.execution = res) (hx : res.state = x) (r : UInt32) :
    (s.attempt c x).execution.commitments.replicaViews r ≤ (s.attempt c x).currentView := by
  have hle := happ.currentView_le_viewFor
  subst hx
  rcases (Transition.taken happ htake).commitments_cases with heq | ⟨done, hrec⟩
  · rw [show (s.attempt c res.state).execution.commitments = _ from heq]
    exact UInt64.le_trans (h r) hle
  · rw [show (s.attempt c res.state).execution.commitments.replicaViews = _ from
      Commitments.replicaViews_record hrec]
    by_cases hr : r = c.replicaID
    · subst hr
      rw [Function.update_self]
      change s.expectedView ≤ s.viewFor c
      unfold viewFor
      split_ifs with hnv
      · exact UInt64.le_refl _
      · exact happ.other hnv
    · rw [Function.update_of_ne hr]
      exact UInt64.le_trans (h r) hle

theorem Transition.replicaViews_le (htrans : Transition p order m s s')
    (h : ∀ r, s.execution.commitments.replicaViews r ≤ s.currentView) (r : UInt32) :
    s'.execution.commitments.replicaViews r ≤ s'.currentView := by
  cases htrans with
  | skipped _ hlt => exact UInt64.le_trans (h r) (UInt64.le_of_lt hlt)
  | failed happ htake => exact replicaViews_attempt h happ htake rfl r
  | applied happ htake => exact replicaViews_attempt h happ htake rfl r
  | _ => exact h r

theorem Run.replicaViews_le {C : Replica → Message → Prop} (h : s.Run p C) :
    ∀ r, s.execution.commitments.replicaViews r ≤ s.currentView := by
  induction h with
  | init => exact fun _ => UInt64.le_refl _
  | process _ _ _ htrans _ ih => exact htrans.replicaViews_le ih
  | timeout _ _ _ ih =>
      intro r
      rw [execution_requestViewChange, currentView_requestViewChange]
      exact ih r

/-- The commitment in a NewView that is applied always fits. -/
theorem Applicable.fits {nv : NewView} (happ : s.Applicable (.newView nv))
    (h : ∀ r, s.execution.commitments.replicaViews r ≤ s.currentView) :
    s.execution.commitments.Fits (.newView nv) s.expectedView := by
  rw [Commitments.fits_newView]
  exact UInt64.lt_of_le_of_lt (h _) (happ.newView rfl)

theorem Ordered.attempt {c : CertifiedMessage} {x : Execution}
    {res : EStateM.Result Fault Execution Unit} (h : Ordered s) (happ : s.Applicable c)
    (htake : Execution.take c s.execution = res) (hx : res.state = x) :
    Ordered (s.attempt c x) := by
  refine ⟨?_, replicaViews_attempt h.replicaViews happ htake hx, ?_⟩
  · change s.viewFor c ≤ s.expectedView
    unfold viewFor
    split_ifs
    · exact UInt64.le_refl _
    · exact h.le
  · intro a ha hkind
    rcases List.mem_append.mp ha with ha | ha
    · exact h.attempted a ha hkind
    · cases List.mem_singleton.mp ha
      have heq : s.viewFor c = s.expectedView := by
        rw [viewFor, if_neg hkind]
        exact UInt64.le_antisymm h.le (happ.other hkind)
      exact ⟨heq ▸ happ.messageView, heq⟩

theorem Ordered.transition (h : Ordered s) (hc : s.Timely m)
    (htrans : Transition p order m s s') : Ordered s' := by
  have hviews := htrans.replicaViews_le h.replicaViews
  cases htrans with
  | skipped hnext => exact ⟨hc hnext, hviews, h.attempted⟩
  | failed happ htake => exact h.attempt happ htake rfl
  | applied happ htake =>
      have hattempt := h.attempt happ htake rfl
      exact ⟨hattempt.le, hviews, hattempt.attempted⟩
  | leftView _ hlt =>
      exact ⟨UInt64.le_of_lt (UInt64.lt_of_le_of_lt h.le hlt), hviews, h.attempted⟩
  | _ => exact ⟨h.le, hviews, h.attempted⟩

theorem Active.transition (h : Active s) (ho : Ordered s)
    (hlive : ∀ q r, processMessage p order m s ≠ .error (.panic q) r)
    (htrans : Transition p order m s s') : Active s' := by
  cases htrans with
  | skipped _ _ hne => exact fun heq => absurd heq hne
  | @failed c _ e x happ htake =>
      -- only a panic can keep an applicable NewView from being taken into account
      intro heq hne
      cases c with
      | newView nv =>
          obtain ⟨q, rfl⟩ := (Transition.taken happ htake).panics_of_fits
            (happ.fits ho.replicaViews) (by rintro q ⟨⟩)
          exact absurd rfl (ne_panic_of_live hlive happ htake q)
      | _ => exact h heq hne
  | @applied c _ x happ htake =>
      intro heq hne
      cases c with
      | newView nv =>
          exact ⟨nv, List.mem_append_right _ List.mem_cons_self, Option.some.inj happ.messageView⟩
      | _ =>
          obtain ⟨nv, hnv, hview⟩ := h heq hne
          exact ⟨nv, List.mem_append_left _ hnv, hview⟩
  | leftView _ hlt =>
      intro heq
      exact absurd (UInt64.lt_of_le_of_lt ho.le hlt) (heq ▸ UInt64.lt_irrefl _)
  | _ => exact h

end Replica

namespace Node

structure ViewState (s : Node) : Prop where
  le : s.replica.currentView ≤ s.replica.expectedView
  active : s.crashed = none → s.replica.currentView = s.replica.expectedView →
    s.replica.expectedView ≠ 0 →
    ∃ nv, .newView nv ∈ s.replica.applied ∧ nv.newView = s.replica.expectedView
  applied : ∀ a ∈ s.replica.attempted, a.message.kind ≠ .newView →
    a.message.messageView = some a.currentView ∧ a.currentView = a.expectedView

theorem Reachable.ordered {p : Params} {C : Replica → Message → Prop} {s : Node}
    (h : s.Reachable p C) (hC : ∀ r m, C r m → r.Timely m) :
    s.replica.Ordered ∧ (s.crashed = none → s.replica.Active) := by
  induction h with
  | init =>
      refine ⟨⟨UInt64.le_refl _, fun _ => UInt64.le_refl _, ?_⟩, fun _ _ hne => absurd rfl hne⟩
      exact fun _ ha => absurd ha List.not_mem_nil
  | @step s s' l _ hstep hcond ih =>
      obtain ⟨ho, ha⟩ := ih
      obtain ⟨hlive, hstepped, -⟩ := step_cases hstep
      rcases hstepped.replica_cases with heq | ⟨view, -, heq⟩ | ⟨m, order, hproc, heq, halive⟩
      · rw [heq]
        exact ⟨ho, fun _ => ha hlive⟩
      · rw [heq]
        refine ⟨⟨?_, ?_, ?_⟩, fun _ => ?_⟩
        · simpa using ho.le
        · simpa using ho.replicaViews
        · simpa using ho.attempted
        · rw [Replica.Active, Replica.currentView_requestViewChange,
            Replica.expectedView_requestViewChange, Replica.applied_requestViewChange]
          exact ha hlive
      · have htrans := @Replica.processMessage_transition p order m s.replica
        rw [heq]
        exact ⟨ho.transition (hC _ _ (hcond m hproc)) htrans,
          fun hc => (ha hlive).transition ho (halive hc) htrans⟩

/-- As long as no NewView is processed ahead of the expected view, the view numbers mean what they
are supposed to. -/
theorem viewState_of_timely {p : Params} {s : Node} (h : s.Reachable p Replica.Timely) :
    s.ViewState := by
  obtain ⟨hordered, hactive⟩ := h.ordered fun _ _ hc => hc
  exact ⟨hordered.le, hactive, hordered.attempted⟩

end Node

namespace Concrete

/-- The first backup of two replicas asks for the next view and becomes its primary. -/
def promotedViewChange : ViewChange := viewChange 1 1 [] [1] 1

def promotedNewView : NewView := newView 1 1 [promotedViewChange] 2

def promotedParams : Params :=
  ⟨1, ⟨2, 0⟩, ledgerCrypto [.viewChange promotedViewChange, .newView promotedNewView,
    .prepare (prepare 1 1 (request 0 1) 3)]⟩

def promotion : List Label :=
  handling 0 (.request (request 0 1)) ++ [.timeout 0] ++
    ownHandling (.reqViewChange (reqViewChange 1 1)) ++
    ownHandling (.certified (.viewChange promotedViewChange)) ++
    ownHandling (.certified (.newView promotedNewView))

theorem viewState_of_promotion : ∃ s : Node, s.Reachable promotedParams Replica.Timely ∧
    s.replica.currentView = 1 ∧ s.replica.expectedView = 1 ∧ s.ViewState := by
  have h : ((Node.init promotedParams).exec promotedParams (fun r m => decide (r.Timely m))
      promotion).any (fun s => s.replica.currentView == 1 && s.replica.expectedView == 1) =
        true := by
    decide +kernel
  obtain ⟨s, hreach, hs⟩ := Node.exists_reachable promotedParams
    (fun _ _ => of_decide_eq_true) h
  rw [Bool.and_eq_true, beq_iff_eq, beq_iff_eq] at hs
  exact ⟨s, hreach, hs.1, hs.2, Node.viewState_of_timely hreach⟩

/-- The other replica goes on to the view after the next, which it is the primary of. -/
def aheadPrepare : CertifiedMessage := .prepare (prepare 0 0 (request 0 1) 1)

def aheadViewChange : ViewChange := viewChange 0 1 [aheadPrepare] [0] 2

def aheadViewChangeAgain : ViewChange := viewChange 0 2 [.viewChange aheadViewChange] [0] 3

def aheadNewView : NewView := newView 0 2 [aheadViewChangeAgain] 4

def laggingNetwork : Network :=
  ⟨⟨2, 0⟩, ledgerCrypto [aheadPrepare, .viewChange aheadViewChange,
    .viewChange aheadViewChangeAgain, .newView aheadNewView,
    .viewChange (viewChange 1 1 [] [0] 1)], {0, 1}⟩

theorem laggingNetwork_admissible : laggingNetwork.Admissible where
  tolerant := by
    unfold Config.Tolerant
    decide
  sha256 := injective_sha256_ledgerCrypto _
  uniqueUI := uniqueUI_ledgerCrypto (by decide +kernel)
  replicas := by decide +kernel
  faulty := by decide +kernel

def ahead : List (UInt32 × Label) :=
  (handling 0 (.request (request 0 1)) ++ ownHandling (.certified aheadPrepare) ++
    [Label.timeout 0] ++ ownHandling (.reqViewChange (reqViewChange 0 1)) ++
    ownHandling (.certified (.viewChange aheadViewChange)) ++
    [Label.timeout 1] ++ ownHandling (.reqViewChange (reqViewChange 0 2))).map (0, ·)

/-- The NewView of replica 0 is the first thing that replica 1 receives from it. -/
def lagging : List (UInt32 × Label) :=
  ahead ++ (ownHandling (.certified (.viewChange aheadViewChangeAgain))).map (0, ·) ++
    (handling 0 (.certified (.newView aheadNewView))).map (1, ·)

theorem currentView_ahead_of_expectedView : laggingNetwork.Admissible ∧
    ∃ sys, System.Reachable laggingNetwork (fun _ _ _ => True) sys ∧
      ∃ i ∈ laggingNetwork.correct, ¬ (sys.nodes i).ViewState := by
  refine ⟨laggingNetwork_admissible, ?_⟩
  have h : ((System.init laggingNetwork).exec laggingNetwork (fun _ _ _ => true) lagging).any
      (fun sys => decide ((sys.nodes 1).replica.expectedView <
        (sys.nodes 1).replica.currentView)) = true := by
    decide +kernel
  obtain ⟨sys, hreach, hsys⟩ := System.exists_reachable (fun _ _ _ _ => trivial) h
  refine ⟨sys, hreach, 1, by decide, fun hview => ?_⟩
  exact absurd hview.le (UInt64.not_le.mpr (of_decide_eq_true hsys))

end Concrete

end MinBFT
