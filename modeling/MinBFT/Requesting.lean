import MinBFT.Ledger
import MinBFT.System
import MinBFT.WellFormed

/-!
# Requests for a view change

A replica requests each view change once, when a timer expires, and relies on its message log to
carry the ReqViewChange to every peer. The log is reset when a view is left; by then the only
request still open is the one for the view entered. The log is also reset when a NewView is issued,
and there a request for the next view may get lost: the timer for the view change may expire before
the replica has collected the ViewChanges for its NewView.
-/

namespace MinBFT

namespace Output

variable {p : Params} {v w : UInt64} {o o' o'' : Output}

structure Grows (v : UInt64) (o o' : Output) : Prop where
  log : o.log <+: o'.log
  timers : ∀ t ∈ o'.timers, t ∈ o.timers ∨ t = v

theorem Grows.refl (v : UInt64) (o : Output) : Grows v o o :=
  ⟨List.prefix_refl _, fun _ ht => .inl ht⟩

theorem Grows.trans (h : Grows v o o') (h' : Grows v o' o'') : Grows v o o'' :=
  ⟨h.log.trans h'.log, fun t ht => (h'.timers t ht).elim (h.timers t) .inr⟩

theorem grows_generate (v : UInt64) (mk : UI → CertifiedMessage) (o : Output) :
    Grows v o (o.generate p mk) := ⟨List.prefix_append _ _, fun _ ht => .inl ht⟩

theorem grows_applyRequest (v : UInt64) (o : Output) (r : Request) :
    Grows v o (o.applyRequest p v r) := by
  have hstart : Grows v o (o.startTimer v) :=
    ⟨List.prefix_refl _, fun _ ht => (List.mem_cons.mp ht).symm⟩
  unfold applyRequest
  split_ifs
  · exact hstart.trans (grows_generate v _ _)
  · exact hstart

theorem grows_applyPendingRequests (v : UInt64) (pendingReqs : RequestList) (order : List Request)
    (o : Output) : Grows v o (o.applyPendingRequests p pendingReqs order v) := by
  unfold applyPendingRequests
  induction pendingReqs.all order generalizing o with
  | nil => exact .refl v o
  | cons r reqs ih => exact (grows_applyRequest v o r).trans (ih _)

end Output

namespace Replica

variable {p : Params} {order : List Request} {C : Replica → Message → Prop} {s s' : Replica}
  {m : Message}

theorem grows_respond {c : CertifiedMessage} {v : UInt64} (pendingReqs : RequestList)
    (hview : c.messageView = some v) (o : Output) :
    Output.Grows v o (respond p order pendingReqs c o) := by
  cases c with
  | prepare c =>
      simp only [respond]
      split_ifs
      · exact .refl v o
      · exact Output.grows_generate v _ o
  | newView c =>
      cases hview
      have h := Output.grows_applyPendingRequests (p := p) c.newView pendingReqs order o
      simp only [respond]
      split_ifs
      · exact h
      · exact h.trans (Output.grows_generate _ _ _)
  | _ => exact .refl v o

def Announces (p : Params) (s : Replica) : Message → Prop
  | .certified (.viewChange vc) => s.Next (.viewChange vc) ∧ s.newViewCert p vc ≠ none ∧
      vc.newView = s.expectedView
  | _ => False

instance : Decidable (s.Announces p m) := by
  unfold Announces
  split <;> infer_instance

/-- When a log is not appended to it is reset, for one of two reasons. -/
theorem Transition.output_cases (h : Transition p order m s s') :
    (s'.expectedView = s.expectedView ∧ s.output.Grows s.expectedView s'.output) ∨
      (s.Announces p m ∧ s'.expectedView = s.expectedView ∧
        s'.output.timers = s.output.timers) ∨
      s.expectedView < s'.expectedView ∧
        s'.output.timers = s'.expectedView :: s.output.timers := by
  cases h with
  | requested _ hview =>
      refine .inl ⟨rfl, ?_⟩
      rw [← hview]
      exact Output.grows_applyRequest _ _ _
  | newView hnext hcert hview =>
      exact .inr (.inl ⟨⟨hnext, by rw [hcert]; exact Option.some_ne_none _, hview⟩, rfl, rfl⟩)
  | applied happ => exact .inl ⟨rfl, grows_respond _ happ.messageView _⟩
  | leftView _ hlt => exact .inr (.inr ⟨hlt, rfl⟩)
  | _ => exact .inl ⟨rfl, .refl _ _⟩

theorem Transition.requested_eq (h : Transition p order m s s') : s'.requested = s.requested := by
  cases h <;> rfl

/-- Processing a message generates no ReqViewChange. -/
theorem Transition.reqViewChange_generated {rvc : ReqViewChange} (h : Transition p order m s s')
    (hg : .reqViewChange rvc ∈ s'.output.generated) :
    .reqViewChange rvc ∈ s.output.generated := by
  rcases h.generated_cases hg with hold | hmade
  · exact hold
  · cases hmade

/-- A replica requests at most the view after the one it expects. -/
structure Asking (s : Replica) : Prop where
  timers : ∀ v ∈ s.output.timers, v ≤ s.expectedView
  requested : s.requested.toNat ≤ s.expectedView.toNat + 1
  generated : ∀ rvc, .reqViewChange rvc ∈ s.output.generated → rvc.newView ≤ s.requested

theorem Asking.transition (h : Asking s) (htrans : Transition p order m s s') : Asking s' := by
  have hgen : ∀ rvc, .reqViewChange rvc ∈ s'.output.generated → rvc.newView ≤ s'.requested :=
    fun rvc hg => htrans.requested_eq ▸ h.generated rvc (htrans.reqViewChange_generated hg)
  have hreq := h.requested
  rw [← htrans.requested_eq] at hreq
  rcases htrans.output_cases with ⟨hview, hgrows⟩ | ⟨-, hview, htimers⟩ | ⟨hlt, htimers⟩
  · refine ⟨fun v hv => ?_, hview ▸ hreq, hgen⟩
    rw [hview]
    rcases hgrows.timers v hv with hv | rfl
    · exact h.timers v hv
    · exact UInt64.le_refl _
  · rw [← hview] at hreq
    exact ⟨fun v hv => hview ▸ h.timers v (htimers ▸ hv), hreq, hgen⟩
  · have hle := UInt64.lt_iff_toNat_lt.mp hlt
    refine ⟨fun v hv => ?_, by omega, hgen⟩
    rw [htimers] at hv
    rcases List.mem_cons.mp hv with rfl | hv
    · exact UInt64.le_refl _
    · exact UInt64.le_trans (h.timers v hv) (UInt64.le_of_lt hlt)

theorem toNat_add_one_le (v : UInt64) : (v + 1).toNat ≤ v.toNat + 1 := by
  rw [UInt64.toNat_add, UInt64.toNat_one]
  exact Nat.mod_le _ _

theorem Asking.requestViewChange {v : UInt64} (h : Asking s) (hv : v ∈ s.output.timers) :
    Asking (s.requestViewChange p (v + 1)) := by
  have hle := UInt64.le_iff_toNat_le.mp (h.timers v hv)
  have hsucc := toNat_add_one_le v
  unfold Replica.requestViewChange
  split_ifs with hreq hexp
  · exact h
  · have hlt := UInt64.not_le.mp hreq
    exact ⟨h.timers, Nat.le_trans hsucc (by simpa using hle), fun rvc hg =>
      UInt64.le_trans (h.generated rvc hg) (UInt64.le_of_lt hlt)⟩
  · have hlt := UInt64.not_le.mp hreq
    refine ⟨h.timers, Nat.le_trans hsucc (by simpa using hle), fun rvc hg => ?_⟩
    rcases List.mem_append.mp hg with hg | hg
    · exact UInt64.le_trans (h.generated rvc hg) (UInt64.le_of_lt hlt)
    · cases List.mem_singleton.mp hg
      exact UInt64.le_refl _

theorem Run.asking (h : s.Run p C) : Asking s := by
  induction h with
  | init => exact ⟨fun _ hv => absurd hv List.not_mem_nil, Nat.zero_le _,
      fun _ hg => absurd hg List.not_mem_nil⟩
  | process _ _ _ htrans _ ih => exact ih.transition htrans
  | timeout _ hview _ ih => exact ih.requestViewChange hview

def Unasked (p : Params) (s : Replica) (m : Message) : Prop :=
  s.Announces p m → s.requested ≤ s.expectedView

instance : Decidable (s.Unasked p m) := inferInstanceAs (Decidable (_ → _))

def Logged (s : Replica) : Prop :=
  ∀ rvc, .reqViewChange rvc ∈ s.output.generated → s.expectedView < rvc.newView →
    .reqViewChange rvc ∈ s.output.log

theorem Logged.transition (h : Logged s) (hask : Asking s) (hcond : s.Unasked p m)
    (htrans : Transition p order m s s') : Logged s' := by
  intro rvc hg hlt
  have hold := htrans.reqViewChange_generated hg
  have hle := hask.generated rvc hold
  rcases htrans.output_cases with ⟨hview, hgrows⟩ | ⟨hann, hview, -⟩ | ⟨hleft, -⟩
  · exact hgrows.log.subset (h rvc hold (hview ▸ hlt))
  · -- a request for a later view is excluded by the condition
    rw [hview] at hlt
    exact absurd (UInt64.lt_of_lt_of_le hlt (UInt64.le_trans hle (hcond hann)))
      (UInt64.lt_irrefl _)
  · -- the request was for the view now entered
    have hreq := hask.requested
    rw [UInt64.le_iff_toNat_le] at hle
    rw [UInt64.lt_iff_toNat_lt] at hlt hleft
    omega

theorem Logged.requestViewChange {v : UInt64} (h : Logged s) :
    Logged (s.requestViewChange p v) := by
  unfold Replica.requestViewChange
  split_ifs
  · exact h
  · exact h
  · intro rvc hg hlt
    rcases List.mem_append.mp hg with hg | hg
    · exact List.mem_append_left _ (h rvc hg hlt)
    · exact List.mem_append_right _ hg

theorem Run.logged (h : s.Run p C) (hC : ∀ r m, C r m → r.Unasked p m) : Logged s := by
  induction h with
  | init => exact fun _ hg => absurd hg List.not_mem_nil
  | process hrun _ hcond htrans _ ih => exact ih.transition hrun.asking (hC _ _ hcond) htrans
  | timeout _ _ _ ih => exact ih.requestViewChange

end Replica

/-- In every run in which a NewView is issued only while no later view is requested, the log holds
every ReqViewChange for a view later than the one expected. -/
theorem Node.logged_of_unasked {p : Params} {s : Node}
    (h : s.Reachable p (Replica.Unasked p)) : s.replica.Logged :=
  h.run.logged fun _ _ hC => hC

namespace Concrete

def silentViewChange : ViewChange := viewChange 2 1 [] [1, 2] 1

def hastyViewChange : ViewChange := viewChange 1 1 [] [1, 2] 1

def hastyNetwork : Network := ⟨⟨3, 1⟩, ledgerCrypto [.viewChange silentViewChange,
  .viewChange hastyViewChange, .newView (newView 1 1 [hastyViewChange, silentViewChange] 2)],
  {0, 1}⟩

theorem hastyNetwork_admissible : hastyNetwork.Admissible where
  tolerant := by
    unfold Config.Tolerant
    decide
  sha256 := injective_sha256_ledgerCrypto _
  uniqueUI := uniqueUI_ledgerCrypto (by decide +kernel)
  replicas := by decide +kernel
  faulty := by decide +kernel

/-- Replica 1 leaves the initial view and handles its own ViewChange. -/
def leaving : List Label :=
  handling 0 (.request (request 0 1)) ++ [Label.timeout 0] ++
    ownHandling (.reqViewChange (reqViewChange 1 1)) ++
    handling 1 (.reqViewChange (reqViewChange 2 1)) ++
    ownHandling (.certified (.viewChange hastyViewChange))

/-- Its timer for the view change expires before the other ViewChange arrives. -/
def hastening : List (UInt32 × Label) :=
  (leaving ++ [Label.timeout 1] ++ handling 2 (.certified (.viewChange silentViewChange))).map
    (1, ·)

def lost (s : Replica) : Bool :=
  s.output.generated.any fun
    | .reqViewChange rvc => decide (s.expectedView < rvc.newView) &&
        s.output.log.all fun
          | .reqViewChange x => x.newView != rvc.newView
          | _ => true
    | _ => false

theorem not_logged_of_lost {s : Replica} (h : lost s = true) : ¬ s.Logged := by
  intro hlogged
  obtain ⟨x, hx, hlost⟩ := List.any_eq_true.mp h
  cases x with
  | reqViewChange rvc =>
      simp only [Bool.and_eq_true, decide_eq_true_eq] at hlost
      have hmem := List.all_eq_true.mp hlost.2 _ (hlogged rvc hx hlost.1)
      simp at hmem
  | _ => cases hlost

theorem reqViewChange_lost : hastyNetwork.Admissible ∧
    ∃ sys, System.Reachable hastyNetwork (fun _ _ _ => True) sys ∧
      ∃ i ∈ hastyNetwork.correct, ¬ (sys.nodes i).replica.Logged := by
  refine ⟨hastyNetwork_admissible, ?_⟩
  have h : ((System.init hastyNetwork).exec hastyNetwork (fun _ _ _ => true) hastening).any
      (fun sys => lost (sys.nodes 1).replica) = true := by
    decide +kernel
  obtain ⟨sys, hreach, hsys⟩ := System.exists_reachable (fun _ _ _ _ => trivial) h
  exact ⟨sys, hreach, 1, by decide, not_logged_of_lost hsys⟩

/-- If the timer expires only after the NewView, the request for the next view is logged. -/
theorem logged_after_newView : ∃ s : Node,
    s.Reachable (hastyNetwork.params 1) (Replica.Unasked (hastyNetwork.params 1)) ∧
      s.replica.requested = 2 ∧ s.replica.Logged := by
  have h : ((Node.init (hastyNetwork.params 1)).exec (hastyNetwork.params 1)
      (fun r m => decide (r.Unasked (hastyNetwork.params 1) m))
      (leaving ++ handling 2 (.certified (.viewChange silentViewChange)) ++
        [Label.timeout 1])).any (fun s => s.replica.requested == 2) = true := by
    decide +kernel
  obtain ⟨s, hreach, hs⟩ := Node.exists_reachable _ (fun _ _ => of_decide_eq_true) h
  exact ⟨s, hreach, beq_iff_eq.mp hs, Node.logged_of_unasked hreach⟩

end Concrete

end MinBFT
