import MinBFT.Collecting
import MinBFT.Views

/-!
# Following a ViewChange

The requests for a view change in the certificate of a ViewChange are handled before the ViewChange
itself. They take the replica to the view of the ViewChange if that is at most the next one. The
collector ignores requests for views further ahead, so that a replica which is two views behind
handles the ViewChange without getting to its view.
-/

namespace MinBFT

namespace Replica

inductive Moves (p : Params) (r : Replica) : Replica → Prop where
  | same : Moves p r r
  | timeout (view : UInt64) : Moves p r (r.requestViewChange p view)
  | process {m : Message} {order : List Request} {r₁ : Replica} (hadmits : r.Admits p m)
      (htrans : Transition p order m r r₁) : Moves p r r₁

variable {p : Params} {r r' : Replica}

theorem Moves.expectedView_le (h : Moves p r r') : r.expectedView ≤ r'.expectedView := by
  cases h with
  | same => exact UInt64.le_refl _
  | timeout view => simp
  | process _ htrans => exact htrans.expectedView_le

theorem Moves.gathered {C : Replica → Message → Prop} {v : UInt64} {id : UInt32}
    (h : Moves p r r') (hid : p.id < p.config.n) (htol : p.config.Tolerant) (hrun : r.Run p C)
    (hg : r.Gathered v id) : r'.Gathered v id := by
  cases h with
  | same => exact hg
  | timeout view =>
      unfold Gathered requestViewChange
      split_ifs <;> exact hg
  | process hadmits htrans =>
      exact hg.transition (hrun.collecting hid htol) (hrun.admitted hid hadmits) htrans

def Near (v : UInt64) (r : Replica) : Prop := v ≤ r.expectedView ∨ r.expectedView + 1 = v

theorem near_iff {v : UInt64} (hv : 1 ≤ v) :
    r.Near v ↔ v.toNat ≤ r.expectedView.toNat + 1 := by
  have hpos : 1 ≤ v.toNat := hv
  have hlt := r.expectedView.toNat_lt
  have hlt' := v.toNat_lt
  rw [Near, UInt64.le_iff_toNat_le, ← UInt64.toNat_inj, UInt64.toNat_add, UInt64.toNat_one]
  omega

theorem Near.mono {v : UInt64} (h : r.Near v) (hle : r.expectedView ≤ r'.expectedView) :
    r'.Near v := by
  rcases h with h | h
  · exact .inl (UInt64.le_trans h hle)
  · by_cases heq : r.expectedView = r'.expectedView
    · exact .inr (heq ▸ h)
    · refine .inl ?_
      rw [← h]
      have hlt : r.expectedView < r'.expectedView := UInt64.lt_of_le_of_ne hle heq
      rw [UInt64.le_iff_toNat_le, UInt64.toNat_add, UInt64.toNat_one]
      rw [UInt64.lt_iff_toNat_lt] at hlt
      omega

/-- Only messages for the expected view are applied. -/
theorem Transition.attempted_cases {order : List Request} {m : Message}
    (h : Transition p order m r r') : r'.attempted = r.attempted ∨
      ∃ a, r'.attempted = r.attempted ++ [a] ∧ a.message.messageView = some r.expectedView := by
  cases h with
  | failed happ => exact .inr ⟨_, rfl, happ.messageView⟩
  | applied happ => exact .inr ⟨_, rfl, happ.messageView⟩
  | _ => exact .inl rfl

theorem Moves.attempted_cases (h : Moves p r r') : r'.attempted = r.attempted ∨
    ∃ a, r'.attempted = r.attempted ++ [a] ∧ a.message.messageView = some r.expectedView := by
  cases h with
  | same => exact .inl rfl
  | timeout view =>
      rw [attempted_requestViewChange]
      exact .inl rfl
  | process _ htrans => exact htrans.attempted_cases

end Replica

namespace Node

variable {p : Params} {s s' : Node} {vc : ViewChange} {i : ℕ} {C : Replica → Message → Prop}

def Later (p : Params) : Node → Node → Prop :=
  Relation.ReflTransGen fun s s' => ∃ l, s.step p l = some s'

theorem Linked.moves {l : Label} (h : Linked p s) (hstep : Stepped p s l s') :
    Replica.Moves p s.replica s'.replica := by
  rcases hstep.replica_cases with heq | ⟨view, -, heq⟩ | ⟨m, order, hproc, heq, -⟩
  · exact heq ▸ .same
  · exact heq ▸ .timeout _
  · exact heq ▸ .process (h.admits hproc) (Replica.processMessage_transition _ _)

theorem Reachable.later (h : s.Reachable p fun _ _ => True) (hlater : Later p s s') :
    s'.Reachable p fun _ _ => True := by
  induction hlater with
  | refl => exact h
  | tail _ hstep ih =>
      obtain ⟨l, hstep⟩ := hstep
      exact .step ih hstep fun _ _ => trivial

/-- How far a goroutine has got with a ViewChange: every request in the certificate has been
gathered or is still to be handled. -/
inductive Progress (p : Params) (vc : ViewChange) (r : Replica) (t : Thread) : Prop where
  | failed (hfailed : t.failed ≠ none)
  | waiting (htasks : t.tasks = [.handle (.certified (.viewChange vc))])
  | working (hvalid : Valid p.crypto p.config (.certified (.viewChange vc)))
      (hcert : ∀ rvc ∈ vc.viewChangeCert, r.Gathered vc.newView rvc.replicaID ∨
        .handle (.reqViewChange rvc) ∈ t.tasks ∨ .process (.reqViewChange rvc) ∈ t.tasks)

theorem Progress.step {t t' : Thread} (h : Progress p vc s.replica t)
    (hid : p.id < p.config.n) (htol : p.config.Tolerant) (hrun : s.replica.Run p C)
    (hmoves : Replica.Moves p s.replica s'.replica) (hnear : s.replica.Near vc.newView)
    (hcont : Continued p s s' t t') : Progress p vc s'.replica t' := by
  cases h with
  | failed hfailed =>
      refine .failed ?_
      cases hcont with
      | failed e => exact Option.some_ne_none e
      | _ => exact hfailed
  | waiting htasks =>
      cases hcont with
      | same => exact .waiting htasks
      | failed e => exact .failed (Option.some_ne_none e)
      | expanded htasks' hvalid =>
          rw [htasks] at htasks'
          cases htasks'
          refine .working hvalid fun rvc hrvc => .inr (.inl ?_)
          refine List.mem_append_left _ (List.mem_append_left _ (List.mem_map_of_mem ?_))
          exact List.mem_append_left _ (List.mem_map_of_mem hrvc)
      | processed htasks' =>
          rw [htasks] at htasks'
          cases htasks'
  | working hvalid hcert =>
      cases hcont with
      | same =>
          exact .working hvalid fun rvc hrvc =>
            (hcert rvc hrvc).imp_left (hmoves.gathered hid htol hrun)
      | failed e => exact .failed (Option.some_ne_none e)
      | @expanded m tasks htasks _ =>
          refine .working hvalid fun rvc hrvc => ?_
          rcases hcert rvc hrvc with hg | hh | hp
          · exact .inl (hmoves.gathered hid htol hrun hg)
          · rw [htasks] at hh
            rcases List.mem_cons.mp hh with heq | hh
            · cases heq
              exact .inr (.inr (List.mem_append_left _ (List.mem_append_right _
                List.mem_cons_self)))
            · exact .inr (.inl (List.mem_append_right _ hh))
          · rw [htasks] at hp
            rcases List.mem_cons.mp hp with heq | hp
            · cases heq
            · exact .inr (.inr (List.mem_append_right _ hp))
      | @processed m tasks order htasks hreplica =>
          refine .working hvalid fun rvc hrvc => ?_
          rcases hcert rvc hrvc with hg | hh | hp
          · exact .inl (hmoves.gathered hid htol hrun hg)
          · rw [htasks] at hh
            rcases List.mem_cons.mp hh with heq | hh
            · cases heq
            · exact .inr (.inl hh)
          · rw [htasks] at hp
            rcases List.mem_cons.mp hp with heq | hp
            · cases heq
              obtain ⟨hpos, hvc, -⟩ := hvalid.viewChange
              have hview := (validateViewChangeCert_eq_ok.mp hvc).2.1 rvc hrvc
              refine .inl ?_
              rw [hreplica]
              exact (hrun.collecting hid htol).gathered (hview ▸ hpos) hview hnear
                (Replica.processMessage_transition _ _)
            · exact .inr (.inr hp)

/-- A goroutine that starts on a ViewChange for at most the next view keeps making progress. -/
theorem progress_of_later {t : Thread} (hid : p.id < p.config.n) (htol : p.config.Tolerant)
    (h : s.Reachable p fun _ _ => True) (ht : s.threads[i]? = some t)
    (htasks : t.tasks = [.handle (.certified (.viewChange vc))])
    (hnear : s.replica.Near vc.newView) (hlater : Later p s s') :
    s'.replica.Near vc.newView ∧
      ∃ t', s'.threads[i]? = some t' ∧ Progress p vc s'.replica t' := by
  induction hlater with
  | refl => exact ⟨hnear, t, ht, .waiting htasks⟩
  | tail hlater hstep ih =>
      obtain ⟨l, hstep⟩ := hstep
      obtain ⟨hnear, u, hu, hprogress⟩ := ih
      obtain ⟨hrun, hlinked⟩ := (h.later hlater).linked
      obtain ⟨-, hstepped, -⟩ := step_cases hstep
      have hmoves := hlinked.moves hstepped
      obtain ⟨u', hu', hcont⟩ := hstepped.thread_cases hu
      exact ⟨hnear.mono hmoves.expectedView_le, u', hu',
        hprogress.step hid htol hrun hmoves hnear hcont⟩

/-- From a state on in which a view is expected, nothing for an earlier view is applied. -/
theorem attempted_of_later {v : UInt64} (h : s.Reachable p fun _ _ => True)
    (hv : v ≤ s.replica.expectedView) (hlater : Later p s s') :
    v ≤ s'.replica.expectedView ∧ ∃ new, s'.replica.attempted = s.replica.attempted ++ new ∧
      ∀ a ∈ new, ∃ w, a.message.messageView = some w ∧ v ≤ w := by
  induction hlater with
  | refl => exact ⟨hv, [], (List.append_nil _).symm, fun _ ha => absurd ha List.not_mem_nil⟩
  | tail hlater hstep ih =>
      obtain ⟨l, hstep⟩ := hstep
      obtain ⟨hv, new, hnew, hall⟩ := ih
      obtain ⟨-, hstepped, -⟩ := step_cases hstep
      have hmoves := (h.later hlater).linked.2.moves hstepped
      refine ⟨UInt64.le_trans hv hmoves.expectedView_le, ?_⟩
      rcases hmoves.attempted_cases with heq | ⟨a, heq, hview⟩
      · exact ⟨new, heq.trans hnew, hall⟩
      · refine ⟨new ++ [a], by rw [heq, hnew, List.append_assoc], fun x hx => ?_⟩
        rcases List.mem_append.mp hx with hx | hx
        · exact hall x hx
        · cases List.mem_singleton.mp hx
          exact ⟨_, hview, hv⟩

/-- A goroutine handles a ViewChange between the two states, and returns no error. -/
structure Handles (p : Params) (i : ℕ) (vc : ViewChange) (s s' : Node) : Prop where
  later : Later p s s'
  start : ∃ t, s.threads[i]? = some t ∧ t.tasks = [.handle (.certified (.viewChange vc))]
  done : ∃ t, s'.threads[i]? = some t ∧ t.tasks = [] ∧ t.failed = none

/-- Handling a ViewChange for at most the next view leaves the replica expecting that view, and
nothing for an earlier view is applied from then on. -/
theorem expectedView_of_viewChange {s s₁ s₂ : Node} (hid : p.id < p.config.n)
    (htol : p.config.Tolerant) (h : s.Reachable p fun _ _ => True)
    (hnear : vc.newView.toNat ≤ s.replica.expectedView.toNat + 1)
    (hhandles : Handles p i vc s s₁) (hlater : Later p s₁ s₂) :
    vc.newView ≤ s₁.replica.expectedView ∧
      ∃ new, s₂.replica.attempted = s₁.replica.attempted ++ new ∧
        ∀ a ∈ new, ∃ w, a.message.messageView = some w ∧ vc.newView ≤ w := by
  obtain ⟨hlater₁, ⟨t, ht, htasks⟩, t₁, ht₁, hdone, hok⟩ := hhandles
  suffices hle : vc.newView ≤ s₁.replica.expectedView from
    ⟨hle, (attempted_of_later (h.later hlater₁) hle hlater).2⟩
  by_cases hpos : 1 ≤ vc.newView
  · obtain ⟨-, t', ht', hprogress⟩ := progress_of_later hid htol h ht htasks
      ((Replica.near_iff hpos).mpr hnear) hlater₁
    cases ht'.symm.trans ht₁
    cases hprogress with
    | failed hfailed => exact absurd hok hfailed
    | waiting htasks =>
        rw [hdone] at htasks
        cases htasks
    | working hvalid hcert =>
        obtain ⟨hlen, -, hnodup⟩ := validateViewChangeCert_eq_ok.mp hvalid.viewChange.2.1
        refine ((h.later hlater₁).run.collecting hid htol).le_of_gathered hlen hnodup ?_
        intro rvc hrvc
        rw [hdone] at hcert
        simpa using hcert rvc hrvc
  · rw [UInt64.not_le, UInt64.lt_iff_toNat_lt, UInt64.toNat_one] at hpos
    rw [UInt64.le_iff_toNat_le]
    omega

end Node

namespace System

variable {net : Network}

theorem later_of_exec {cond : UInt32 → Replica → Message → Bool} {sys sys' : System}
    {ls : List (UInt32 × Label)} (h : sys.exec net cond ls = some sys') (j : UInt32) :
    Node.Later (net.params j) (sys.nodes j) (sys'.nodes j) := by
  induction ls generalizing sys with
  | nil =>
      cases h
      exact .refl
  | cons l ls ih =>
      rw [exec] at h
      split_ifs at h
      obtain ⟨sys₁, hstep, h⟩ := Option.bind_eq_some_iff.mp h
      obtain ⟨-, -, s, hs, hnodes⟩ := step_cases hstep
      have hlater := ih h
      rw [hnodes] at hlater
      by_cases hj : j = l.1
      · subst hj
        rw [Function.update_self] at hlater
        exact .head ⟨_, hs⟩ hlater
      · rwa [Function.update_of_ne hj] at hlater

/-- An execution found to deliver a ViewChange to a replica and to handle it to the end. -/
theorem exists_handles {vc : ViewChange} {j : UInt32} {P : System → Bool}
    {before after : List (UInt32 × Label)}
    (h : ((System.init net).exec net (fun _ _ _ => true) before).any (fun sys =>
      (sys.step net j (.receive (.certified (.viewChange vc)))).any fun sys₁ =>
        (sys₁.exec net (fun _ _ _ => true) after).any fun sys₂ =>
          (sys₂.nodes j).threads[(sys.nodes j).threads.length]?.any
            (fun t => t.tasks.isEmpty && t.failed.isNone) && P sys₂) = true) :
    ∃ sys sys', Reachable net (fun _ _ _ => True) sys ∧ Reachable net (fun _ _ _ => True) sys' ∧
      ∃ i, Node.Handles (net.params j) i vc (sys.nodes j) (sys'.nodes j) ∧ P sys' = true := by
  obtain ⟨sys, hbefore, h⟩ := (Option.any_eq_true _ _).mp h
  obtain ⟨sys₁, hstep, h⟩ := (Option.any_eq_true _ _).mp h
  obtain ⟨sys₂, hafter, h⟩ := (Option.any_eq_true _ _).mp h
  rw [Bool.and_eq_true] at h
  obtain ⟨t, ht, hdone⟩ := (Option.any_eq_true _ _).mp h.1
  rw [Bool.and_eq_true, List.isEmpty_iff, Option.isNone_iff_eq_none] at hdone
  have hreach : Reachable net (fun _ _ _ => True) sys₁ :=
    .step (reachable_of_exec (fun _ _ _ _ => trivial) .init hbefore) hstep fun _ _ => trivial
  obtain ⟨-, -, s, hs, hnodes⟩ := step_cases hstep
  obtain ⟨-, hstepped, -⟩ := Node.step_cases hs
  refine ⟨sys₁, sys₂, hreach, reachable_of_exec (fun _ _ _ _ => trivial) hreach hafter, _,
    ⟨later_of_exec hafter j, ?_, t, ht, hdone⟩, h.2⟩
  rw [hnodes, Function.update_self]
  cases hstepped with
  | received => exact ⟨_, List.getElem?_concat_length, rfl⟩

end System

namespace Concrete

def finishing (vc : ViewChange) : List (UInt32 × Label) :=
  List.replicate (2 * (Message.certified (.viewChange vc)).nested.length) (1, .run 0 [])

theorem expectedView_of_first_viewChange : ∃ sys sys' : System,
    System.Reachable laggingNetwork (fun _ _ _ => True) sys' ∧
      (∃ i, Node.Handles (laggingNetwork.params 1) i aheadViewChange (sys.nodes 1)
        (sys'.nodes 1)) ∧
      aheadViewChange.newView ≤ (sys'.nodes 1).replica.expectedView := by
  obtain ⟨sys, sys', hreach, hreach', i, hhandles, -⟩ :=
    @System.exists_handles laggingNetwork aheadViewChange 1 (fun _ => true) ahead
      (finishing aheadViewChange) (by decide +kernel)
  have hnear : aheadViewChange.newView.toNat ≤ (sys.nodes 1).replica.expectedView.toNat + 1 :=
    Nat.le_add_left 1 _
  exact ⟨sys, sys', hreach', ⟨i, hhandles⟩, (Node.expectedView_of_viewChange
    (laggingNetwork_admissible.lt (by decide)) laggingNetwork_admissible.tolerant (hreach.node 1)
    hnear hhandles .refl).1⟩

theorem viewChange_two_views_ahead : laggingNetwork.Admissible ∧
    ∃ sys sys', System.Reachable laggingNetwork (fun _ _ _ => True) sys ∧
      System.Reachable laggingNetwork (fun _ _ _ => True) sys' ∧
      ∃ j ∈ laggingNetwork.correct, ∃ i vc, vc.replicaID ≠ j ∧
        Node.Handles (laggingNetwork.params j) i vc (sys.nodes j) (sys'.nodes j) ∧
        ¬ vc.newView ≤ (sys'.nodes j).replica.expectedView := by
  refine ⟨laggingNetwork_admissible, ?_⟩
  obtain ⟨sys, sys', hreach, hreach', i, hhandles, hlt⟩ :=
    @System.exists_handles laggingNetwork aheadViewChangeAgain 1
      (fun sys => decide ((sys.nodes 1).replica.expectedView < 2)) ahead
      (finishing aheadViewChangeAgain) (by decide +kernel)
  refine ⟨sys, sys', hreach, hreach', 1, by decide, i, aheadViewChangeAgain, by decide, hhandles,
    ?_⟩
  exact UInt64.not_le.mpr (of_decide_eq_true hlt)

end Concrete

end MinBFT
