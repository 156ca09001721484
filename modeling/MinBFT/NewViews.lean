import MinBFT.Determined
import MinBFT.OwnLog
import MinBFT.Views

/-!
# Announcing a new view

The collector of ViewChanges does not look for duplicates: it relies on every replica sending one
ViewChange for each view at most. The logs of the ViewChanges of a replica see to this, unless the
replica returns to a view it has left by announcing that view late: a NewView starts a log just as a
ViewChange does, and another ViewChange for a view already changed to can follow it.
-/

namespace MinBFT

namespace ViewChangeCollector

variable {p : Params} {c c' : ViewChangeCollector} {vc : ViewChange}

/-- The collected ViewChanges are for one view and from different replicas. -/
structure Holds (p : Params) (c : ViewChangeCollector) : Prop where
  own : ∀ x, c.own = some x → x.replicaID = p.id ∧ x.newView = c.view
  others : ∀ x ∈ c.others, x.replicaID ≠ p.id ∧ x.newView = c.view
  nodup : (c.others.map (·.replicaID)).Nodup

theorem holds_empty (view : UInt64) : Holds p ⟨view, none, []⟩ :=
  ⟨fun _ hx => (nomatch hx), fun _ hx => absurd hx List.not_mem_nil, List.nodup_nil⟩

theorem Holds.moveTo (h : Holds p c) (view : UInt64) : Holds p (c.moveTo view) := by
  unfold ViewChangeCollector.moveTo
  split_ifs
  · exact holds_empty view
  · exact h

theorem Holds.insert (h : Holds p c) (hview : vc.newView = c.view)
    (hnew : vc.replicaID ≠ p.id → vc.replicaID ∉ c.others.map (·.replicaID))
    (hinsert : c.insert p vc = some c') : Holds p c' := by
  unfold ViewChangeCollector.insert at hinsert
  split_ifs at hinsert with hown hroom
  · cases hinsert
    refine ⟨?_, h.others, h.nodup⟩
    rintro _ ⟨⟩
    exact ⟨hown, hview⟩
  · cases hinsert
    refine ⟨h.own, ?_, ?_⟩
    · intro x hx
      rcases List.mem_append.mp hx with hx | hx
      · exact h.others x hx
      · cases List.mem_singleton.mp hx
        exact ⟨hown, hview⟩
    · rw [List.map_append, List.map_singleton, ← List.concat_eq_append]
      exact h.nodup.concat (hnew hown)

def Admits (p : Params) (vc : ViewChange) (c : ViewChangeCollector) : Prop :=
  vc.replicaID ≠ p.id → ∀ x ∈ c.others, x.newView = vc.newView → x.replicaID ≠ vc.replicaID

theorem Holds.not_mem_moveTo (h : Holds p c) (hge : ¬ vc.newView < c.view)
    (hadmits : c.Admits p vc) (hne : vc.replicaID ≠ p.id) :
    vc.replicaID ∉ (c.moveTo vc.newView).others.map (·.replicaID) := by
  intro hmem
  obtain ⟨x, hx, heq⟩ := List.mem_map.mp hmem
  have hview := ((h.moveTo vc.newView).others x hx).2
  rw [moveTo_view hge] at hview
  refine hadmits hne x ?_ hview heq
  unfold ViewChangeCollector.moveTo at hx
  split_ifs at hx
  · exact absurd hx List.not_mem_nil
  · exact hx

theorem Holds.collect (h : Holds p c) (hadmits : c.Admits p vc) :
    Holds p (c.collect p vc).2.2 := by
  have hcases := @collect_cases p vc c
  generalize c.collect p vc = res at hcases
  cases hcases with
  | ignored => exact h
  | moved => exact h.moveTo _
  | inserted hge _ hinsert =>
      exact (h.moveTo _).insert (moveTo_view hge).symm (h.not_mem_moveTo hge hadmits) hinsert
  | completed => exact holds_empty _

/-- A certificate passes validation. -/
theorem Holds.validateNewViewCert (h : Holds p c) (hadmits : c.Admits p vc)
    {cert : List ViewChange} (hcert : (c.collect p vc).2.1 = some cert) :
    validateNewViewCert p.config p.id vc.newView cert = .ok () := by
  have hcases := @collect_cases p vc c
  generalize c.collect p vc = res at hcases hcert
  cases hcases with
  | @completed c' cert' hge _ hinsert hcert' =>
      cases hcert
      have h' := (h.moveTo _).insert (moveTo_view hge).symm
        (h.not_mem_moveTo hge hadmits) hinsert
      have hview : c'.view = vc.newView := (view_insert hinsert).trans (moveTo_view hge)
      obtain ⟨own, hown, rfl, hlen⟩ := complete_eq_some hcert'
      obtain ⟨hid, hownView⟩ := h'.own own hown
      refine validateNewViewCert_eq_ok.mpr ⟨by simpa using hlen, ?_, ?_, ?_⟩
      · intro x hx
        rw [← hview]
        rcases List.mem_cons.mp hx with rfl | hx
        · exact hownView
        · exact (h'.others x hx).2
      · rw [List.map_cons, List.nodup_cons, hid]
        refine ⟨fun hmem => ?_, h'.nodup⟩
        obtain ⟨x, hx, heq⟩ := List.mem_map.mp hmem
        exact (h'.others x hx).1 heq
      · rw [List.map_cons, hid]
        exact List.mem_cons_self
  | _ => cases hcert

end ViewChangeCollector

namespace Replica

variable {p : Params} {order : List Request} {s s' : Replica} {m : Message}

/-- A NewView of another replica that is next in sequence does not return to a view which that
replica has left. -/
def NoReturn (p : Params) (s : Replica) : Message → Prop
  | .certified (.newView nv) => nv.replicaID ≠ p.id → s.Next (.newView nv) →
      ∀ x ∈ s.processed, x.kind = .viewChange → x.replicaID = nv.replicaID →
        ∀ v ∈ x.startsView, v ≤ nv.newView
  | _ => True

instance (p : Params) (s : Replica) : (m : Message) → Decidable (s.NoReturn p m)
  | .certified (.newView nv) =>
      inferInstanceAs (Decidable (nv.replicaID ≠ p.id → s.Next (.newView nv) →
        ∀ x ∈ s.processed, x.kind = .viewChange → x.replicaID = nv.replicaID →
          ∀ v ∈ x.startsView, v ≤ nv.newView))
  | .certified (.prepare _) => .isTrue trivial
  | .certified (.commit _) => .isTrue trivial
  | .certified (.viewChange _) => .isTrue trivial
  | .hello _ => .isTrue trivial
  | .request _ => .isTrue trivial
  | .reply _ => .isTrue trivial
  | .reqViewChange _ => .isTrue trivial

/-- The ViewChanges processed from another replica lead to later and later views, and its NewViews
are not for views it has left. -/
structure Climbing (p : Params) (s : Replica) : Prop where
  viewChanges : ∀ a b, .viewChange a ∈ s.processed → .viewChange b ∈ s.processed →
    a.replicaID = b.replicaID → b.replicaID ≠ p.id → a.ui.counter < b.ui.counter →
    a.newView < b.newView
  newViews : ∀ a nv, .viewChange a ∈ s.processed → .newView nv ∈ s.processed →
    a.replicaID = nv.replicaID → nv.replicaID ≠ p.id → a.ui.counter < nv.ui.counter →
    a.newView ≤ nv.newView

/-- A ViewChange next in sequence leads further than all before it. -/
theorem Climbing.lt_of_next {vc a : ViewChange} (h : Climbing p s) (hist : History p s)
    (huniq : UniqueUI p.crypto) (hsound : HereditarilySound p.crypto (.certified (.viewChange vc)))
    (hemb : ∀ x ∈ vc.messageLog, .certified x ∈ s.handled) (hnext : s.Next (.viewChange vc))
    (ha : .viewChange a ∈ s.processed) (hid : a.replicaID = vc.replicaID)
    (hne : vc.replicaID ≠ p.id) : a.newView < vc.newView := by
  have hahandled := hist.processed _ ha
  have hvalid := (hist.wellFormed _ hahandled).self.2.1
  have hpos : a.ui.counter.toNat ≠ 0 := fun hz => hvalid.1 (UInt64.toNat_inj.mp hz)
  have hlt : a.ui.counter.toNat < vc.ui.counter.toNat := by
    have hle := UInt64.le_iff_toNat_le.mp (hist.certified _ hahandled)
    have hsucc := (UInt64.eq_add_one_iff hsound.uiValid.1).mp hnext
    simp only [CertifiedMessage.counter_viewChange, CertifiedMessage.replicaID_viewChange,
      hid] at hle hsucc
    omega
  obtain ⟨hempty, hback⟩ := hsound.validLog
  obtain ⟨hlen, hmap⟩ := hsound.log_counters
  have hpred : (vc.newView - 1).toNat + 1 = vc.newView.toNat :=
    UInt64.toNat_sub_one_add_one (UInt64.le_iff_toNat_le.mp hsound.self.2.1)
  rw [UInt64.lt_iff_toNat_lt]
  cases hlog : vc.messageLog with
  | nil =>
      have hone := (hempty hlog).2
      rw [hone, UInt64.toNat_one] at hlt
      omega
  | cons x rest =>
      rw [hlog] at hback hmap
      rw [List.map_cons, List.length_cons, List.range'_succ, List.cons.injEq] at hmap
      by_cases hlow : x.counter.toNat ≤ a.ui.counter.toNat
      · -- the earlier ViewChange is in the log, and only the first entry there can start a view
        obtain ⟨y, hy, hsame⟩ := exists_mem_messageLog huniq hsound hvalid hid
          (by rw [hlog, List.length_cons, ← hmap.1]; exact hlow) hlt
        have hstarts : y.startsView = some a.newView := hsame.startsView.symm
        rw [hlog] at hy
        rcases List.mem_cons.mp hy with rfl | hy
        · rcases hback.head with hhead | ⟨hhead, -⟩
          · rw [hhead] at hstarts
            rw [Option.some.inj hstarts] at hpred
            omega
          · rw [hhead] at hstarts
            cases hstarts
        · rw [hback.startsView_of_mem_tail hy] at hstarts
          cases hstarts
      · -- it comes before the log, whose first entry starts the view before
        rcases hback.head with hhead | ⟨-, -, hone⟩
        · obtain ⟨y, hy, hsame⟩ := hist.exists_sameAuthen huniq
            (hemb x (hlog ▸ List.mem_cons_self))
          have hyid : y.replicaID = vc.replicaID := by
            rw [hsame.replicaID, hback.replicaID_eq List.mem_cons_self]
          have hyne : y.replicaID ≠ p.id := hyid ▸ hne
          have hycv : a.ui.counter < y.counter := by
            rw [hsame.counter, UInt64.lt_iff_toNat_lt]
            omega
          have hstarts := hsame.startsView.trans hhead
          cases y with
          | viewChange b =>
              have hab := h.viewChanges a b ha hy (hid.trans hyid.symm) hyne hycv
              rw [UInt64.lt_iff_toNat_lt, show b.newView = _ from Option.some.inj hstarts] at hab
              omega
          | newView nv =>
              have hab := h.newViews a nv ha hy (hid.trans hyid.symm) hyne hycv
              rw [UInt64.le_iff_toNat_le, show nv.newView = _ from Option.some.inj hstarts] at hab
              omega
          | _ => cases hstarts
        · rw [hone, UInt64.toNat_one] at hlow
          omega

theorem Climbing.transition (h : Climbing p s) (hist : History p s) (huniq : UniqueUI p.crypto)
    (hsound : HereditarilySound p.crypto m) (hadmits : s.Admits p m) (hc : s.NoReturn p m)
    (htrans : Transition p order m s s') : Climbing p s' := by
  rcases htrans.lastUI_cases with ⟨-, hproc⟩ | ⟨c, rfl, hnext, -, -, hproc⟩
  · exact ⟨hproc ▸ h.viewChanges, hproc ▸ h.newViews⟩
  · -- nothing processed before has a counter above that of the new message
    have hold : ∀ x ∈ s.processed, x.replicaID = c.replicaID → ¬ c.counter < x.counter := by
      intro x hx hid hlt
      have hle := UInt64.le_iff_toNat_le.mp (hist.certified x (hist.processed x hx))
      have hsucc := (UInt64.eq_add_one_iff hsound.uiValid.1).mp hnext
      rw [UInt64.lt_iff_toNat_lt] at hlt
      rw [hid] at hle
      omega
    have hmem : ∀ x ∈ s'.processed, x ∈ s.processed ∨ x = c := by
      intro x hx
      rw [hproc] at hx
      simpa using hx
    refine ⟨?_, ?_⟩
    · intro a b ha hb hid hne hlt
      rcases hmem _ ha with ha | rfl
      · rcases hmem _ hb with hb | rfl
        · exact h.viewChanges a b ha hb hid hne hlt
        · exact h.lt_of_next hist huniq hsound (fun x hx => hadmits.embedded _
            (List.mem_append_right _ (List.mem_map_of_mem hx))) hnext ha hid hne
      · rcases hmem _ hb with hb | heq
        · exact absurd hlt (hold _ hb hid.symm)
        · cases heq
          exact absurd hlt (UInt64.lt_irrefl _)
    · intro a nv ha hnv hid hne hlt
      rcases hmem _ ha with ha | rfl
      · rcases hmem _ hnv with hnv | rfl
        · exact h.newViews a nv ha hnv hid hne hlt
        · exact hc hne hnext _ ha rfl hid _ rfl
      · rcases hmem _ hnv with hnv | heq
        · exact absurd hlt (hold _ hnv hid.symm)
        · cases heq

structure Gathering (p : Params) (s : Replica) : Prop where
  climbing : Climbing p s
  holds : s.viewChanges.Holds p
  processed : ∀ x ∈ s.viewChanges.members, .viewChange x ∈ s.processed

theorem Gathering.admits {vc : ViewChange} (h : Gathering p s) (hist : History p s)
    (huniq : UniqueUI p.crypto) (hsound : HereditarilySound p.crypto (.certified (.viewChange vc)))
    (hadmits : s.Admits p (.certified (.viewChange vc))) (hnext : s.Next (.viewChange vc)) :
    s.viewChanges.Admits p vc := by
  intro hne x hx hview hid
  have hlt := h.climbing.lt_of_next hist huniq hsound (fun y hy => hadmits.embedded _
    (List.mem_append_right _ (List.mem_map_of_mem hy))) hnext
    (h.processed x (List.mem_append_right _ hx)) hid hne
  exact absurd hlt (hview ▸ UInt64.lt_irrefl _)

theorem Gathering.collectViewChange {vc : ViewChange} (h : Gathering p s)
    (hadmits : s.viewChanges.Admits p vc) :
    (s.collectViewChange p vc).viewChanges.Holds p ∧
      ∀ x ∈ (s.collectViewChange p vc).viewChanges.members,
        .viewChange x ∈ s.processed ++ [.viewChange vc] := by
  refine ⟨h.holds.collect hadmits, fun x hx => ?_⟩
  rcases ViewChangeCollector.mem_of_mem_collect hx with rfl | hx
  · exact List.mem_append_right _ List.mem_cons_self
  · exact List.mem_append_left _ (h.processed x hx)

theorem Gathering.transition (h : Gathering p s) (hist : History p s) (huniq : UniqueUI p.crypto)
    (hsound : HereditarilySound p.crypto m) (hadmits : s.Admits p m) (hc : s.NoReturn p m)
    (htrans : Transition p order m s s') : Gathering p s' := by
  have hclimbing := h.climbing.transition hist huniq hsound hadmits hc htrans
  cases htrans with
  | viewChange hnext =>
      obtain ⟨hholds, hprocessed⟩ :=
        h.collectViewChange (h.admits hist huniq hsound hadmits hnext)
      exact ⟨hclimbing, hholds, hprocessed⟩
  | newView hnext =>
      obtain ⟨hholds, hprocessed⟩ :=
        h.collectViewChange (h.admits hist huniq hsound hadmits hnext)
      exact ⟨hclimbing, hholds, hprocessed⟩
  | dropped => exact ⟨hclimbing, h.holds, fun x hx => List.mem_append_left _ (h.processed x hx)⟩
  | skipped => exact ⟨hclimbing, h.holds, fun x hx => List.mem_append_left _ (h.processed x hx)⟩
  | applied => exact ⟨hclimbing, h.holds, fun x hx => List.mem_append_left _ (h.processed x hx)⟩
  | _ => exact ⟨hclimbing, h.holds, h.processed⟩

theorem Run.gathering (hid : p.id < p.config.n) (htol : p.config.Tolerant)
    (huniq : UniqueUI p.crypto) (h : s.Run p (NoReturn p)) : Gathering p s := by
  induction h with
  | init =>
      refine ⟨⟨?_, ?_⟩, ViewChangeCollector.holds_empty 0, fun _ hx => absurd hx List.not_mem_nil⟩
      · exact fun _ _ ha => absurd ha List.not_mem_nil
      · exact fun _ _ ha => absurd ha List.not_mem_nil
  | process hrun hadmits hc htrans _ ih =>
      exact ih.transition (hrun.history hid) huniq (hrun.sound hid htol hadmits) hadmits hc htrans
  | timeout _ _ _ ih =>
      unfold requestViewChange
      split_ifs <;> exact ⟨⟨ih.climbing.viewChanges, ih.climbing.newViews⟩, ih.holds, ih.processed⟩

theorem Run.validateNewView_made {nv : NewView} (hid : p.id < p.config.n)
    (htol : p.config.Tolerant) (huniq : UniqueUI p.crypto) (h : s.Run p (NoReturn p))
    (hadmits : s.Admits p m) (hmade : Made p s m (.certified (.newView nv))) :
    validateNewView p.config nv = .ok () := by
  cases hmade with
  | newView hnext hcert =>
      have hgathering := h.gathering hid htol huniq
      have hcol := hgathering.admits (h.history hid) huniq (h.sound hid htol hadmits) hadmits hnext
      exact validateNewView_eq_ok.mpr ⟨(h.admitted hid hadmits).self.2.2,
        ViewChangeCollector.isPrimary_of_cert hcert,
        hgathering.holds.validateNewViewCert hcol hcert⟩

/-- Every NewView a replica generates passes validation. -/
theorem Run.validateNewView_generated (hid : p.id < p.config.n) (htol : p.config.Tolerant)
    (huniq : UniqueUI p.crypto) (h : s.Run p (NoReturn p)) :
    ∀ nv, .certified (.newView nv) ∈ s.output.generated → validateNewView p.config nv = .ok () := by
  induction h with
  | init => exact fun _ hnv => absurd hnv List.not_mem_nil
  | @process s s' m order hrun hadmits _ htrans _ ih =>
      intro nv hnv
      rcases htrans.generated_cases hnv with hold | hmade
      · exact ih nv hold
      · exact hrun.validateNewView_made hid htol huniq hadmits hmade
  | @timeout s view _ _ _ ih =>
      intro nv hnv
      refine ih nv ?_
      unfold requestViewChange at hnv
      split_ifs at hnv
      · exact hnv
      · exact hnv
      · simpa [Output.generateReqViewChange, Output.append] using hnv

end Replica

/-- As long as no replica returns to a view it has left, every NewView of a correct replica is
acceptable to all correct replicas. -/
theorem System.validateNewView_of_noReturn {net : Network} {sys : System} {i : UInt32}
    {nv : NewView} (hnet : net.Admissible)
    (h : System.Reachable net (fun i => Replica.NoReturn (net.params i)) sys)
    (hi : i ∈ net.correct)
    (hnv : .certified (.newView nv) ∈ (sys.nodes i).replica.output.generated) :
    validateNewView net.config nv = .ok () :=
  (h.node i).run.validateNewView_generated (hnet.lt hi) hnet.tolerant hnet.uniqueUI nv hnv

namespace Concrete

def announced (config : Config) (ok : Bool) (generated : List Message) : Bool :=
  generated.any fun
    | .certified (.newView nv) => (validateNewView config nv).isOk == ok
    | _ => false

theorem exists_of_announced {config : Config} {ok : Bool} {generated : List Message}
    (h : announced config ok generated = true) :
    ∃ nv, .certified (.newView nv) ∈ generated ∧ (validateNewView config nv).isOk = ok := by
  obtain ⟨g, hg, hok⟩ := List.any_eq_true.mp h
  split at hok
  · exact ⟨_, hg, beq_iff_eq.mp hok⟩
  · cases hok

theorem validateNewView_of_ahead : ∃ sys nv,
    System.Reachable laggingNetwork (fun i => Replica.NoReturn (laggingNetwork.params i)) sys ∧
      .certified (.newView nv) ∈ (sys.nodes 0).replica.output.generated ∧
      validateNewView laggingNetwork.config nv = .ok () := by
  have h : ((System.init laggingNetwork).exec laggingNetwork
      (fun i r m => decide (r.NoReturn (laggingNetwork.params i) m)) (ahead ++
        (ownHandling (.certified (.viewChange aheadViewChangeAgain))).map (0, ·))).any
      (fun sys => announced laggingNetwork.config true
        (sys.nodes 0).replica.output.generated) = true := by
    decide +kernel
  obtain ⟨sys, hreach, hsys⟩ := System.exists_reachable (fun _ _ _ => of_decide_eq_true) h
  obtain ⟨nv, hnv, -⟩ := exists_of_announced hsys
  exact ⟨sys, nv, hreach, hnv, System.validateNewView_of_noReturn laggingNetwork_admissible hreach
    (by decide) hnv⟩

/-- Replica 1 changes to the next two views, and then announces the first of them. -/
def returningViewChange : ViewChange := viewChange 1 1 [] [1, 2, 3] 1

def returningViewChangeAgain : ViewChange :=
  viewChange 1 2 [.viewChange returningViewChange] [1, 2, 3] 2

def otherViewChange : ViewChange := viewChange 3 1 [] [1, 2, 3] 1

def collectorViewChange : ViewChange := viewChange 2 1 [] [2, 1, 3] 1

def collectorViewChangeAgain : ViewChange :=
  viewChange 2 2 [.viewChange collectorViewChange] [2, 1, 3] 2

def returningNewView : NewView :=
  newView 1 1 [returningViewChange, otherViewChange, collectorViewChange] 3

/-- This makes another ViewChange for the second view valid. -/
def returningViewChangeTwice : ViewChange :=
  viewChange 1 2 [.newView returningNewView] [1, 2, 3] 4

def collectorNewView : NewView :=
  newView 2 2 [collectorViewChangeAgain, returningViewChangeAgain, returningViewChangeTwice] 3

def returningNetwork : Network :=
  ⟨⟨5, 2⟩, ledgerCrypto [.viewChange returningViewChange, .viewChange returningViewChangeAgain,
    .newView returningNewView, .viewChange returningViewChangeTwice, .viewChange otherViewChange,
    .viewChange collectorViewChange, .viewChange collectorViewChangeAgain,
    .newView collectorNewView], {0, 2, 4}⟩

theorem returningNetwork_admissible : returningNetwork.Admissible where
  tolerant := by
    unfold Config.Tolerant
    decide
  sha256 := injective_sha256_ledgerCrypto _
  uniqueUI := uniqueUI_ledgerCrypto (by decide +kernel)
  replicas := by decide +kernel
  faulty := by decide +kernel

/-- Replica 2 asks for both view changes together with the faulty replicas 1 and 3, and then
receives everything from replica 1 in order. -/
def returning : List (UInt32 × Label) :=
  (handling 0 (.request (request 0 1)) ++ [Label.timeout 0] ++
    ownHandling (.reqViewChange (reqViewChange 2 1)) ++
    handling 1 (.reqViewChange (reqViewChange 1 1)) ++
    handling 2 (.reqViewChange (reqViewChange 3 1)) ++
    ownHandling (.certified (.viewChange collectorViewChange)) ++
    [Label.timeout 1] ++ ownHandling (.reqViewChange (reqViewChange 2 2)) ++
    handling 3 (.reqViewChange (reqViewChange 1 2)) ++
    handling 4 (.reqViewChange (reqViewChange 3 2)) ++
    handling 5 (.certified (.viewChange returningViewChange)) ++
    handling 6 (.certified (.viewChange returningViewChangeAgain)) ++
    handling 7 (.certified (.newView returningNewView)) ++
    handling 8 (.certified (.viewChange returningViewChangeTwice)) ++
    ownHandling (.certified (.viewChange collectorViewChangeAgain))).map (2, ·)

theorem newView_with_duplicate : returningNetwork.Admissible ∧
    ∃ sys, System.Reachable returningNetwork (fun _ _ _ => True) sys ∧
      ∃ i ∈ returningNetwork.correct, ∃ nv,
        .certified (.newView nv) ∈ (sys.nodes i).replica.output.generated ∧
          validateNewView returningNetwork.config nv ≠ .ok () := by
  refine ⟨returningNetwork_admissible, ?_⟩
  have h : ((System.init returningNetwork).exec returningNetwork (fun _ _ _ => true)
      returning).any (fun sys => announced returningNetwork.config false
        (sys.nodes 2).replica.output.generated) = true := by
    decide +kernel
  obtain ⟨sys, hreach, hsys⟩ := System.exists_reachable (fun _ _ _ _ => trivial) h
  obtain ⟨nv, hnv, hbad⟩ := exists_of_announced hsys
  refine ⟨sys, hreach, 2, by decide, nv, hnv, fun hok => ?_⟩
  rw [hok] at hbad
  cases hbad

end Concrete

end MinBFT
