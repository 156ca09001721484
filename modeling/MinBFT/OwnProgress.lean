import MinBFT.OwnStream
import MinBFT.Preparing

/-!
# Progress through its own messages

A replica processes what it has certified in order. In the section for the expected view its own
commitments are recorded as far as it has come, and the next one always fits.
-/

namespace MinBFT

section Sections

variable {p : Params} {v : UInt64} {l : List CertifiedMessage} {i k : ℕ} {g x : CertifiedMessage}

theorem Proposals.proposed (h : Proposals p v l) (hg : g ∈ l) :
    g.proposed = g ∧ g.kind = .prepare := by
  obtain ⟨q, rfl, -⟩ := h g hg
  exact ⟨rfl, rfl⟩

theorem CommitsFrom.proposed {cv : ℕ} (h : CommitsFrom p v cv l) (hg : l[i]? = some g) :
    g.proposed.kind = .prepare ∧ g.proposed.counter.toNat = cv + i + 1 := by
  obtain ⟨qs, rfl, -, hmap⟩ := h
  rw [List.getElem?_map] at hg
  obtain ⟨q, hq, rfl⟩ := Option.map_eq_some_iff.mp hg
  obtain ⟨hlt, -⟩ := List.getElem?_eq_some_iff.mp hq
  have hcv := congrArg (·[i]?) hmap
  simp only [List.getElem?_map, hq, Option.map_some, List.getElem?_range' hlt] at hcv
  refine ⟨rfl, (Option.some.inj hcv).trans ?_⟩
  omega

def Numbered (k : ℕ) (l : List CertifiedMessage) : Prop :=
  ∀ i g, l[i]? = some g → g.counter.toNat = k + i + 1

/-- The proposals committed to in a section follow each other. -/
theorem Section.proposed_succ (h : Section p v l) (hk : Numbered k l) (hx : l[i]? = some x)
    (hg : l[i + 1]? = some g) :
    g.proposed.kind = .prepare ∧ g.proposed.counter.toNat = x.proposed.counter.toNat + 1 := by
  have hself (hxp : x.proposed = x) (hgp : g.proposed = g ∧ g.kind = .prepare) :
      g.proposed.kind = .prepare ∧
        g.proposed.counter.toNat = x.proposed.counter.toNat + 1 := by
    rw [hgp.1, hxp, hk _ _ hg, hk _ _ hx]
    exact ⟨hgp.2, rfl⟩
  cases h with
  | proposals _ _ hl =>
      exact hself (hl.proposed (List.mem_of_getElem? hx)).1 (hl.proposed (List.mem_of_getElem? hg))
  | commits _ _ hl =>
      rw [(hl.proposed hg).2, (hl.proposed hx).2]
      exact ⟨(hl.proposed hg).1, rfl⟩
  | empty => cases hx
  | announced _ _ _ hl =>
      refine hself ?_ (hl.proposed (List.mem_of_getElem? (i := i) hg))
      cases i with
      | zero =>
          cases hx
          rfl
      | succ i => exact (hl.proposed (List.mem_of_getElem? (i := i) hx)).1
  | followed _ _ _ _ hl =>
      have hg := hl.proposed (i := i) hg
      refine ⟨hg.1, hg.2.trans ?_⟩
      cases i with
      | zero =>
          cases hx
          rfl
      | succ i =>
          rw [(hl.proposed (i := i) hx).2]
          rfl

/-- The initial view starts with the first proposal. -/
theorem Section.proposed_initial (h : Section p 0 l) (hk : Numbered 0 l) (hg : l[0]? = some g) :
    g.proposed.kind = .prepare ∧ g.proposed.counter.toNat = 1 := by
  cases h with
  | proposals _ _ hl =>
      have hgp := hl.proposed (List.mem_of_getElem? hg)
      rw [hgp.1]
      exact ⟨hgp.2, hk _ _ hg⟩
  | commits _ _ hl => exact hl.proposed hg
  | empty hv => exact absurd rfl hv
  | announced hv => exact absurd rfl hv
  | followed hv => exact absurd rfl hv

/-- Any other view starts with the NewView. -/
theorem Section.proposed_newView (h : Section p v l) (hv : v ≠ 0) (hg : l[0]? = some g) :
    g.proposed.kind = .newView := by
  cases h with
  | proposals hz => exact absurd hz hv
  | commits hz => exact absurd hz hv
  | empty => cases hg
  | announced =>
      cases hg
      rfl
  | followed =>
      cases hg
      rfl

theorem Opened.eq_nil {before : List CertifiedMessage} (h : Opened p v before) (hv : v = 0) :
    before = [] := by
  cases h with
  | initial => rfl
  | viewChange _ _ hlt =>
      rw [hv] at hlt
      exact absurd UInt64.zero_le (UInt64.not_le.mpr hlt)

end Sections

namespace Replica

variable {p : Params} {order : List Request} {C : Replica → Message → Prop} {s s' : Replica}
  {m : Message} {c g : CertifiedMessage} {before l before' l' : List CertifiedMessage} {i : ℕ}

theorem Divided.numbered (h : Divided p s before l) (hid : p.id < p.config.n) (hrun : s.Run p C) :
    Numbered before.length l := by
  intro i g hg
  refine hrun.counter_of_getElem? hid (i := before.length + i) ?_
  rw [h.output, List.getElem?_append_right (Nat.le_add_right _ _), Nat.add_sub_cancel_left]
  exact hg

/-- An own message that is next in sequence is where the replica is in its output. -/
theorem Divided.own (h : Divided p s before l) (hid : p.id < p.config.n) (hrun : s.Run p C)
    (hadmits : s.Admits p (.certified c)) (hown : c.replicaID = p.id) (hnext : s.Next c) :
    ∃ g, SameAuthen p.crypto.sha256 c g ∧
      ((s.lastUI p.id).toNat < before.length ∧ g ∈ before ∨
        ∃ i, (s.lastUI p.id).toNat = before.length + i ∧ l[i]? = some g) := by
  have hne := (hrun.admitted hid hadmits).self.2.1.1
  obtain ⟨g, hg, hcv, hbytes⟩ := hrun.ownGenerated hid hadmits hown
  refine ⟨g, ⟨CertifiedMessage.kind_eq_of_authenBytes_eq hbytes.symm,
    hown.trans (hrun.replicaID_generated hg).symm, hcv.symm, hbytes.symm⟩, ?_⟩
  obtain ⟨k, hk⟩ := List.getElem?_of_mem (Output.mem_certified.mpr hg)
  have hcounter := hrun.counter_of_getElem? hid hk
  have hlast := (UInt64.eq_add_one_iff hne).mp hnext
  rw [hown, ← hcv, hcounter] at hlast
  obtain rfl : k = (s.lastUI p.id).toNat := Nat.succ.inj hlast
  rw [h.output] at hk
  by_cases hlt : (s.lastUI p.id).toNat < before.length
  · rw [List.getElem?_append_left hlt] at hk
    exact .inl ⟨hlt, List.mem_of_getElem? hk⟩
  · have hle := Nat.not_lt.mp hlt
    rw [List.getElem?_append_right hle] at hk
    exact .inr ⟨_, (Nat.add_sub_of_le hle).symm, hk⟩

/-- What is for the expected view is in the section. -/
theorem Divided.own_current (h : Divided p s before l) (hid : p.id < p.config.n)
    (hsha : Function.Injective p.crypto.sha256) (hrun : s.Run p C)
    (hadmits : s.Admits p (.certified c)) (hown : c.replicaID = p.id) (happ : s.Applicable c) :
    ∃ g i, SameAuthen p.crypto.sha256 c g ∧ (s.lastUI p.id).toNat = before.length + i ∧
      l[i]? = some g := by
  obtain ⟨g, hsame, ⟨-, hg⟩ | ⟨i, hn, hg⟩⟩ := h.own hid hrun hadmits hown happ.next
  · have hlt := h.opened.messageView_lt hg ((hsame.messageView hsha).symm.trans happ.messageView)
    exact absurd hlt (UInt64.lt_irrefl _)
  · exact ⟨g, i, hsame, hn, hg⟩

/-- How far the replica has come with its own messages, and what is recorded of its own
commitments. -/
inductive Accounted (p : Params) (s : Replica) (before l : List CertifiedMessage) : Prop where
  | initial (hv : s.expectedView = 0) (hn : (s.lastUI p.id).toNat = 0)
      (hviews : s.execution.commitments.replicaViews p.id = 0)
      (hprimary : s.execution.commitments.lastPrimaryCVs p.id = 0)
      (hreplica : s.execution.commitments.lastReplicaCVs p.id = 0)
  | waiting (hv : s.expectedView ≠ 0) (hn : (s.lastUI p.id).toNat ≤ before.length)
      (hviews : s.execution.commitments.replicaViews p.id < s.expectedView)
      (hcur : isPrimary s.expectedView p.id p.config.n = true → s.currentView < s.expectedView)
  | current {i : ℕ} {x : CertifiedMessage} (hx : l[i]? = some x)
      (hn : (s.lastUI p.id).toNat = before.length + i + 1)
      (hviews : s.execution.commitments.replicaViews p.id = s.expectedView)
      (hprimary : s.execution.commitments.lastPrimaryCVs p.id = x.proposed.counter)
      (hreplica : s.execution.commitments.lastReplicaCVs p.id = s.lastUI p.id)

namespace Accounted

/-- The next own commitment for the expected view fits. -/
theorem fits (h : Accounted p s before l) (hdiv : Divided p s before l) (hid : p.id < p.config.n)
    (hsha : Function.Injective p.crypto.sha256) (hrun : s.Run p C)
    (hadmits : s.Admits p (.certified c)) (hown : c.replicaID = p.id) (happ : s.Applicable c) :
    s.execution.commitments.Fits c s.expectedView := by
  obtain ⟨g, i, hsame, hn, hg⟩ := hdiv.own_current hid hsha hrun hadmits hown happ
  have hprop := hsame.proposed
  have hnext : c.counter = s.lastUI p.id + 1 := hown ▸ happ.next
  have hne : c.proposed.counter ≠ 0 := (hrun.admitted hid hadmits).proposed_counter_ne
  have hnumbered := hdiv.numbered hid hrun
  rw [Commitments.Fits, hown, hprop.kind]
  cases h with
  | initial hv hzero hviews hprimary hreplica =>
      obtain ⟨hbefore, rfl⟩ : before.length = 0 ∧ i = 0 := by omega
      obtain ⟨hkind, hcv⟩ := (hv ▸ hdiv.current).proposed_initial (hbefore ▸ hnumbered) hg
      rw [hkind, if_neg (by decide)]
      refine ⟨hviews.trans hv.symm, (UInt64.eq_add_one_iff hne).mpr ?_, ?_⟩
      · rw [hprop.counter, hcv, hprimary]
        rfl
      · rw [hnext, hreplica]
        exact congrArg (· + 1) (UInt64.toNat_inj.mp hzero)
  | waiting hv hle hviews =>
      obtain rfl : i = 0 := by omega
      rw [if_pos (hdiv.current.proposed_newView hv hg)]
      exact hviews
  | @current i' x hx hlast hviews hprimary hreplica =>
      obtain rfl : i = i' + 1 := by omega
      obtain ⟨hkind, hcv⟩ := hdiv.current.proposed_succ hnumbered hx hg
      rw [hkind, if_neg (by decide)]
      refine ⟨hviews, (UInt64.eq_add_one_iff hne).mpr ?_, ?_⟩
      · rw [hprop.counter, hcv, hprimary]
      · rw [hnext, hreplica]

/-- Nothing of its own has been processed. -/
theorem keep (h : Accounted p s before l) (hl : l <+: l')
    (hexp : s'.expectedView = s.expectedView) (hlast : s'.lastUI p.id = s.lastUI p.id)
    (hcomm : s'.execution.commitments.replicaViews p.id =
        s.execution.commitments.replicaViews p.id ∧
      s'.execution.commitments.lastPrimaryCVs p.id =
        s.execution.commitments.lastPrimaryCVs p.id ∧
      s'.execution.commitments.lastReplicaCVs p.id =
        s.execution.commitments.lastReplicaCVs p.id)
    (hcur : isPrimary s.expectedView p.id p.config.n = true → s.currentView < s.expectedView →
      s'.currentView < s.expectedView) : Accounted p s' before l' := by
  obtain ⟨hviews', hprimary', hreplica'⟩ := hcomm
  cases h with
  | initial hv hn hviews hprimary hreplica =>
      exact .initial (hexp.trans hv) (hlast ▸ hn) (hviews'.trans hviews)
        (hprimary'.trans hprimary) (hreplica'.trans hreplica)
  | waiting hv hn hviews hlt =>
      refine .waiting (hexp ▸ hv) (hlast ▸ hn) ?_ fun hp => ?_
      · rw [hviews', hexp]
        exact hviews
      · rw [hexp] at hp ⊢
        exact hcur hp (hlt hp)
  | @current i x hx hn hviews hprimary hreplica =>
      obtain ⟨hlt, rfl⟩ := List.getElem?_eq_some_iff.mp hx
      refine .current (List.prefix_iff_getElem?.mp hl i hlt) (hlast ▸ hn) ?_
        (hprimary'.trans hprimary) ?_
      · rw [hviews', hexp]
        exact hviews
      · rw [hreplica', hlast]
        exact hreplica

/-- An own message that is not applied comes before the section. -/
theorem lt_of_skipped (h : Accounted p s before l) (hdiv : Divided p s before l)
    (hid : p.id < p.config.n) (hsha : Function.Injective p.crypto.sha256) (hrun : s.Run p C)
    (hadmits : s.Admits p (.certified c)) (hown : c.replicaID = p.id) (hnext : s.Next c)
    (hskip : c.messageView ≠ some s.expectedView ∨
      c.kind = .newView ∧ s.expectedView ≤ s.currentView) :
    (s.lastUI p.id).toNat < before.length := by
  obtain ⟨g, hsame, ⟨hlt, -⟩ | ⟨i, hn, hg⟩⟩ := hdiv.own hid hrun hadmits hown hnext
  · exact hlt
  · exfalso
    have hview := hdiv.current.messageView (List.mem_of_getElem? hg)
    rcases hskip with hne | ⟨hkind, hle⟩
    · exact hne ((hsame.messageView hsha).trans hview)
    · cases c with
      | newView nv =>
          have hnv : nv.newView = s.expectedView :=
            Option.some.inj ((hsame.messageView hsha).trans hview)
          have hwf := (hrun.admitted hid hadmits).self.2.2
          cases h with
          | initial hv =>
              have hone : 1 ≤ nv.newView := hwf.1
              rw [hnv, hv] at hone
              exact absurd hone (by decide)
          | waiting _ _ _ hcur =>
              have hprimary : isPrimary nv.newView nv.replicaID p.config.n = true := hwf.2
              rw [hnv, show nv.replicaID = p.id from hown] at hprimary
              exact absurd hle (UInt64.not_le.mpr (hcur hprimary))
          | @current i' x hx hlast =>
              -- there is only one NewView in the section, and it comes first
              obtain rfl : i = i' + 1 := by omega
              have hprop := (hdiv.current.proposed_succ (hdiv.numbered hid hrun) hx hg).1
              rw [← hsame.proposed.kind] at hprop
              cases hprop
      | _ => cases hkind

theorem skip (h : Accounted p s before l) (hlt : (s.lastUI p.id).toNat < before.length)
    (hexp : s'.expectedView = s.expectedView)
    (hlast : (s'.lastUI p.id).toNat = (s.lastUI p.id).toNat + 1)
    (hcomm : s'.execution.commitments = s.execution.commitments)
    (hopened : Opened p s.expectedView before)
    (hcur : isPrimary s.expectedView p.id p.config.n = true → s.currentView < s.expectedView →
      s'.currentView < s.expectedView) : Accounted p s' before l' := by
  cases h with
  | initial hv =>
      rw [hopened.eq_nil hv] at hlt
      cases hlt
  | waiting hv hn hviews hprim =>
      refine .waiting (hexp ▸ hv) (by omega) ?_ fun hp => ?_
      · rw [hcomm, hexp]
        exact hviews
      · rw [hexp] at hp ⊢
        exact hcur hp (hprim hp)
  | current _ hn => omega

/-- An own message is applied. -/
theorem record {done : Bool} (hn : (s.lastUI p.id).toNat = before.length + i)
    (hg : l[i]? = some g) (hl : l <+: l') (hsame : SameAuthen p.crypto.sha256 c g)
    (hown : c.replicaID = p.id) (hexp : s'.expectedView = s.expectedView)
    (hlast : s'.lastUI p.id = c.counter)
    (hnext : c.counter.toNat = (s.lastUI p.id).toNat + 1)
    (hrec : Commitments.Recorded c s.expectedView s.execution.commitments done
      s'.execution.commitments) : Accounted p s' before l' := by
  obtain ⟨hlt, rfl⟩ := List.getElem?_eq_some_iff.mp hg
  refine .current (List.prefix_iff_getElem?.mp hl i hlt) ?_ ?_ ?_ ?_
  · rw [hlast, hnext, hn]
  · rw [hrec.replicaViews, hown, Function.update_self, hexp]
  · rw [hrec.lastPrimaryCVs, hown, Function.update_self]
    exact hsame.proposed.counter
  · rw [hrec.lastReplicaCVs, hown, Function.update_self, hlast]

/-- The next section starts after all that has been certified. -/
theorem leave (h : Accounted p s before l) (hexp : s.expectedView < s'.expectedView)
    (hbefore : (before ++ l).length ≤ before'.length) (hlast : s'.lastUI p.id = s.lastUI p.id)
    (hviews : s'.execution.commitments.replicaViews p.id ≤ s.expectedView)
    (hcur : s'.currentView ≤ s.expectedView) : Accounted p s' before' l' := by
  rw [List.length_append] at hbefore
  refine .waiting (UInt64.ne_of_lt (UInt64.lt_of_le_of_lt UInt64.zero_le hexp)).symm ?_
    (UInt64.lt_of_le_of_lt hviews hexp) fun _ => UInt64.lt_of_le_of_lt hcur hexp
  rw [hlast]
  cases h with
  | initial _ hn => omega
  | waiting _ hn => omega
  | current hx hn =>
      have hlt := (List.getElem?_eq_some_iff.mp hx).1
      omega

theorem transition (h : Accounted p s before l) (hdiv : Divided p s before l)
    (hcont : Continues s s' before l before' l') (hid : p.id < p.config.n)
    (htol : p.config.Tolerant) (hsha : Function.Injective p.crypto.sha256) (hrun : s.Run p C)
    (hordered : Ordered s) (hc : s.Timely m) (hadmits : s.Admits p m)
    (hlive : ∀ q r, processMessage p order m s ≠ .error (.panic q) r)
    (htrans : Transition p order m s s') : Accounted p s' before' l' := by
  have ht := hrun.tracks hid htol
  cases hcont with
  | begun hexp hl hbefore =>
      cases htrans with
      | leftView _ hlt =>
          exact h.leave hexp hbefore rfl (UInt64.le_trans (ht.views p.id) ht.bound) hordered.le
      | _ => exact absurd hexp (UInt64.lt_irrefl _)
  | grown hexp hbefore hl =>
      subst hbefore
      have hsame (hlast : s'.lastUI = s.lastUI)
          (hcomm : s'.execution.commitments = s.execution.commitments)
          (hcur : s.currentView < s.expectedView → s'.currentView < s.expectedView) :
          Accounted p s' before' l' :=
        h.keep hl hexp (congrFun hlast p.id) (hcomm ▸ ⟨rfl, rfl, rfl⟩) fun _ => hcur
      -- a message that is processed without being applied
      have hpass {c : CertifiedMessage} (hadm : s.Admits p (.certified c)) (hnext : s.Next c)
          (hlast : s'.lastUI = Function.update s.lastUI c.replicaID c.counter)
          (hcomm : s'.execution.commitments = s.execution.commitments)
          (hskip : c.messageView ≠ some s.expectedView ∨
            c.kind = .newView ∧ s.expectedView ≤ s.currentView)
          (hcur : s.currentView < s.expectedView → s'.currentView < s.expectedView) :
          Accounted p s' before' l' := by
        by_cases hown : c.replicaID = p.id
        · have hne := (hrun.admitted hid hadm).self.2.1.1
          have hlt := h.lt_of_skipped hdiv hid hsha hrun hadm hown hnext hskip
          refine h.skip hlt hexp ?_ hcomm hdiv.opened fun _ => hcur
          rw [hlast, hown, Function.update_self, (UInt64.eq_add_one_iff hne).mp hnext, hown]
        · refine h.keep hl hexp ?_ (hcomm ▸ ⟨rfl, rfl, rfl⟩) fun _ => hcur
          rw [hlast, Function.update_of_ne (Ne.symm hown)]
      cases htrans with
      | viewChange hnext =>
          exact hpass hadmits hnext rfl rfl (.inl fun hview => nomatch hview) id
      | newView hnext =>
          exact hpass hadmits hnext rfl rfl (.inl fun hview => nomatch hview) id
      | @dropped c _ w hnext hview hle hdrop =>
          refine hpass hadmits hnext rfl rfl ?_ id
          by_cases hkind : c.kind = .newView
          · by_cases hw : w = s.expectedView
            · exact .inr ⟨hkind, hw ▸ hle⟩
            · exact .inl fun heq => hw (Option.some.inj (hview.symm.trans heq))
          · exact .inl fun heq => hdrop hkind (Option.some.inj (hview.symm.trans heq))
      | @skipped nv _ hnext hlt hne =>
          refine hpass hadmits hnext rfl rfl (.inl fun heq => hne (Option.some.inj heq)) fun _ => ?_
          exact UInt64.lt_of_le_of_ne (hc hnext) hne
      | @failed c _ e x happ htake =>
          have hno := ne_panic_of_live hlive happ htake
          refine hsame rfl ((Transition.taken happ htake).commitments_of_error hno) fun hlt => ?_
          cases c with
          | newView nv =>
              obtain ⟨q, rfl⟩ := (Transition.taken happ htake).panics_of_fits
                (happ.fits hordered.replicaViews) (by rintro q ⟨⟩)
              exact absurd rfl (hno q)
          | _ => exact hlt
      | @applied c _ x happ htake =>
          obtain ⟨done, hrecord⟩ := (Transition.taken happ htake).recorded
          have hrec := Commitments.recorded ht.bound hrecord
          have hwf := hrun.admitted hid hadmits
          by_cases hown : c.replicaID = p.id
          · obtain ⟨g, i, hauthen, hn, hg⟩ := hdiv.own_current hid hsha hrun hadmits hown happ
            refine record hn hg hl hauthen hown hexp ?_ ?_ hrec
            · exact hown ▸ Function.update_self ..
            · rw [(UInt64.eq_add_one_iff hwf.self.2.1.1).mp happ.next, hown]
          · have hne : p.id ≠ c.replicaID := Ne.symm hown
            refine h.keep hl hexp (Function.update_of_ne hne ..) ⟨?_, ?_, ?_⟩ fun hp hlt => ?_
            · exact (congrFun hrec.replicaViews p.id).trans (Function.update_of_ne hne ..)
            · exact (congrFun hrec.lastPrimaryCVs p.id).trans (Function.update_of_ne hne ..)
            · exact (congrFun hrec.lastReplicaCVs p.id).trans (Function.update_of_ne hne ..)
            · cases c with
              | newView nv =>
                  exact absurd (isPrimary_unique (hwf.isPrimary_proposed happ.messageView) hp) hown
              | _ => exact hlt
      | _ => exact hsame rfl rfl id

theorem requestViewChange {view : UInt64} (h : Accounted p s before l) :
    Accounted p (s.requestViewChange p view) before l := by
  refine h.keep (List.prefix_refl l) (expectedView_requestViewChange _ _) ?_ ?_ fun _ hlt => ?_
  · rw [lastUI_requestViewChange]
  · rw [execution_requestViewChange]
    exact ⟨rfl, rfl, rfl⟩
  · rw [currentView_requestViewChange]
    exact hlt

end Accounted

end Replica

end MinBFT
