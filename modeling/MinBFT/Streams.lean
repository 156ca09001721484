import MinBFT.NewViews
import MinBFT.Preparing

/-!
# What replicas certify, one message after the other

The protocol says how each message that a replica certifies follows the one before it. Where the
messages of all replicas do so, the views a replica goes through are in order, a view has one
NewView, and the log of a ViewChange holds everything that its replica has committed to in the view
it leaves.
-/

namespace MinBFT

namespace CertifiedMessage

variable {m x : CertifiedMessage} {v : UInt64}

def viewAfter : CertifiedMessage → UInt64
  | .viewChange vc => vc.newView
  | m => m.messageView.getD 0

/-- The message may come right after `before` among those a replica certifies. ViewChanges lead from
view to view. In a view a replica first commits to the NewView, or to the Prepare with counter one
if the view is the initial one, and then to one Prepare after the other. -/
def Succeeds (m : CertifiedMessage) (before : Option CertifiedMessage) : Prop :=
  if m.kind = .viewChange then
    m.viewAfter.toNat = before.elim 0 (·.viewAfter.toNat) + 1
  else match before with
    | none => m.proposed.kind = .prepare ∧ m.messageView = some 0 ∧ m.proposed.counter = 1
    | some x =>
        if x.kind = .viewChange then
          m.proposed.kind = .newView ∧ m.messageView = some x.viewAfter
        else
          m.proposed.kind = .prepare ∧ m.messageView = x.messageView ∧
            m.proposed.counter.toNat = x.proposed.counter.toNat + 1

instance (m : CertifiedMessage) (before : Option CertifiedMessage) :
    Decidable (m.Succeeds before) := by
  cases before <;> unfold Succeeds <;> infer_instance

theorem viewAfter_of_kind (h : m.kind ≠ .viewChange) : m.viewAfter = m.messageView.getD 0 := by
  cases m with
  | viewChange => exact absurd rfl h
  | _ => rfl

theorem kind_of_startsView (h : m.startsView = none) : m.kind ≠ .viewChange := by
  cases m with
  | viewChange => cases h
  | _ => simp [kind]

theorem viewAfter_of_messageView (h : m.messageView = some v) : m.viewAfter = v := by
  rw [viewAfter_of_kind (kind_of_messageView h), h]
  rfl

/-- Who commits in a view commits to a Prepare or a NewView for it. -/
theorem proposed_cases (h : m.messageView = some v) :
    (∃ q, m.proposed = .prepare q ∧ q.view = v) ∨
      ∃ nv, m.proposed = .newView nv ∧ nv.newView = v := by
  unfold messageView at h
  split at h
  · exact .inl ⟨_, ‹_›, Option.some.inj h⟩
  · exact .inr ⟨_, ‹_›, Option.some.inj h⟩
  · cases h

theorem succeeds_none (h : m.kind ≠ .viewChange) : m.Succeeds none ↔
    m.proposed.kind = .prepare ∧ m.messageView = some 0 ∧ m.proposed.counter = 1 := by
  rw [Succeeds, if_neg h]

theorem succeeds_viewChange (h : m.kind = .viewChange) : m.Succeeds (some x) ↔
    m.viewAfter.toNat = x.viewAfter.toNat + 1 := by
  rw [Succeeds, if_pos h]
  rfl

theorem succeeds_after_viewChange (h : m.kind ≠ .viewChange) (hx : x.kind = .viewChange) :
    m.Succeeds (some x) ↔ m.proposed.kind = .newView ∧ m.messageView = some x.viewAfter := by
  simp only [Succeeds, if_neg h, if_pos hx]

theorem succeeds_after_other (h : m.kind ≠ .viewChange) (hx : x.kind ≠ .viewChange) :
    m.Succeeds (some x) ↔ m.proposed.kind = .prepare ∧ m.messageView = x.messageView ∧
      m.proposed.counter.toNat = x.proposed.counter.toNat + 1 := by
  simp only [Succeeds, if_neg h, if_neg hx]

theorem Succeeds.viewAfter_eq (h : m.Succeeds (some x)) (hkind : m.kind ≠ .viewChange) :
    m.viewAfter = x.viewAfter := by
  by_cases hx : x.kind = .viewChange
  · exact viewAfter_of_messageView ((succeeds_after_viewChange hkind hx).mp h).2
  · rw [viewAfter_of_kind hkind, viewAfter_of_kind hx, ((succeeds_after_other hkind hx).mp h).2.1]

theorem Succeeds.viewAfter_le (h : m.Succeeds (some x)) :
    x.viewAfter.toNat ≤ m.viewAfter.toNat := by
  by_cases hkind : m.kind = .viewChange
  · rw [(succeeds_viewChange hkind).mp h]
    exact Nat.le_succ _
  · rw [h.viewAfter_eq hkind]

end CertifiedMessage

section SameAuthen

variable {crypto : Crypto} {m m' x x' : CertifiedMessage}

theorem SameAuthen.viewAfter (hsha : Function.Injective crypto.sha256)
    (h : SameAuthen crypto.sha256 m m') : m.viewAfter = m'.viewAfter := by
  by_cases hkind : m.kind = .viewChange
  · have hstarts := h.startsView
    have hkind' := h.kind ▸ hkind
    cases m <;> cases hkind
    cases m' <;> cases hkind'
    exact Option.some.inj hstarts
  · rw [CertifiedMessage.viewAfter_of_kind hkind,
      CertifiedMessage.viewAfter_of_kind (h.kind ▸ hkind), h.messageView hsha]

/-- Whether a message follows another one depends on what the USIG certifies only. -/
theorem CertifiedMessage.Succeeds.congr (h : m.Succeeds (some x))
    (hsha : Function.Injective crypto.sha256) (hm : SameAuthen crypto.sha256 m m')
    (hx : SameAuthen crypto.sha256 x x') : m'.Succeeds (some x') := by
  have hprop := hm.proposed
  have hxprop := hx.proposed
  simpa only [CertifiedMessage.Succeeds, hm.kind, hm.viewAfter hsha, hm.messageView hsha,
    hprop.kind, hprop.counter, hx.kind, hx.viewAfter hsha, hx.messageView hsha, hxprop.counter,
    Option.elim] using h

theorem CertifiedMessage.Succeeds.congr_none (h : m.Succeeds none)
    (hsha : Function.Injective crypto.sha256) (hm : SameAuthen crypto.sha256 m m') :
    m'.Succeeds none := by
  have hprop := hm.proposed
  simpa only [CertifiedMessage.Succeeds, hm.kind, hm.viewAfter hsha, hm.messageView hsha,
    hprop.kind, hprop.counter, Option.elim] using h

end SameAuthen

/-- Messages that are known, and with each of them what its replica has certified before. -/
structure Sequenced (crypto : Crypto) (Known : CertifiedMessage → Prop) : Prop where
  sound : ∀ m, Known m → HereditarilySound crypto (.certified m)
  first : ∀ m, Known m → m.counter = 1 → m.Succeeds none
  next : ∀ m, Known m → m.counter ≠ 1 → ∃ x, Known x ∧ x.replicaID = m.replicaID ∧
    m.counter.toNat = x.counter.toNat + 1 ∧ m.Succeeds (some x)

namespace Sequenced

variable {crypto : Crypto} {Known : CertifiedMessage → Prop} {a b m x : CertifiedMessage}
  {v : UInt64}

theorem counter_pos (h : Sequenced crypto Known) (hm : Known m) : 0 < m.counter.toNat :=
  Nat.pos_of_ne_zero fun hz => (h.sound m hm).uiValid.1 (UInt64.toNat_inj.mp hz)

theorem same (h : Sequenced crypto Known) (huniq : UniqueUI crypto) (ha : Known a) (hb : Known b)
    (hid : a.replicaID = b.replicaID) (hcv : a.counter.toNat = b.counter.toNat) :
    SameAuthen crypto.sha256 a b :=
  huniq.sameAuthen (h.sound a ha).uiValid (h.sound b hb).uiValid hid (UInt64.toNat_inj.mp hcv)

/-- A message that has another one of its replica before it is not the first. -/
theorem exists_before (h : Sequenced crypto Known) (ha : Known a) (hb : Known b)
    (hlt : a.counter.toNat < b.counter.toNat) : ∃ x, Known x ∧ x.replicaID = b.replicaID ∧
      b.counter.toNat = x.counter.toNat + 1 ∧ b.Succeeds (some x) := by
  refine h.next b hb fun hone => ?_
  have hpos := h.counter_pos ha
  rw [hone, UInt64.toNat_one] at hlt
  omega

/-- A NewView comes right after the ViewChange of its replica. -/
theorem before_newView {nv : NewView} (h : Sequenced crypto Known) (hnv : Known (.newView nv)) :
    ∃ vc, Known (.viewChange vc) ∧ vc.replicaID = nv.replicaID ∧
      nv.ui.counter.toNat = vc.ui.counter.toNat + 1 ∧ vc.newView = nv.newView := by
  have hkind : (CertifiedMessage.newView nv).kind ≠ .viewChange := by simp [CertifiedMessage.kind]
  by_cases hone : (CertifiedMessage.newView nv).counter = 1
  · have hprepare := ((CertifiedMessage.succeeds_none hkind).mp (h.first _ hnv hone)).1
    cases hprepare
  · obtain ⟨x, hx, hxid, hxcv, hsucc⟩ := h.next _ hnv hone
    by_cases hxkind : x.kind = .viewChange
    · obtain ⟨vc, rfl⟩ : ∃ vc, x = .viewChange vc := by
        cases x <;> simp_all [CertifiedMessage.kind]
      have hview := ((CertifiedMessage.succeeds_after_viewChange hkind hxkind).mp hsucc).2
      exact ⟨vc, hx, hxid, hxcv, (Option.some.inj hview).symm⟩
    · have hprepare := ((CertifiedMessage.succeeds_after_other hkind hxkind).mp hsucc).1
      cases hprepare

variable (hsha : Function.Injective crypto.sha256) (huniq : UniqueUI crypto)
include hsha huniq

/-- What directly precedes a known message is determined by its counter. -/
theorem succeeds (h : Sequenced crypto Known) (hx : Known x) (hm : Known m)
    (hid : x.replicaID = m.replicaID) (hcv : m.counter.toNat = x.counter.toNat + 1) :
    m.Succeeds (some x) := by
  obtain ⟨y, hy, hyid, hycv, hsucc⟩ := h.exists_before hx hm (by omega)
  have hm' := h.same huniq hm hm rfl rfl
  exact hsucc.congr hsha hm' (h.same huniq hy hx (hyid.trans hid.symm) (by omega))

/-- A replica does not go back to an earlier view. -/
theorem viewAfter_le (h : Sequenced crypto Known) (ha : Known a) (hb : Known b)
    (hid : a.replicaID = b.replicaID) (hle : a.counter.toNat ≤ b.counter.toNat) :
    a.viewAfter.toNat ≤ b.viewAfter.toNat := by
  induction hn : b.counter.toNat using Nat.strong_induction_on generalizing b with
  | _ n ih =>
    subst hn
    rcases Nat.eq_or_lt_of_le hle with heq | hlt
    · rw [(h.same huniq ha hb hid heq).viewAfter hsha]
    · obtain ⟨x, hx, hxid, hxcv, hsucc⟩ := h.exists_before ha hb hlt
      have hprev := ih x.counter.toNat (by omega) hx (hid.trans hxid.symm) (by omega) rfl
      exact hprev.trans hsucc.viewAfter_le

/-- Before a ViewChange a replica is in earlier views. -/
theorem viewAfter_lt {vc : ViewChange} (h : Sequenced crypto Known) (ha : Known a)
    (hvc : Known (.viewChange vc)) (hid : a.replicaID = vc.replicaID)
    (hlt : a.counter.toNat < vc.ui.counter.toNat) : a.viewAfter.toNat < vc.newView.toNat := by
  obtain ⟨x, hx, hxid, hxcv, hsucc⟩ := h.exists_before ha hvc hlt
  have hview : vc.newView.toNat = x.viewAfter.toNat + 1 :=
    (CertifiedMessage.succeeds_viewChange rfl).mp hsucc
  have hcv : vc.ui.counter.toNat = x.counter.toNat + 1 := hxcv
  have hle := h.viewAfter_le hsha huniq ha hx (hid.trans hxid.symm) (by omega)
  omega

/-- A replica enters a view by the ViewChange for it. -/
theorem counter_le {vc : ViewChange} (h : Sequenced crypto Known) (hvc : Known (.viewChange vc))
    (hm : Known m) (hid : m.replicaID = vc.replicaID)
    (hview : vc.newView.toNat ≤ m.viewAfter.toNat) :
    vc.ui.counter.toNat ≤ m.counter.toNat := by
  by_contra hlt
  have := h.viewAfter_lt hsha huniq hm hvc hid (by omega)
  omega

/-- A replica issues one NewView for a view at most. -/
theorem counter_newView {nv nv' : NewView} (h : Sequenced crypto Known)
    (hnv : Known (.newView nv)) (hnv' : Known (.newView nv')) (hid : nv.replicaID = nv'.replicaID)
    (hview : nv.newView = nv'.newView) : nv.ui.counter.toNat = nv'.ui.counter.toNat := by
  -- between two of them there would be a ViewChange for a view already entered
  have hle : ∀ {a b : NewView}, Known (.newView a) → Known (.newView b) →
      a.replicaID = b.replicaID → a.newView = b.newView →
      b.ui.counter.toNat ≤ a.ui.counter.toNat := by
    intro a b ha hb hid hview
    obtain ⟨vc, hvc, hvcid, hcv, hvcview⟩ := h.before_newView hb
    have hge : vc.ui.counter.toNat ≤ a.ui.counter.toNat :=
      h.counter_le hsha huniq hvc ha (hid.trans hvcid.symm) (by
        rw [hvcview, ← hview]
        exact Nat.le_refl _)
    have hne : vc.ui.counter.toNat ≠ a.ui.counter.toNat := fun heq =>
      nomatch (h.same huniq hvc ha (hvcid.trans hid.symm) heq).kind
    omega
  exact Nat.le_antisymm (hle hnv' hnv hid.symm hview.symm) (hle hnv hnv' hid hview)

end Sequenced

end MinBFT
