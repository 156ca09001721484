import MinBFT.Conforming
import MinBFT.OutputShape

/-!
# Completing proposals in order

In a run whose messages conform, the proposals of a view get enough commitments in the order of
their counters, the NewView first. With each of them the replica has executed its whole chronicle: a
proposal completed again repeats what has been executed, a NewView starts over with what has been
executed before it, and a Prepare comes next.
-/

namespace MinBFT

namespace Commitments

def Quorate (config : Config) (c : Commitments) (w x : UInt64) : Prop :=
  config.commitCertSize.toNat ≤ (c.committers config.n w x).card

end Commitments

/-- The chronicle of the last proposal that has enough commitments. -/
inductive Reached (config : Config) (Known : CertifiedMessage → Prop) (c : Commitments) :
    List Content → Prop where
  | nothing (hnone : ∀ w x, c.lastView ≤ w → ¬ c.Quorate config w x) : Reached config Known c []
  | through {v : UInt64} {k : ℕ} {l : List Content} (hchron : Chronicle Known v k l)
      (hs : Settled config Known v k) (hle : v ≤ c.lastView)
      (htop : ∀ w x, c.lastView ≤ w → c.Quorate config w x → w = v ∧ x.toNat ≤ k) :
      Reached config Known c l

namespace Reached

variable {crypto : Crypto} {config : Config} {Known Known' : CertifiedMessage → Prop}
  {c c' : Commitments} {l : List Content} {m : CertifiedMessage} {w x : UInt64} {done : Bool}

theorem mono (hsub : ∀ m, Known m → Known' m) (h : Reached config Known c l) :
    Reached config Known' c l := by
  cases h with
  | nothing hnone => exact .nothing hnone
  | through hchron hs hle htop => exact .through (hchron.mono hsub) (hs.mono hsub) hle htop

theorem quorate_cases (hview : m.messageView = some w) (hrec : c.Recorded m w done c') {w' : UInt64}
    (hq : c'.Quorate config w' x) :
    (w' = w ∧ x = m.proposed.counter) ∨ c.Quorate config w' x := by
  by_cases heq : w = w' ∧ m.proposed.counter = x
  · exact .inl ⟨heq.1.symm, heq.2.symm⟩
  · rw [Commitments.Quorate, hrec.committers_of_ne hview heq] at hq
    exact .inr hq

/-- Nothing new has got enough commitments. -/
theorem keep (h : Reached config Known c l)
    (ht : c.Tracks config.n config.commitCertSize.toNat w) (hlast : c'.lastView = w)
    (hq : ∀ w' x, w ≤ w' → c'.Quorate config w' x → c.Quorate config w' x) :
    Reached config Known c' l := by
  cases h with
  | nothing hnone =>
      refine .nothing fun w' x hle hquor => ?_
      rw [hlast] at hle
      exact hnone w' x (UInt64.le_trans ht.bound hle) (hq w' x hle hquor)
  | through hchron hs hle htop =>
      refine .through hchron hs (hlast ▸ UInt64.le_trans hle ht.bound) fun w' x hle' hquor => ?_
      rw [hlast] at hle'
      exact htop w' x (UInt64.le_trans ht.bound hle') (hq w' x hle' hquor)

end Reached

namespace Closed

variable {crypto : Crypto} {config : Config} {Known : CertifiedMessage → Prop}
  {c c' : Commitments} {l : List Content} {m : CertifiedMessage} {w x : UInt64} {done : Bool}
  {k : ℕ}

theorem settled_of_quorate (hknown : ∀ a ∈ c.accepted, Known a) (hq : c.Quorate config w x) :
    Settled config Known w x.toNat := by
  refine ⟨_, Finset.filter_subset _ _, hq, fun r hr => ?_⟩
  obtain ⟨-, a, ha, hid, hview, hcv⟩ := Commitments.mem_committers.mp hr
  exact ⟨a, hknown a ha, hid, hview, congrArg _ hcv⟩

section Unique

variable (hsha : Function.Injective crypto.sha256) (huniq : UniqueUI crypto)
include hsha huniq

/-- As a view has one NewView, all commitments in it start at the same counter. -/
theorem aligned (hc : Closed crypto config Known) (hknown : ∀ a ∈ c.accepted, Known a)
    (w : UInt64) : c.Aligned w := by
  have hnewView : ∀ a ∈ c.accepted, a.proposed.kind = .newView → a.messageView = some w →
      ∃ nv, a.proposed = .newView nv ∧ Known (.newView nv) ∧ nv.newView = w := by
    intro a ha hkind hview
    have hprop := hc.proposed a (hknown a ha)
    rcases CertifiedMessage.proposed_cases hview with ⟨q, hq, -⟩ | ⟨nv, hnv, hnvview⟩
    · rw [hq] at hkind
      cases hkind
    · rw [hnv] at hprop
      exact ⟨nv, hnv, hprop, hnvview⟩
  rintro r r' _ _ ⟨a, ha, -, hkind, hview, rfl⟩ ⟨b, hb, -, hkind', hview', rfl⟩
  obtain ⟨nv, hnv, hnvknown, hnvview⟩ := hnewView a ha hkind hview
  obtain ⟨nv', hnv', hnvknown', hnvview'⟩ := hnewView b hb hkind' hview'
  rw [hnv, hnv']
  exact UInt64.toNat_inj.mp
    (hc.counter_eq hsha huniq hnvknown hnvknown' (hnvview.trans hnvview'.symm))

theorem start_le (hc : Closed crypto config Known) {a : ℕ} (ha : Starts Known w a)
    (h : Chronicle Known w k l) : a ≤ k := by
  rcases ha with ⟨-, rfl⟩ | ⟨nv, hnv, hview, rfl⟩
  · exact hc.chronicle_pos h
  · obtain ⟨nv', -, hnv', hview', hle, -⟩ :=
      chronicle_newView (fun hz => hc.newView_pos hnv (hview.trans hz)) h
    rw [hc.counter_eq hsha huniq hnv hnv' (hview.trans hview'.symm)]
    exact hle

omit hsha in
/-- Who has committed to a Prepare that follows another proposal has committed to that one. -/
theorem committers_pred (hc : Closed crypto config Known) (hknown : ∀ a ∈ c.accepted, Known a)
    (ht : c.Tracks config.n config.commitCertSize.toNat w) (hlast : c.lastView = w)
    (hm : Known m) (hview : m.messageView = some w) (hkind : m.proposed.kind = .prepare)
    (hk : m.proposed.counter.toNat = k + 1) (hpos : 0 < k) :
    c.committers config.n w m.proposed.counter ⊆
      c.committers config.n w (m.proposed.counter - 1) := by
  intro r hr
  obtain ⟨hlt, hcommits⟩ := Commitments.mem_committers.mp hr
  have hviews : c.replicaViews r = w := by
    obtain ⟨a, ha, rfl, haview, -⟩ := hcommits
    obtain ⟨w', hle, heq⟩ := ht.accepted a ha
    cases heq.symm.trans haview
    exact UInt64.le_antisymm (hlast ▸ ht.views _) hle
  obtain ⟨first, hstart, -, hsegment⟩ := ht.segment r
  rw [hviews] at hstart hsegment
  obtain ⟨hfirst, hle⟩ := (hsegment _).mp hcommits
  have hne : first ≠ m.proposed.counter := by
    rintro rfl
    rcases hstart with ⟨-, hone⟩ | ⟨-, a, ha, -, hakind, haview, hacv⟩
    · rw [hone, UInt64.toNat_one] at hk
      omega
    · have hsame := hc.same_proposed huniq (hknown a ha) hm haview hview (congrArg _ hacv)
      have := hsame.kind
      rw [hakind, hkind] at this
      cases this
  have hpred : (m.proposed.counter - 1).toNat = k :=
    Nat.succ.inj ((UInt64.toNat_sub_one_add_one (by omega)).trans hk)
  refine Commitments.mem_committers.mpr ⟨hlt, (hsegment _).mpr ⟨?_, ?_⟩⟩
  · have hne' : first.toNat ≠ m.proposed.counter.toNat := fun heq => hne (UInt64.toNat_inj.mp heq)
    rw [UInt64.le_iff_toNat_le] at hfirst ⊢
    omega
  · rw [UInt64.le_iff_toNat_le] at hle ⊢
    omega

end Unique

end Closed

section Completed

variable {crypto : Crypto} {config : Config} {Known : CertifiedMessage → Prop}
  {c c' : Commitments} {l l' : List Content} {m : CertifiedMessage} {w : UInt64} {done : Bool}
  {reqs : List Request} {v : UInt64} {k : ℕ}
variable (hc : Closed crypto config Known) (hknown : ∀ a ∈ c'.accepted, Known a)
  (ht : c.Tracks config.n config.commitCertSize.toNat w) (hview : m.messageView = some w)
  (hrec : c.Recorded m w done c') (hquorate : c'.Quorate config w m.proposed.counter)
include hknown hview hrec hquorate

/-- The proposal is the last one that has enough commitments. -/
theorem Reached.advance (hchron : Chronicle Known w m.proposed.counter.toNat l')
    (htop : ∀ w' x, w ≤ w' → c.Quorate config w' x →
      w' = w ∧ x.toNat ≤ m.proposed.counter.toNat) : Reached config Known c' l' := by
  refine .through hchron (Closed.settled_of_quorate hknown hquorate)
    (hrec.lastView ▸ UInt64.le_refl _) fun w' x hle hq => ?_
  rw [hrec.lastView] at hle
  rcases Reached.quorate_cases hview hrec hq with ⟨rfl, rfl⟩ | hq
  · exact ⟨rfl, Nat.le_refl _⟩
  · exact htop w' x hle hq

include hc ht
variable (hsha : Function.Injective crypto.sha256) (huniq : UniqueUI crypto)
include hsha huniq

omit hknown hquorate in
/-- The proposal, or a later one of its view, had enough commitments before. -/
theorem Closed.reached_again (hchron' : Chronicle Known w k l) (hs : Settled config Known w k)
    (htop : ∀ w' x, c.lastView ≤ w' → c.Quorate config w' x → w' = w ∧ x.toNat ≤ k)
    (hchron : Chronicle Known w m.proposed.counter.toNat l')
    (hsub : reqs.map Request.content ⊆ l') (hle : m.proposed.counter.toNat ≤ k) :
    ∃ l', Reached config Known c' l' ∧ Fresh.Absorbs l (reqs.map Request.content) l' := by
  refine ⟨l, .through hchron' hs (hrec.lastView ▸ UInt64.le_refl _) ?_,
    .again (List.Subset.trans hsub (hc.chronicle_prefix hsha huniq hchron hchron' hle).1.subset)⟩
  intro w' x hle' hq
  rw [hrec.lastView] at hle'
  rcases Reached.quorate_cases hview hrec hq with ⟨rfl, rfl⟩ | hq
  · exact ⟨rfl, hle⟩
  · exact htop w' x (UInt64.le_trans ht.bound hle') hq

/-- The first proposal of a view starts with all that has been executed in earlier views. -/
theorem Closed.reached_start (htol : config.Tolerant)
    (hstart : Starts Known w m.proposed.counter.toNat)
    (hchron : Chronicle Known w m.proposed.counter.toNat (reqs.map Request.content))
    (h : Reached config Known c l) :
    ∃ l', Reached config Known c' l' ∧ Fresh.Absorbs l (reqs.map Request.content) l' := by
  cases h with
  | nothing hnone =>
      refine ⟨_, .advance hknown hview hrec hquorate hchron fun w' x hle hq => ?_,
        .anew List.nil_prefix⟩
      exact absurd hq (hnone w' x (UInt64.le_trans ht.bound hle))
  | @through v k _ hchron' hs hle htop =>
      by_cases hv : v = w
      · subst hv
        exact hc.reached_again ht hview hrec hsha huniq hchron' hs htop hchron
          (List.Subset.refl _) (hc.start_le hsha huniq hstart hchron')
      · have hlt : v < w := UInt64.lt_of_le_of_ne (UInt64.le_trans hle ht.bound) hv
        have hne := (UInt64.ne_of_lt (UInt64.lt_of_le_of_lt UInt64.zero_le hlt)).symm
        obtain ⟨nv, inherited, hnv, hnvview, -, hinherited, hpre⟩ := chronicle_newView hne hchron
        have hcert := hc.certificate hnv
        rw [hnvview] at hcert
        obtain ⟨reqs', hreqs', hpre'⟩ := hc.preserves hsha huniq htol hcert hlt hchron' hs
        cases hreqs'.symm.trans hinherited
        refine ⟨_, .advance hknown hview hrec hquorate hchron fun w' x hle' hq => ?_,
          .anew (hpre'.trans hpre)⟩
        obtain ⟨rfl, -⟩ := htop w' x (UInt64.le_trans ht.bound hle') hq
        exact absurd hlt (UInt64.not_lt.mpr hle')

/-- Those behind a further proposal are behind the one before it, which is the last one executed. -/
theorem Closed.reached_next (ht' : c'.Tracks config.n config.commitCertSize.toNat w)
    (hm : Known m) (hkind : m.proposed.kind = .prepare) (hk : m.proposed.counter.toNat = k + 1)
    (hbefore : Chronicle Known w k l')
    (hchron : Chronicle Known w m.proposed.counter.toNat (l' ++ reqs.map Request.content))
    (h : Reached config Known c l) :
    ∃ l', Reached config Known c' l' ∧ Fresh.Absorbs l (reqs.map Request.content) l' := by
  have hpred : (m.proposed.counter - 1).toNat = k :=
    Nat.succ.inj ((UInt64.toNat_sub_one_add_one (by omega)).trans hk)
  have hquorate' : c.Quorate config w (m.proposed.counter - 1) := by
    have hcard := Finset.card_le_card (hc.committers_pred huniq hknown ht' hrec.lastView hm
      hview hkind hk (hc.chronicle_pos hbefore))
    have hne : ¬ (w = w ∧ m.proposed.counter = m.proposed.counter - 1) := fun heq => by
      have := congrArg UInt64.toNat heq.2
      omega
    rw [hrec.committers_of_ne hview hne] at hcard
    exact hquorate.trans hcard
  cases h with
  | nothing hnone => exact absurd hquorate' (hnone w _ ht.bound)
  | @through v last _ hchron' hs hle htop =>
      obtain ⟨rfl, hle'⟩ := htop w _ ht.bound hquorate'
      rw [hpred] at hle'
      by_cases hlast : m.proposed.counter.toNat ≤ last
      · exact hc.reached_again ht hview hrec hsha huniq hchron' hs htop hchron
          (List.subset_append_right _ _) hlast
      · obtain rfl := (hc.chronicle_prefix hsha huniq hbefore hchron' hle').2 (by omega)
        refine ⟨_, .advance hknown hview hrec hquorate hchron fun w' x hle'' hq => ?_, .next⟩
        obtain ⟨rfl, hx⟩ := htop w' x (UInt64.le_trans ht.bound hle'') hq
        exact ⟨rfl, by omega⟩

/-- A commitment that completes a proposal continues what has been executed. -/
theorem Closed.reached_completed (htol : config.Tolerant)
    (ht' : c'.Tracks config.n config.commitCertSize.toNat w) (hm : Known m)
    (h : Reached config Known c l) :
    ∃ reqs l', m.proposed.requests = some reqs ∧ Reached config Known c' l' ∧
      Fresh.Absorbs l (reqs.map Request.content) l' := by
  obtain ⟨reqs, hreqs, ⟨hstart, hchron⟩ | ⟨k, before, hk, hkind, hbefore, hchron⟩⟩ :=
    hc.chronicle_cases hm hview
  · obtain ⟨l', hl', habs⟩ :=
      hc.reached_start hknown ht hview hrec hquorate hsha huniq htol hstart hchron h
    exact ⟨reqs, l', hreqs, hl', habs⟩
  · rw [← hk] at hchron
    obtain ⟨l', hl', habs⟩ := hc.reached_next hknown ht hview hrec hquorate hsha huniq ht' hm
      hkind hk hbefore hchron h
    exact ⟨reqs, l', hreqs, hl', habs⟩

end Completed

end MinBFT
