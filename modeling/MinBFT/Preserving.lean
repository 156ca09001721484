import MinBFT.Chronicles

/-!
# View changes preserve what has been settled

A commit quorum and the replicas behind a new-view certificate have one in common. The log of its
ViewChange holds all it has committed to in the view before, and the longest log in the certificate
tells at least as much of the same chronicle.
-/

namespace MinBFT

namespace Closed

variable {crypto : Crypto} {config : Config} {Known : CertifiedMessage → Prop}
  {v w : UInt64} {k k' : ℕ} {l l' : List Content} {m : CertifiedMessage} {vc : ViewChange}
  {cert : List ViewChange}

theorem toNat_newView_sub_one (hc : Closed crypto config Known) (hvc : Known (.viewChange vc)) :
    (vc.newView - 1).toNat + 1 = vc.newView.toNat :=
  UInt64.toNat_sub_one_add_one (UInt64.le_iff_toNat_le.mp (hc.wellFormed _ hvc).2.2)

/-- A commit quorum shares a replica with every certificate. -/
theorem exists_mem_certificate (htol : config.Tolerant) (hc : Closed crypto config Known)
    (hcert : Certificate config Known w cert) (hs : Settled config Known v k) :
    ∃ vc ∈ cert, ∃ m, Known m ∧ m.replicaID = vc.replicaID ∧ m.messageView = some v ∧
      m.proposed.counter.toNat = k := by
  obtain ⟨Q, hQ, hcard, hcommits⟩ := hs
  have hids : ∀ r ∈ cert.map (·.replicaID), r < config.n := by
    intro r hr
    obtain ⟨vc, hvc, rfl⟩ := List.mem_map.mp hr
    exact (hc.wellFormed _ (hcert.known vc hvc).1).1
  obtain ⟨r, hr, hrQ⟩ := Config.exists_mem_quorum htol hQ hcard hids hcert.nodup
    (by rw [List.length_map]; exact hcert.length)
  obtain ⟨vc, hvc, rfl⟩ := List.mem_map.mp hr
  exact ⟨vc, hvc, hcommits _ hrQ⟩

section Unique

variable (hsha : Function.Injective crypto.sha256) (huniq : UniqueUI crypto)
include hsha huniq

/-- The log of a ViewChange tells what its replica has committed to in the view before, or it only
holds the ViewChange for that view. -/
theorem viewChange_cases (hc : Closed crypto config Known) (hvc : Known (.viewChange vc)) :
    (withoutLeading vc.messageLog = [] ∧ (vc.newView - 1 ≠ 0 → ∃ old,
        leadingViewChange vc.messageLog = some old ∧ Known (.viewChange old) ∧
          old.replicaID = vc.replicaID ∧ old.newView = vc.newView - 1)) ∨
      ∃ k reqs, Logged Known (vc.newView - 1) (withoutLeading vc.messageLog) k reqs := by
  obtain ⟨hempty, hback⟩ := (hc.sound _ hvc).validLog
  have hknown := hc.messageLog vc hvc
  rcases List.eq_nil_or_concat vc.messageLog with hnil | ⟨log, x, hlog⟩
  · rw [hnil]
    exact .inl ⟨rfl, fun hne => absurd (hempty hnil).1 hne⟩
  · rw [List.concat_eq_append] at hlog
    rw [hlog] at hback hknown ⊢
    rcases hc.logged hsha huniq hback hknown with ⟨hkind, rfl, hview⟩ | ⟨-, reqs, hlogged⟩
    · cases x with
      | viewChange old =>
          have hid := (BackwardsLog.concat.mp hback).1
          exact .inl ⟨rfl, fun _ => ⟨old, rfl, hknown _ List.mem_cons_self, hid, hview⟩⟩
      | _ => cases hkind
    · exact .inr ⟨_, reqs, hlogged⟩

/-- The log of a ViewChange starts no later than its replica has entered the view before. -/
theorem log_start_le (hc : Closed crypto config Known) (hvc : Known (.viewChange vc))
    (hm : Known m) (hid : m.replicaID = vc.replicaID)
    (hview : m.messageView = some (vc.newView - 1)) {y : CertifiedMessage}
    {rest : List CertifiedMessage} (hlog : vc.messageLog = y :: rest) :
    y.counter.toNat ≤ m.counter.toNat := by
  have hback := (hc.sound _ hvc).validLog.2
  have hy : Known y := hc.messageLog vc hvc y (hlog ▸ List.mem_cons_self)
  have hyid : y.replicaID = vc.replicaID := hback.replicaID_eq (hlog ▸ List.mem_cons_self)
  have hafter := CertifiedMessage.viewAfter_of_messageView hview
  have hkind := CertifiedMessage.kind_of_messageView hview
  rw [hlog] at hback
  rcases hback.head with hstarts | ⟨-, -, hone⟩
  · cases y with
    | viewChange old =>
        have hold : old.newView = vc.newView - 1 := Option.some.inj hstarts
        exact hc.counter_le hsha huniq hy hm (hid.trans hyid.symm) (by rw [hafter, hold])
    | newView nv =>
        obtain ⟨old, hold, holdid, hcv, holdview⟩ := hc.before_newView hy
        have hnv : nv.newView = vc.newView - 1 := Option.some.inj hstarts
        have hmid : m.replicaID = old.replicaID :=
          hid.trans (hyid.symm.trans holdid.symm)
        have hle := hc.counter_le hsha huniq hold hm hmid (by rw [hafter, holdview, hnv])
        have hne : m.counter.toNat ≠ old.ui.counter.toNat := fun heq =>
          hkind (hc.same huniq hm hold hmid heq).kind
        have hcounter : (CertifiedMessage.newView nv).counter.toNat =
            old.ui.counter.toNat + 1 := hcv
        omega
    | _ => cases hstarts
  · rw [hone, UInt64.toNat_one]
    exact hc.counter_pos hm

/-- What a replica has committed to in the view before is in the log of its ViewChange. -/
theorem exists_mem_log (hc : Closed crypto config Known) (hvc : Known (.viewChange vc))
    (hm : Known m) (hid : m.replicaID = vc.replicaID)
    (hview : m.messageView = some (vc.newView - 1)) :
    ∃ x ∈ withoutLeading vc.messageLog, SameAuthen crypto.sha256 m x := by
  have hsound := hc.sound _ hvc
  have hhigh : m.counter.toNat < vc.ui.counter.toNat := by
    by_contra hge
    have hle := hc.viewAfter_le hsha huniq hvc hm hid.symm (Nat.not_lt.mp hge)
    rw [CertifiedMessage.viewAfter_of_messageView hview] at hle
    have hpred := hc.toNat_newView_sub_one hvc
    have hafter : (CertifiedMessage.viewChange vc).viewAfter = vc.newView := rfl
    rw [hafter] at hle
    omega
  have hlow : vc.ui.counter.toNat - vc.messageLog.length ≤ m.counter.toNat := by
    cases hlog : vc.messageLog with
    | nil =>
        have hone := (hsound.validLog.1 hlog).2
        have hpos := hc.counter_pos hm
        rw [hone, UInt64.toNat_one] at hhigh
        omega
    | cons y rest =>
        have hmap := hsound.log_counters.2
        rw [hlog, List.map_cons, List.length_cons, List.range'_succ, List.cons.injEq] at hmap
        rw [List.length_cons, ← hmap.1]
        exact hc.log_start_le hsha huniq hvc hm hid hview hlog
  obtain ⟨x, hx, hsame⟩ := exists_mem_messageLog huniq hsound (hc.sound m hm).uiValid hid hlow hhigh
  refine ⟨x, ?_, hsame⟩
  -- a ViewChange at the beginning of the log is no commitment
  have hkind : x.kind ≠ .viewChange :=
    hsame.kind ▸ CertifiedMessage.kind_of_messageView hview
  cases hlog : vc.messageLog with
  | nil =>
      rw [hlog] at hx
      cases hx
  | cons y rest =>
      rw [hlog] at hx
      cases y with
      | viewChange old =>
          rcases List.mem_cons.mp hx with rfl | hx
          · exact absurd rfl hkind
          · exact hx
      | _ => exact hx

/-- The ViewChanges left in front of empty logs form a certificate for the view before. -/
theorem certificate_leading (hc : Closed crypto config Known)
    (hcert : Certificate config Known w cert) (hw : w - 1 ≠ 0) (hmax : (scanCert cert).2 = []) :
    Certificate config Known (w - 1) (scanCert cert).1 := by
  have hlead : ∀ vc ∈ cert, ∃ old, leadingViewChange vc.messageLog = some old ∧
      Known (.viewChange old) ∧ old.replicaID = vc.replicaID ∧ old.newView = w - 1 := by
    intro vc hvc
    obtain ⟨hknown, rfl⟩ := hcert.known vc hvc
    rcases hc.viewChange_cases hsha huniq hknown with ⟨-, hold⟩ | ⟨k, reqs, hlogged⟩
    · exact hold hw
    · exact absurd (withoutLeading_eq_nil hmax hvc) hlogged.nonempty
  have hids : (scanCert cert).1.map (·.replicaID) = cert.map (·.replicaID) :=
    map_replicaID_leading fun vc hvc =>
      let ⟨old, hold, _, hid, _⟩ := hlead vc hvc
      ⟨old, hold, hid⟩
  refine ⟨fun old hold => ?_, hids ▸ hcert.nodup, ?_⟩
  · rw [scanCert_fst] at hold
    obtain ⟨vc, hvc, heq⟩ := List.mem_filterMap.mp hold
    obtain ⟨old', hlead', hknown, -, hview⟩ := hlead vc hvc
    cases hlead'.symm.trans heq
    exact ⟨hknown, hview⟩
  · rw [← List.length_map (·.replicaID), hids, List.length_map]
    exact hcert.length

variable (htol : config.Tolerant)
include htol

/-- Some replica has committed to a proposal in the view before: the longest log tells the chronicle
of that view at least as far as any quorum has come. -/
theorem settled_of_maxLog (hc : Closed crypto config Known)
    (hcert : Certificate config Known w cert) (hmax : (scanCert cert).2 ≠ []) :
    ∃ k' reqs, extractPreparedRequests cert = some reqs ∧
      Chronicle Known (w - 1) k' (reqs.map Request.content) ∧
      ∀ k, Settled config Known (w - 1) k → k ≤ k' := by
  obtain ⟨vc, hvc, heq⟩ := (maxLog_mem cert).resolve_left hmax
  obtain ⟨hknown, rfl⟩ := hcert.known vc hvc
  rcases hc.viewChange_cases hsha huniq hknown with ⟨hnil, -⟩ | ⟨k', reqs, hlogged⟩
  · exact absurd (heq.trans hnil) hmax
  · rw [← heq] at hlogged
    refine ⟨k', reqs, ?_, hlogged.chronicle, fun k hs => ?_⟩
    · rw [extract_of_maxLog_ne_nil hmax, hlogged.replayed]
    · obtain ⟨vc', hvc', m, hm, hid, hview, rfl⟩ := hc.exists_mem_certificate htol hcert hs
      obtain ⟨hknown', hview'⟩ := hcert.known vc' hvc'
      rw [← hview'] at hview
      obtain ⟨x, hx, hsame⟩ := hc.exists_mem_log hsha huniq hknown' hm hid hview
      rcases hc.viewChange_cases hsha huniq hknown' with ⟨hnil, -⟩ | ⟨k₁, reqs₁, hlogged₁⟩
      · rw [hnil] at hx
        cases hx
      · -- both logs tell the chronicle from the same start, so the longer one comes further
        have hle := hlogged₁.counters x hx
        rw [← hsame.proposed.counter] at hle
        obtain ⟨a, ha, hlen⟩ := hlogged.length
        obtain ⟨a₁, ha₁, hlen₁⟩ := hlogged₁.length
        rw [hview'] at ha₁
        have hstart := hc.starts_unique hsha huniq ha ha₁
        have hlonger := length_le_maxLog hvc'
        omega

/-- What a certificate for a view makes the replicas prepare begins with the chronicle of everything
settled in an earlier view. -/
theorem preserves (hc : Closed crypto config Known) (hcert : Certificate config Known w cert)
    (hlt : v < w) (h : Chronicle Known v k l) (hs : Settled config Known v k) :
    ∃ reqs, extractPreparedRequests cert = some reqs ∧ l <+: reqs.map Request.content := by
  -- induction on the view, as certificates only nest ViewChanges for the view before
  induction hn : w.toNat using Nat.strong_induction_on generalizing w cert with
  | _ n ih =>
    subst hn
    have hpred : (w - 1).toNat < w.toNat := by
      rw [UInt64.lt_iff_toNat_lt] at hlt
      have := UInt64.toNat_sub_one_add_one (c := w) (by omega)
      omega
    by_cases hmax : (scanCert cert).2 = []
    · rcases UInt64.lt_or_eq_pred hlt with hlt | rfl
      · have hleading := hc.certificate_leading hsha huniq hcert
          (UInt64.ne_of_lt (UInt64.lt_of_le_of_lt UInt64.zero_le hlt)).symm hmax
        obtain ⟨reqs, hreqs, hpre⟩ := ih _ hpred hleading hlt rfl
        refine ⟨reqs, ?_, hpre⟩
        rw [extract_of_maxLog_nil hmax, hreqs]
        intro hnil
        have hlen := hleading.length
        rw [hnil, Config.toNat_viewChangeCertSize htol] at hlen
        simp at hlen
      · obtain ⟨vc, hvc, m, hm, hid, hview, -⟩ := hc.exists_mem_certificate htol hcert hs
        obtain ⟨hknown, hview'⟩ := hcert.known vc hvc
        rw [← hview'] at hview
        obtain ⟨x, hx, -⟩ := hc.exists_mem_log hsha huniq hknown hm hid hview
        rw [withoutLeading_eq_nil hmax hvc] at hx
        cases hx
    · obtain ⟨k', reqs, hreqs, hchron, htop⟩ :=
        hc.settled_of_maxLog hsha huniq htol hcert hmax
      refine ⟨reqs, hreqs, ?_⟩
      rcases UInt64.lt_or_eq_pred hlt with hlt | rfl
      · obtain ⟨nv, inherited, hnv, hview, -, hinherited, hpre⟩ := chronicle_newView
          (UInt64.ne_of_lt (UInt64.lt_of_le_of_lt UInt64.zero_le hlt)).symm hchron
        have hcert' := hc.certificate hnv
        rw [hview] at hcert'
        obtain ⟨reqs', hreqs', hpre'⟩ := ih _ hpred hcert' hlt rfl
        cases hreqs'.symm.trans hinherited
        exact hpre'.trans hpre
      · exact (hc.chronicle_prefix hsha huniq h hchron (htop k hs)).1

/-- Whatever has been settled belongs to one history. -/
theorem settled_comparable (hc : Closed crypto config Known) (h : Chronicle Known v k l)
    (hs : Settled config Known v k) (h' : Chronicle Known w k' l')
    (hs' : Settled config Known w k') : l <+: l' ∨ l' <+: l := by
  have hearlier : ∀ {v w : UInt64} {k k' : ℕ} {l l' : List Content}, v < w →
      Chronicle Known v k l → Settled config Known v k → Chronicle Known w k' l' → l <+: l' := by
    intro v w k k' l l' hlt h hs h'
    obtain ⟨nv, inherited, hnv, hview, -, hinherited, hpre⟩ := chronicle_newView
      (UInt64.ne_of_lt (UInt64.lt_of_le_of_lt UInt64.zero_le hlt)).symm h'
    have hcert := hc.certificate hnv
    rw [hview] at hcert
    obtain ⟨reqs, hreqs, hpre'⟩ := hc.preserves hsha huniq htol hcert hlt h hs
    cases hreqs.symm.trans hinherited
    exact hpre'.trans hpre
  by_cases heq : v = w
  · subst heq
    rcases Nat.le_total k k' with hle | hle
    · exact .inl (hc.chronicle_prefix hsha huniq h h' hle).1
    · exact .inr (hc.chronicle_prefix hsha huniq h' h hle).1
  · by_cases hlt : v < w
    · exact .inl (hearlier hlt h hs h')
    · have hgt : w < v := UInt64.lt_of_le_of_ne (UInt64.not_lt.mp hlt) (Ne.symm heq)
      exact .inr (hearlier hgt h' hs' h)

end Unique

end Closed

end MinBFT
