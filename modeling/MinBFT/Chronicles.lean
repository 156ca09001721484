import MinBFT.Streams

/-!
# The history behind a proposal

A proposal stands for its own requests and for those of all proposals before it, back to the NewView
of its view and to everything extracted from the certificate there. Where replicas certify messages
as the protocol says, this chronicle is determined by the view and the counter of the proposal. And
what a commit quorum has committed to in one view is the beginning of what any certificate for a
later view makes the replicas prepare.
-/

namespace MinBFT

/-- Messages of replicas that follow the protocol, known together with all that is embedded in
them. -/
structure Closed (crypto : Crypto) (config : Config) (Known : CertifiedMessage → Prop) : Prop
    extends Sequenced crypto Known where
  wellFormed : ∀ m, Known m → WellFormed crypto config (.certified m)
  proposed : ∀ m, Known m → Known m.proposed
  messageLog : ∀ vc, Known (.viewChange vc) → ∀ x ∈ vc.messageLog, Known x
  newViewCert : ∀ nv, Known (.newView nv) → ∀ vc ∈ nv.newViewCert, Known (.viewChange vc)
  validated : ∀ nv, Known (.newView nv) → validateNewView config nv = .ok ()

/-- The contents of the requests behind the proposal of view `v` with counter `k`. -/
inductive Chronicle (Known : CertifiedMessage → Prop) (v : UInt64) : ℕ → List Content → Prop where
  | first {q : Prepare} (hq : Known (.prepare q)) (hview : q.view = v) (hzero : v = 0)
      (hcv : q.ui.counter.toNat = 1) : Chronicle Known v 1 [q.request.content]
  | newView {nv : NewView} {k : ℕ} {reqs : List Request} (hnv : Known (.newView nv))
      (hview : nv.newView = v) (hcv : nv.ui.counter.toNat = k)
      (hreqs : extractPreparedRequests nv.newViewCert = some reqs) :
      Chronicle Known v k (reqs.map Request.content)
  | prepare {q : Prepare} {k : ℕ} {l : List Content} (hq : Known (.prepare q))
      (hview : q.view = v) (hcv : q.ui.counter.toNat = k + 1) (hprev : Chronicle Known v k l) :
      Chronicle Known v (k + 1) (l ++ [q.request.content])

def Starts (Known : CertifiedMessage → Prop) (v : UInt64) (a : ℕ) : Prop :=
  v = 0 ∧ a = 1 ∨ ∃ nv, Known (.newView nv) ∧ nv.newView = v ∧ nv.ui.counter.toNat = a

/-- Replaying a message log for view `v` tells the chronicle through its last proposal. -/
structure Logged (Known : CertifiedMessage → Prop) (v : UInt64) (log : List CertifiedMessage)
    (k : ℕ) (reqs : List Request) : Prop where
  nonempty : log ≠ []
  replayed : replay log = some reqs
  chronicle : Chronicle Known v k (reqs.map Request.content)
  counters : ∀ x ∈ log, x.proposed.counter.toNat ≤ k
  length : ∃ a, Starts Known v a ∧ k + 1 = a + log.length

/-- A commit quorum of replicas has committed to the proposal of view `v` with counter `k`. -/
def Settled (config : Config) (Known : CertifiedMessage → Prop) (v : UInt64) (k : ℕ) : Prop :=
  ∃ Q ⊆ replicas config.n, config.commitCertSize.toNat ≤ Q.card ∧ ∀ r ∈ Q, ∃ m, Known m ∧
    m.replicaID = r ∧ m.messageView = some v ∧ m.proposed.counter.toNat = k

/-- Enough ViewChanges for view `w` from different replicas. -/
structure Certificate (config : Config) (Known : CertifiedMessage → Prop) (w : UInt64)
    (cert : List ViewChange) : Prop where
  known : ∀ vc ∈ cert, Known (.viewChange vc) ∧ vc.newView = w
  nodup : (cert.map (·.replicaID)).Nodup
  length : config.viewChangeCertSize.toNat ≤ cert.length

section Mono

variable {Known Known' : CertifiedMessage → Prop} {config : Config} {v : UInt64} {k : ℕ}
  {l : List Content}

theorem Chronicle.mono (hsub : ∀ m, Known m → Known' m) (h : Chronicle Known v k l) :
    Chronicle Known' v k l := by
  induction h with
  | first hq hview hzero hcv => exact .first (hsub _ hq) hview hzero hcv
  | newView hnv hview hcv hreqs => exact .newView (hsub _ hnv) hview hcv hreqs
  | prepare hq hview hcv _ ih => exact .prepare (hsub _ hq) hview hcv ih

theorem Settled.mono (hsub : ∀ m, Known m → Known' m) (h : Settled config Known v k) :
    Settled config Known' v k := by
  obtain ⟨Q, hQ, hcard, hcommits⟩ := h
  refine ⟨Q, hQ, hcard, fun r hr => ?_⟩
  obtain ⟨m, hm, hrest⟩ := hcommits r hr
  exact ⟨m, hsub m hm, hrest⟩

end Mono

theorem withoutLeading_append {l : List CertifiedMessage} (h : l ≠ [])
    (r : List CertifiedMessage) : withoutLeading (l ++ r) = withoutLeading l ++ r := by
  cases l with
  | nil => exact absurd rfl h
  | cons x l => cases x <;> rfl

theorem withoutLeading_of_kind {x : CertifiedMessage} {l : List CertifiedMessage}
    (h : x.kind ≠ .viewChange) : withoutLeading (x :: l) = x :: l := by
  cases x with
  | viewChange => exact absurd rfl h
  | _ => rfl

/-- A log goes on with a commitment to the next Prepare. -/
theorem Logged.concat {Known : CertifiedMessage → Prop} {v : UInt64}
    {log : List CertifiedMessage} {k : ℕ} {reqs : List Request} {x : CertifiedMessage}
    {q : Prepare} (h : Logged Known v log k reqs) (hknown : Known (.prepare q))
    (hq : x.proposed = .prepare q) (hview : q.view = v) (hcv : q.ui.counter.toNat = k + 1) :
    Logged Known v (log ++ [x]) (k + 1) (reqs ++ [q.request]) where
  nonempty := by simp
  replayed := by
    rw [replay_append, h.replayed, Option.bind_some, List.foldlM_cons, replayStep_prepare hq]
    rfl
  chronicle := by
    rw [List.map_append]
    exact .prepare hknown hview hcv h.chronicle
  counters := by
    intro y hy
    rcases List.mem_append.mp hy with hy | hy
    · exact Nat.le_succ_of_le (h.counters y hy)
    · rw [List.mem_singleton.mp hy, hq]
      exact hcv.le
  length := by
    obtain ⟨a, ha, hlen⟩ := h.length
    refine ⟨a, ha, ?_⟩
    rw [List.length_append, List.length_singleton]
    omega

namespace Closed

variable {crypto : Crypto} {config : Config} {Known : CertifiedMessage → Prop}
  {v w : UInt64} {k k' : ℕ} {l l' : List Content} {m x : CertifiedMessage}

theorem newView_pos {nv : NewView} (hc : Closed crypto config Known) (hnv : Known (.newView nv)) :
    nv.newView ≠ 0 := by
  have hle : 1 ≤ nv.newView := (hc.wellFormed _ hnv).2.2.1
  rintro hz
  rw [hz] at hle
  exact absurd hle (by decide)

/-- All proposals of a view come from its primary. -/
theorem replicaID_proposed (hc : Closed crypto config Known) (hm : Known m)
    (hview : m.messageView = some v) : isPrimary v m.proposed.replicaID config.n = true := by
  have hwf := (hc.wellFormed _ (hc.proposed m hm)).2.2
  rcases CertifiedMessage.proposed_cases hview with ⟨q, hq, rfl⟩ | ⟨nv, hnv, rfl⟩
  · rw [hq] at hwf ⊢
    exact hwf
  · rw [hnv] at hwf ⊢
    exact hwf.2

theorem same_proposed (hc : Closed crypto config Known) (huniq : UniqueUI crypto) (hm : Known m)
    (hx : Known x) (hview : m.messageView = some v) (hview' : x.messageView = some v)
    (hcv : m.proposed.counter.toNat = x.proposed.counter.toNat) :
    SameAuthen crypto.sha256 m.proposed x.proposed :=
  hc.same huniq (hc.proposed m hm) (hc.proposed x hx)
    (isPrimary_unique (hc.replicaID_proposed hm hview) (hc.replicaID_proposed hx hview')) hcv

theorem chronicle_pos (hc : Closed crypto config Known) (h : Chronicle Known v k l) : 0 < k := by
  cases h with
  | first => exact Nat.one_pos
  | newView hnv _ hcv => exact hcv ▸ hc.counter_pos hnv
  | prepare => exact Nat.succ_pos _

/-- A chronicle begins with what the NewView of its view makes the replicas prepare. -/
theorem chronicle_newView (hv : v ≠ 0) (h : Chronicle Known v k l) :
    ∃ nv reqs, Known (.newView nv) ∧ nv.newView = v ∧ nv.ui.counter.toNat ≤ k ∧
      extractPreparedRequests nv.newViewCert = some reqs ∧ reqs.map Request.content <+: l := by
  induction h with
  | first _ _ hzero => exact absurd hzero hv
  | newView hnv hview hcv hreqs =>
      exact ⟨_, _, hnv, hview, hcv.le, hreqs, List.prefix_refl _⟩
  | prepare _ _ _ _ ih =>
      obtain ⟨nv, reqs, hnv, hview, hle, hreqs, hpre⟩ := ih
      exact ⟨nv, reqs, hnv, hview, Nat.le_succ_of_le hle, hreqs,
        hpre.trans (List.prefix_append _ _)⟩

theorem certificate {nv : NewView} (hc : Closed crypto config Known) (hnv : Known (.newView nv)) :
    Certificate config Known nv.newView nv.newViewCert := by
  obtain ⟨-, -, hcert⟩ := validateNewView_eq_ok.mp (hc.validated nv hnv)
  obtain ⟨hlen, hviews, hnodup, -⟩ := validateNewViewCert_eq_ok.mp hcert
  exact ⟨fun vc hvc => ⟨hc.newViewCert nv hnv vc hvc, hviews vc hvc⟩, hnodup, hlen⟩

/-- Every commitment is to a proposal with a chronicle: the first of its view, or one that follows
another. -/
theorem chronicle_cases (hc : Closed crypto config Known) (hm : Known m)
    (hview : m.messageView = some v) :
    ∃ reqs, m.proposed.requests = some reqs ∧
      (Starts Known v m.proposed.counter.toNat ∧
          Chronicle Known v m.proposed.counter.toNat (reqs.map Request.content) ∨
        ∃ k l, m.proposed.counter.toNat = k + 1 ∧ m.proposed.kind = .prepare ∧
          Chronicle Known v k l ∧ Chronicle Known v (k + 1) (l ++ reqs.map Request.content)) := by
  induction hn : m.counter.toNat using Nat.strong_induction_on generalizing m with
  | _ n ih =>
    subst hn
    obtain ⟨reqs, hreqs⟩ := exists_requests (hc.sound m hm) hview
    have hknown := hc.proposed m hm
    refine ⟨reqs, hreqs, ?_⟩
    rcases CertifiedMessage.proposed_cases hview with ⟨q, hq, hqview⟩ | ⟨nv, hnv, hnvview⟩
    · rw [hq] at hknown hreqs ⊢
      cases hreqs
      have hkind := CertifiedMessage.kind_of_messageView hview
      by_cases hone : m.counter = 1
      · obtain ⟨-, hzero, hcv⟩ := (CertifiedMessage.succeeds_none hkind).mp (hc.first m hm hone)
        have hv : v = 0 := Option.some.inj (hview.symm.trans hzero)
        rw [hq] at hcv
        have hcv' : q.ui.counter.toNat = 1 := congrArg UInt64.toNat hcv
        refine .inl ⟨.inl ⟨hv, hcv'⟩, ?_⟩
        rw [show (CertifiedMessage.prepare q).counter.toNat = 1 from hcv']
        exact .first hknown hqview hv hcv'
      · obtain ⟨x, hx, -, hxcv, hsucc⟩ := hc.next m hm hone
        by_cases hxkind : x.kind = .viewChange
        · have hnv := ((CertifiedMessage.succeeds_after_viewChange hkind hxkind).mp hsucc).1
          rw [hq] at hnv
          cases hnv
        · obtain ⟨-, hxview, hcv⟩ := (CertifiedMessage.succeeds_after_other hkind hxkind).mp hsucc
          rw [hq] at hcv
          obtain ⟨reqs, -, hx'⟩ := ih x.counter.toNat (by omega) hx (hxview ▸ hview) rfl
          obtain ⟨l, hl⟩ : ∃ l, Chronicle Known v x.proposed.counter.toNat l := by
            rcases hx' with ⟨-, hl⟩ | ⟨k, l, hk, -, -, hl⟩
            · exact ⟨_, hl⟩
            · exact ⟨_, hk ▸ hl⟩
          exact .inr ⟨_, l, hcv, rfl, hl, .prepare hknown hqview hcv hl⟩
    · rw [hnv] at hknown hreqs ⊢
      exact .inl ⟨.inr ⟨nv, hknown, hnvview, rfl⟩, .newView hknown hnvview rfl hreqs⟩

theorem logged_newView {nv : NewView} (hc : Closed crypto config Known) (hx : Known x)
    (hnv : x.proposed = .newView nv) (hview : nv.newView = v) :
    ∃ reqs, Logged Known v [x] x.proposed.counter.toNat reqs := by
  obtain ⟨reqs, hreqs⟩ := exists_requests (hc.sound x hx)
    (CertifiedMessage.messageView_of_newView hnv)
  have hknown := hc.proposed x hx
  have hreplay := @replay_newView_cons x nv [] hnv (by simp)
  rw [hnv] at hknown hreqs ⊢
  rw [show extractPreparedRequests nv.newViewCert = some reqs from hreqs] at hreplay
  refine ⟨reqs, List.cons_ne_nil _ _, by simpa using hreplay, .newView hknown hview rfl hreqs, ?_,
    _, .inr ⟨nv, hknown, hview, rfl⟩, rfl⟩
  intro y hy
  rw [List.mem_singleton.mp hy, hnv]

theorem logged_first (hc : Closed crypto config Known) (hx : Known x)
    (hprep : x.proposed.kind = .prepare) (hview : x.messageView = some 0)
    (hcv : x.proposed.counter = 1) :
    ∃ reqs, Logged Known 0 [x] x.proposed.counter.toNat reqs := by
  rcases CertifiedMessage.proposed_cases hview with ⟨q, hq, hqview⟩ | ⟨nv, hnv, -⟩
  · have hknown := hc.proposed x hx
    rw [hq] at hknown
    have hone : q.ui.counter.toNat = 1 := by
      rw [hq] at hcv
      exact congrArg UInt64.toNat hcv
    rw [hcv, UInt64.toNat_one]
    refine ⟨[q.request], List.cons_ne_nil _ _, ?_, .first hknown hqview rfl hone, ?_,
      1, .inl ⟨rfl, rfl⟩, rfl⟩
    · rw [replay_prepares (by simpa using ⟨q, hq⟩)]
      simp [CertifiedMessage.preparedRequest, hq]
    · intro y hy
      rw [List.mem_singleton.mp hy, hcv]
      exact Nat.le_refl 1
  · rw [hnv] at hprep
    cases hprep

section Unique

variable (hsha : Function.Injective crypto.sha256) (huniq : UniqueUI crypto)
include hsha huniq

theorem counter_eq {nv nv' : NewView} (hc : Closed crypto config Known)
    (hnv : Known (.newView nv)) (hnv' : Known (.newView nv')) (hview : nv.newView = nv'.newView) :
    nv.ui.counter.toNat = nv'.ui.counter.toNat := by
  refine hc.counter_newView hsha huniq hnv hnv' ?_ hview
  have hprimary := hc.replicaID_proposed hnv rfl
  have hprimary' := hc.replicaID_proposed hnv' rfl
  rw [hview] at hprimary
  exact isPrimary_unique hprimary hprimary'

theorem starts_unique {a a' : ℕ} (hc : Closed crypto config Known) (h : Starts Known v a)
    (h' : Starts Known v a') : a = a' := by
  rcases h with ⟨hv, rfl⟩ | ⟨nv, hnv, hview, rfl⟩
  · rcases h' with ⟨-, rfl⟩ | ⟨nv', hnv', hview', -⟩
    · rfl
    · exact absurd (hview'.trans hv) (hc.newView_pos hnv')
  · rcases h' with ⟨hv, -⟩ | ⟨nv', hnv', hview', rfl⟩
    · exact absurd (hview.trans hv) (hc.newView_pos hnv)
    · exact hc.counter_eq hsha huniq hnv hnv' (hview.trans hview'.symm)

theorem content_eq {q q' : Prepare} (hc : Closed crypto config Known) (hq : Known (.prepare q))
    (hq' : Known (.prepare q')) (hview : q.view = q'.view)
    (hcv : q.ui.counter.toNat = q'.ui.counter.toNat) : q.request.content = q'.request.content := by
  have hsame := hc.same_proposed huniq hq hq' (congrArg some hview) rfl hcv
  obtain ⟨_, heq, -, hcontent⟩ := SameAuthen.of_prepare hsha hsame
  cases heq
  exact hcontent

/-- The chronicle of a proposal is the beginning of that of any later one in its view, and there is
only one for each counter. -/
theorem chronicle_prefix (hc : Closed crypto config Known) (h : Chronicle Known v k l)
    (h' : Chronicle Known v k' l') (hle : k ≤ k') : l <+: l' ∧ (k = k' → l = l') := by
  induction h' generalizing k l with
  | first hq' hview' hzero hcv' =>
      have hpos := hc.chronicle_pos h
      cases h with
      | first hq hview _ hcv =>
          rw [hc.content_eq hsha huniq hq hq' (hview.trans hview'.symm) (hcv.trans hcv'.symm)]
          exact ⟨List.prefix_refl _, fun _ => rfl⟩
      | newView hnv hview => exact absurd (hview.trans hzero) (hc.newView_pos hnv)
      | prepare _ _ _ hprev =>
          have := hc.chronicle_pos hprev
          omega
  | @newView nv' k' reqs' hnv' hview' hcv' hreqs' =>
      cases h with
      | first _ _ hzero => exact absurd (hview'.trans hzero) (hc.newView_pos hnv')
      | @newView nv _ reqs hnv hview hcv hreqs =>
          have hcounter := hc.counter_eq hsha huniq hnv hnv' (hview.trans hview'.symm)
          have hsame := hc.same_proposed huniq hnv hnv' (congrArg some (hview.trans hview'.symm))
            rfl hcounter
          obtain ⟨r, r', hr, hr', heq⟩ := NewView.sameExtracted hsha huniq (hc.sound _ hnv)
            (hc.sound _ hnv') hsame.authenBytes
          cases hr.symm.trans hreqs
          cases hr'.symm.trans hreqs'
          rw [heq]
          exact ⟨List.prefix_refl _, fun _ => rfl⟩
      | prepare _ _ _ hprev =>
          obtain ⟨nv, -, hnv, hview, hnvle, -⟩ :=
            chronicle_newView (fun hz => hc.newView_pos hnv' (hview'.trans hz)) hprev
          have := hc.counter_eq hsha huniq hnv hnv' (hview.trans hview'.symm)
          omega
  | @prepare q' k' l' hq' hview' hcv' hprev' ih =>
      rcases Nat.lt_or_eq_of_le hle with hlt | rfl
      · exact ⟨(ih h (by omega)).1.trans (List.prefix_append _ _), fun heq => by omega⟩
      · cases h with
        | first =>
            have := hc.chronicle_pos hprev'
            omega
        | newView hnv hview hcv =>
            obtain ⟨nv, -, hnv', hview', hnvle, -⟩ :=
              chronicle_newView (fun hz => hc.newView_pos hnv (hview.trans hz)) hprev'
            have := hc.counter_eq hsha huniq hnv hnv' (hview.trans hview'.symm)
            omega
        | prepare hq hview hcv hprev =>
            rw [(ih hprev (Nat.le_refl _)).2 rfl,
              hc.content_eq hsha huniq hq hq' (hview.trans hview'.symm) (hcv.trans hcv'.symm)]
            exact ⟨List.prefix_refl _, fun _ => rfl⟩

/-- The log of a ViewChange ends with the ViewChange for the view it is about, or it tells the
chronicle through its last entry. -/
theorem logged {r : UInt32} {cv : UInt64} {log : List CertifiedMessage}
    (hc : Closed crypto config Known) (hlog : BackwardsLog r v (log ++ [x]).reverse cv)
    (hknown : ∀ y ∈ log ++ [x], Known y) :
    (x.kind = .viewChange ∧ log = [] ∧ x.viewAfter = v) ∨
      x.messageView = some v ∧ ∃ reqs,
        Logged Known v (withoutLeading (log ++ [x])) x.proposed.counter.toNat reqs := by
  -- induction on the log from its end, as it grows when its replica goes on
  induction log using List.reverseRecOn generalizing x cv with
  | nil =>
      have hx := hknown x List.mem_cons_self
      obtain ⟨-, -, hstart, hfirst, -⟩ := BackwardsLog.concat.mp hlog
      cases hs : x.startsView with
      | some u =>
          obtain ⟨rfl, -⟩ := hstart u hs
          cases x with
          | viewChange vc => exact .inl ⟨rfl, rfl, Option.some.inj hs⟩
          | newView nv => exact .inr ⟨hs, hc.logged_newView hx rfl (Option.some.inj hs)⟩
          | _ => cases hs
      | none =>
          obtain ⟨rfl, hone⟩ := hfirst hs rfl
          have hkind := CertifiedMessage.kind_of_startsView hs
          obtain ⟨hprep, hview, hcv⟩ :=
            (CertifiedMessage.succeeds_none hkind).mp (hc.first x hx hone)
          rw [List.nil_append, withoutLeading_of_kind hkind]
          exact .inr ⟨hview, hc.logged_first hx hprep hview hcv⟩
  | append_singleton log y ih =>
      have hx := hknown x (by simp)
      have hy := hknown y (by simp)
      obtain ⟨hid, -, hstart, -, hbefore⟩ := BackwardsLog.concat.mp hlog
      obtain ⟨hyid, hycv, -⟩ := BackwardsLog.concat.mp hbefore
      have hkind : x.kind ≠ .viewChange := by
        refine CertifiedMessage.kind_of_startsView (Option.eq_none_iff_forall_ne_some.mpr ?_)
        intro u hu
        exact absurd (hstart u hu).2 (by simp)
      have hcv : x.counter.toNat = y.counter.toNat + 1 :=
        (UInt64.eq_add_one_iff (hc.sound x hx).uiValid.1).mp hycv.symm
      have hsucc := hc.succeeds hsha huniq hy hx (hyid.trans hid.symm) hcv
      rcases ih hbefore (fun z hz => hknown z (List.mem_append_left _ hz)) with
        ⟨hykind, rfl, hyview⟩ | ⟨hyview, reqs, hlogged⟩
      · obtain ⟨hnv, hview⟩ := (CertifiedMessage.succeeds_after_viewChange hkind hykind).mp hsucc
        rw [hyview] at hview
        have hwithout : withoutLeading ([] ++ [y] ++ [x]) = [x] := by
          cases y <;> first | rfl | cases hykind
        rw [hwithout]
        rcases CertifiedMessage.proposed_cases hview with ⟨q, hq, -⟩ | ⟨nv, hnv', hnvview⟩
        · rw [hq] at hnv
          cases hnv
        · exact .inr ⟨hview, hc.logged_newView hx hnv' hnvview⟩
      · have hykind := CertifiedMessage.kind_of_messageView hyview
        obtain ⟨hprep, hview, hpcv⟩ :=
          (CertifiedMessage.succeeds_after_other hkind hykind).mp hsucc
        rw [hyview] at hview
        rw [withoutLeading_append (by simp)]
        rcases CertifiedMessage.proposed_cases hview with ⟨q, hq, hqview⟩ | ⟨nv, hnv, -⟩
        · refine .inr ⟨hview, reqs ++ [q.request], ?_⟩
          have hknown' := hc.proposed x hx
          rw [hq] at hknown' hpcv
          rw [hq, show (CertifiedMessage.prepare q).counter.toNat = _ from hpcv]
          exact hlogged.concat hknown' hq hqview hpcv
        · rw [hnv] at hprep
          cases hprep

end Unique

end Closed

end MinBFT
