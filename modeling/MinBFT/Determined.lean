import MinBFT.Ledger
import MinBFT.ValidLog

/-!
# A ViewChange or NewView is determined by its authenticated content

The bytes a USIG certifies for a ViewChange leave out its message log, and those for a NewView leave
out the ViewChanges themselves. Because counters in a log are consecutive and one counter certifies
one content, two sound ViewChanges with the same identifier nevertheless carry logs that agree entry
by entry, and two sound NewViews with the same content yield the same prepared requests.
-/

namespace MinBFT

def Request.content (m : Request) : UInt32 × UInt64 × Bytes :=
  (m.clientID, m.sequence, m.operation)

section

variable {crypto : Crypto}

theorem SameAuthen.startsView {m m' : CertifiedMessage} (h : SameAuthen crypto.sha256 m m') :
    m.startsView = m'.startsView := by
  have hb := h.authenBytes
  cases m with
  | prepare p =>
      obtain ⟨p', rfl, -⟩ := CertifiedMessage.eq_prepare_of_authenBytes_eq hb
      rfl
  | commit c =>
      obtain ⟨c', rfl, -⟩ := CertifiedMessage.eq_commit_of_authenBytes_eq hb
      rfl
  | viewChange vc =>
      obtain ⟨vc', rfl, hv⟩ := CertifiedMessage.eq_viewChange_of_authenBytes_eq hb
      exact congrArg some hv
  | newView nv =>
      obtain ⟨nv', rfl, hb'⟩ := CertifiedMessage.eq_newView_of_authenBytes_eq hb
      exact congrArg some (NewView.authenBytes_inj hb').1

theorem BackwardsLog.cons_ne_nil {replicaID : UInt32} {view : UInt64}
    {log before : List CertifiedMessage} {m m' : CertifiedMessage} {nextCV nextCV' : UInt64}
    (h : BackwardsLog replicaID view (m :: log) nextCV)
    (h' : BackwardsLog replicaID view (m' :: before) nextCV')
    (hs : m.startsView = m'.startsView) (hcv : m.counter = m'.counter)
    (hpos : ∀ x ∈ before, x.counter ≠ 0) (hlog : log = []) : before = [] := by
  obtain ⟨-, -, hstart, hnone, -⟩ := h
  obtain ⟨-, -, hstart', -, hbefore⟩ := h'
  cases hv : m.startsView with
  | some v => exact (hstart' v (hs ▸ hv)).2
  | none =>
      -- the log reaches down to counter one, so nothing with a nonzero counter can come before
      have hone := (hnone hv hlog).2
      cases before with
      | nil => rfl
      | cons x before =>
          have hx := hbefore.2.1
          have := hpos x List.mem_cons_self
          rw [← hcv, hone] at hx
          grind

/-- Two valid logs of one replica that end below the same counter agree entry by entry. -/
theorem BackwardsLog.forall₂ (huniq : UniqueUI crypto) {replicaID : UInt32} {view : UInt64}
    {log log' : List CertifiedMessage} {nextCV : UInt64}
    (h : BackwardsLog replicaID view log nextCV) (h' : BackwardsLog replicaID view log' nextCV)
    (hui : ∀ m ∈ log, UIValid crypto m) (hui' : ∀ m ∈ log', UIValid crypto m)
    (hnil : log = [] ↔ log' = []) : List.Forall₂ (SameAuthen crypto.sha256) log log' := by
  induction log generalizing log' nextCV with
  | nil =>
      rw [hnil.mp rfl]
      exact .nil
  | cons m log ih =>
      cases log' with
      | nil => exact absurd (hnil.mpr rfl) (List.cons_ne_nil m log)
      | cons m' log' =>
          have hcv : m.counter = m'.counter := by
            have := h.2.1.trans h'.2.1.symm
            grind
          have hm : SameAuthen crypto.sha256 m m' :=
            huniq.sameAuthen (hui m List.mem_cons_self) (hui' m' List.mem_cons_self)
              (h.1.trans h'.1.symm) hcv
          have hnil' : log = [] ↔ log' = [] :=
            ⟨h.cons_ne_nil h' hm.startsView hcv fun x hx => (hui' x (.tail m' hx)).1,
              h'.cons_ne_nil h hm.startsView.symm hcv.symm fun x hx => (hui x (.tail m hx)).1⟩
          have hrest := h'.2.2.2.2
          rw [← hcv] at hrest
          exact .cons hm (ih h.2.2.2.2 hrest (fun x hx => hui x (.tail m hx))
            (fun x hx => hui' x (.tail m' hx)) hnil')

theorem messageLog_nil_iff {vc vc' : ViewChange}
    (h : HereditarilySound crypto (.certified (.viewChange vc)))
    (h' : HereditarilySound crypto (.certified (.viewChange vc')))
    (hcv : vc.ui.counter = vc'.ui.counter) (hnil : vc.messageLog = []) :
    vc'.messageLog = [] := by
  have hone := (h.validLog.1 hnil).2
  rcases List.eq_nil_or_concat vc'.messageLog with hn | ⟨l, m, hl⟩
  · exact hn
  · have hback := h'.validLog.2
    rw [hl, List.concat_eq_append, List.reverse_append, List.reverse_singleton,
      List.singleton_append, BackwardsLog, ← hcv, hone] at hback
    have hm : m ∈ vc'.messageLog := by
      rw [hl]
      simp
    have hpos := (h'.messageLog hm).uiValid.1
    have := hback.2.1
    grind

theorem messageLog_sameAuthen (huniq : UniqueUI crypto) {vc vc' : ViewChange}
    (h : HereditarilySound crypto (.certified (.viewChange vc)))
    (h' : HereditarilySound crypto (.certified (.viewChange vc')))
    (hid : vc.replicaID = vc'.replicaID) (hcv : vc.ui.counter = vc'.ui.counter) :
    List.Forall₂ (SameAuthen crypto.sha256) vc.messageLog vc'.messageLog := by
  have hview : vc.newView = vc'.newView := by
    obtain ⟨_, heq, hv⟩ := CertifiedMessage.eq_viewChange_of_authenBytes_eq
      (huniq.sameAuthen h.uiValid h'.uiValid hid hcv).authenBytes
    cases heq
    exact hv
  have hlog := h.validLog.2
  have hlog' := h'.validLog.2
  rw [← hid, ← hcv, ← hview] at hlog'
  have hnil : vc.messageLog.reverse = [] ↔ vc'.messageLog.reverse = [] := by
    rw [List.reverse_eq_nil_iff, List.reverse_eq_nil_iff]
    exact ⟨messageLog_nil_iff h h' hcv, messageLog_nil_iff h' h hcv.symm⟩
  have hrev := hlog.forall₂ huniq hlog'
    (fun m hm => (h.messageLog (List.mem_reverse.mp hm)).uiValid)
    (fun m hm => (h'.messageLog (List.mem_reverse.mp hm)).uiValid) hnil
  simpa using List.rel_reverse hrev

def SameIDs (crypto : Crypto) (cert cert' : List ViewChange) : Prop :=
  List.Forall₂ (fun vc vc' => vc.replicaID = vc'.replicaID ∧ vc.ui.counter = vc'.ui.counter ∧
    HereditarilySound crypto (.certified (.viewChange vc)) ∧
    HereditarilySound crypto (.certified (.viewChange vc'))) cert cert'

/-- Two sound log entries with the same content that both stand for a proposal. -/
structure SameEntry (crypto : Crypto) (m m' : CertifiedMessage) : Prop where
  same : SameAuthen crypto.sha256 m m'
  sound : HereditarilySound crypto (.certified m)
  sound' : HereditarilySound crypto (.certified m')
  proposed : (∃ p, m.proposed = .prepare p) ∨ ∃ nv, m.proposed = .newView nv

theorem sameIDs_of_certIDs {cert cert' : List ViewChange} (h : certIDs cert = certIDs cert')
    (hs : ∀ vc ∈ cert, HereditarilySound crypto (.certified (.viewChange vc)))
    (hs' : ∀ vc ∈ cert', HereditarilySound crypto (.certified (.viewChange vc))) :
    SameIDs crypto cert cert' := by
  induction cert generalizing cert' with
  | nil =>
      cases cert' with
      | nil => exact .nil
      | cons vc' cert' => cases h
  | cons vc cert ih =>
      cases cert' with
      | nil => cases h
      | cons vc' cert' =>
          obtain ⟨hhead, htail⟩ := List.cons_eq_cons.mp h
          obtain ⟨hid, hcv⟩ := Prod.ext_iff.mp hhead
          exact .cons ⟨hid, hcv, hs vc List.mem_cons_self, hs' vc' List.mem_cons_self⟩
            (ih htail (fun x hx => hs x (.tail vc hx)) fun x hx => hs' x (.tail vc' hx))

theorem SameAuthen.proposed {m m' : CertifiedMessage} (h : SameAuthen crypto.sha256 m m') :
    SameAuthen crypto.sha256 m.proposed m'.proposed := by
  have hb := h.authenBytes
  cases m with
  | prepare p =>
      obtain ⟨p', rfl, -⟩ := CertifiedMessage.eq_prepare_of_authenBytes_eq hb
      exact h
  | commit c =>
      obtain ⟨c', rfl, hb'⟩ := CertifiedMessage.eq_commit_of_authenBytes_eq hb
      obtain ⟨hid, hbytes, hcv⟩ := Commit.authenBytes_inj hb'
      exact ⟨CertifiedMessage.kind_eq_of_authenBytes_eq hbytes, hid, hcv, hbytes⟩
  | viewChange vc =>
      obtain ⟨vc', rfl, -⟩ := CertifiedMessage.eq_viewChange_of_authenBytes_eq hb
      exact h
  | newView nv =>
      obtain ⟨nv', rfl, -⟩ := CertifiedMessage.eq_newView_of_authenBytes_eq hb
      exact h

theorem forall₂_foldl_longer {R : CertifiedMessage → CertifiedMessage → Prop}
    {logs logs' : List (List CertifiedMessage)} (h : List.Forall₂ (List.Forall₂ R) logs logs')
    {a a' : List CertifiedMessage} (ha : List.Forall₂ R a a') :
    List.Forall₂ R (logs.foldl longer a) (logs'.foldl longer a') := by
  induction h generalizing a a' with
  | nil => exact ha
  | cons hl _ ih =>
      rw [List.foldl_cons, List.foldl_cons]
      apply ih
      unfold longer
      rw [ha.length_eq, hl.length_eq]
      split_ifs
      · exact hl
      · exact ha

theorem forall₂_and_mem {α β : Type} {R : α → β → Prop} {l : List α} {l' : List β}
    (h : List.Forall₂ R l l') : List.Forall₂ (fun a b => R a b ∧ a ∈ l ∧ b ∈ l') l l' := by
  induction h with
  | nil => exact .nil
  | cons hab _ ih =>
      exact .cons ⟨hab, List.mem_cons_self, List.mem_cons_self⟩
        (ih.imp fun _ _ hx => ⟨hx.1, .tail _ hx.2.1, .tail _ hx.2.2⟩)

theorem forall₂_withoutLeading {l l' : List CertifiedMessage}
    (h : List.Forall₂ (SameAuthen crypto.sha256) l l') :
    List.Forall₂ (SameAuthen crypto.sha256) (withoutLeading l) (withoutLeading l') := by
  cases h with
  | nil => exact .nil
  | @cons m m' l l' hm hl =>
      have hk := hm.kind
      cases m <;> cases m' <;> first | exact hl | exact .cons hm hl | cases hk

theorem sameEntry_withoutLeading (huniq : UniqueUI crypto) {vc vc' : ViewChange}
    (h : HereditarilySound crypto (.certified (.viewChange vc)))
    (h' : HereditarilySound crypto (.certified (.viewChange vc')))
    (hid : vc.replicaID = vc'.replicaID) (hcv : vc.ui.counter = vc'.ui.counter) :
    List.Forall₂ (SameEntry crypto) (withoutLeading vc.messageLog)
      (withoutLeading vc'.messageLog) := by
  have hlogs := forall₂_withoutLeading (messageLog_sameAuthen huniq h h' hid hcv)
  refine (forall₂_and_mem hlogs).imp fun m m' hm => ?_
  exact ⟨hm.1, h.messageLog (mem_of_mem_withoutLeading hm.2.1),
    h'.messageLog (mem_of_mem_withoutLeading hm.2.2), proposed_of_mem_withoutLeading h hm.2.1⟩

theorem SameIDs.maxLog (huniq : UniqueUI crypto) {cert cert' : List ViewChange}
    (h : SameIDs crypto cert cert') :
    List.Forall₂ (SameEntry crypto) (scanCert cert).2 (scanCert cert').2 := by
  rw [scanCert_snd, scanCert_snd]
  apply forall₂_foldl_longer _ .nil
  rw [List.forall₂_map_left_iff, List.forall₂_map_right_iff]
  exact h.imp fun vc vc' hvc =>
    sameEntry_withoutLeading huniq hvc.2.2.1 hvc.2.2.2 hvc.1 hvc.2.1

theorem SameIDs.leading (huniq : UniqueUI crypto) {cert cert' : List ViewChange}
    (h : SameIDs crypto cert cert') : SameIDs crypto (scanCert cert).1 (scanCert cert').1 := by
  rw [scanCert_fst, scanCert_fst]
  induction h with
  | nil => exact .nil
  | @cons vc vc' cert cert' hvc _ ih =>
      obtain ⟨hid, hcv, hs, hs'⟩ := hvc
      have hlogs := messageLog_sameAuthen huniq hs hs' hid hcv
      have hmem : ∀ x ∈ vc.messageLog, HereditarilySound crypto (.certified x) :=
        fun x hx => hs.messageLog hx
      have hmem' : ∀ x ∈ vc'.messageLog, HereditarilySound crypto (.certified x) :=
        fun x hx => hs'.messageLog hx
      rw [List.filterMap_cons, List.filterMap_cons]
      cases hl : vc.messageLog with
      | nil =>
          rw [hl] at hlogs
          cases hl' : vc'.messageLog with
          | nil => exact ih
          | cons _ _ =>
              rw [hl'] at hlogs
              cases hlogs
      | cons m l =>
          cases hl' : vc'.messageLog with
          | nil =>
              rw [hl, hl'] at hlogs
              cases hlogs
          | cons m' l' =>
              rw [hl] at hlogs hmem
              rw [hl'] at hlogs hmem'
              obtain ⟨hm, -⟩ := List.forall₂_cons.mp hlogs
              have hk := hm.kind
              cases m <;> cases m' <;> first
                | exact ih
                | exact .cons ⟨hm.replicaID, hm.counter, hmem _ List.mem_cons_self,
                    hmem' _ List.mem_cons_self⟩ ih
                | cases hk

def SameExtracted (cert cert' : List ViewChange) : Prop :=
  ∃ reqs reqs', extractPreparedRequests cert = some reqs ∧
    extractPreparedRequests cert' = some reqs' ∧
    reqs.map Request.content = reqs'.map Request.content

theorem SameEntry.replayStep (hsha : Function.Injective crypto.sha256)
    {m m' : CertifiedMessage} (h : SameEntry crypto m m') {prepared prepared' : List Request}
    (hacc : prepared.map Request.content = prepared'.map Request.content)
    (ih : ∀ nv nv' : NewView, m.proposed = .newView nv →
      SameIDs crypto nv.newViewCert nv'.newViewCert →
      SameExtracted nv.newViewCert nv'.newViewCert) :
    ∃ next next', replayStep extractPreparedRequests prepared m = some next ∧
      replayStep extractPreparedRequests prepared' m' = some next' ∧
      next.map Request.content = next'.map Request.content := by
  have hsame := h.same.proposed
  rcases h.proposed with ⟨p, hp⟩ | ⟨nv, hnv⟩
  · rw [hp] at hsame
    obtain ⟨p', hp', hbytes⟩ := CertifiedMessage.eq_prepare_of_authenBytes_eq hsame.authenBytes
    obtain ⟨-, hclient, hseq, hop⟩ := Prepare.authenBytes_inj hsha hbytes
    have hcontent : p.request.content = p'.request.content := by
      rw [Request.content, Request.content, hclient, hseq, hop]
    exact ⟨prepared ++ [p.request], prepared' ++ [p'.request], replayStep_prepare hp,
      replayStep_prepare hp', by simp [hacc, hcontent]⟩
  · rw [hnv] at hsame
    obtain ⟨nv', hnv', hbytes⟩ := CertifiedMessage.eq_newView_of_authenBytes_eq hsame.authenBytes
    have hs := h.sound.proposed
    have hs' := h.sound'.proposed
    rw [hnv] at hs
    rw [hnv'] at hs'
    obtain ⟨reqs, reqs', hreqs, hreqs', heq⟩ := ih nv nv' hnv
      (sameIDs_of_certIDs (NewView.authenBytes_inj hbytes).2 (fun vc hvc => hs.newViewCert hvc)
        fun vc hvc => hs'.newViewCert hvc)
    exact ⟨reqs, reqs', (replayStep_newView hnv).trans hreqs,
      (replayStep_newView hnv').trans hreqs', heq⟩

theorem replay_sameEntry (hsha : Function.Injective crypto.sha256)
    {log log' : List CertifiedMessage} (h : List.Forall₂ (SameEntry crypto) log log')
    (ih : ∀ m ∈ log, ∀ nv nv' : NewView, m.proposed = .newView nv →
      SameIDs crypto nv.newViewCert nv'.newViewCert →
      SameExtracted nv.newViewCert nv'.newViewCert) :
    ∃ reqs reqs', replay log = some reqs ∧ replay log' = some reqs' ∧
      reqs.map Request.content = reqs'.map Request.content := by
  have key : ∀ prepared prepared' : List Request,
      prepared.map Request.content = prepared'.map Request.content →
      ∃ reqs reqs', log.foldlM (replayStep extractPreparedRequests) prepared = some reqs ∧
        log'.foldlM (replayStep extractPreparedRequests) prepared' = some reqs' ∧
        reqs.map Request.content = reqs'.map Request.content := by
    induction h with
    | nil => exact fun prepared prepared' hacc => ⟨prepared, prepared', rfl, rfl, hacc⟩
    | cons hm _ ihlog =>
        intro prepared prepared' hacc
        obtain ⟨next, next', hnext, hnext', heq⟩ :=
          hm.replayStep hsha hacc (ih _ List.mem_cons_self)
        rw [List.foldlM_cons, List.foldlM_cons, hnext, hnext']
        exact ihlog (fun x hx => ih x (.tail _ hx)) next next' heq
  exact key [] [] rfl

/-- Sound certificates with the same identifiers yield the same prepared requests. -/
theorem SameIDs.extract (hsha : Function.Injective crypto.sha256) (huniq : UniqueUI crypto)
    {cert cert' : List ViewChange} (h : SameIDs crypto cert cert') :
    SameExtracted cert cert' := by
  induction hd : certDepth cert using Nat.strong_induction_on generalizing cert cert' with
  | _ d ih =>
    subst hd
    have hlogs := h.maxLog huniq
    have hvcs := h.leading huniq
    by_cases hmax : (scanCert cert).2 = []
    · have hmax' : (scanCert cert').2 = [] := by
        rw [hmax] at hlogs
        exact List.forall₂_nil_left_iff.mp hlogs
      by_cases hnone : (scanCert cert).1 = []
      · have hnone' : (scanCert cert').1 = [] := by
          rw [hnone] at hvcs
          exact List.forall₂_nil_left_iff.mp hvcs
        exact ⟨[], [], extract_of_empty hmax hnone, extract_of_empty hmax' hnone', rfl⟩
      · have hsome' : (scanCert cert').1 ≠ [] := by
          intro hn
          rw [hn] at hvcs
          exact hnone (List.forall₂_nil_right_iff.mp hvcs)
        rw [SameExtracted, extract_of_maxLog_nil hmax hnone,
          extract_of_maxLog_nil hmax' hsome']
        exact ih _ (certDepth_leading_lt (List.length_pos_iff.mpr hnone)) hvcs rfl
    · have hmax' : (scanCert cert').2 ≠ [] := by
        intro hn
        rw [hn] at hlogs
        exact hmax (List.forall₂_nil_right_iff.mp hlogs)
      rw [SameExtracted, extract_of_maxLog_ne_nil hmax, extract_of_maxLog_ne_nil hmax']
      exact replay_sameEntry hsha hlogs fun m hm nv nv' hnv hids =>
        ih _ (certDepth_newView_lt hm hnv) hids rfl

theorem NewView.sameExtracted (hsha : Function.Injective crypto.sha256)
    (huniq : UniqueUI crypto) {nv nv' : NewView}
    (h : HereditarilySound crypto (.certified (.newView nv)))
    (h' : HereditarilySound crypto (.certified (.newView nv')))
    (hbytes : nv.authenBytes = nv'.authenBytes) :
    SameExtracted nv.newViewCert nv'.newViewCert :=
  (sameIDs_of_certIDs (NewView.authenBytes_inj hbytes).2 (fun _ hvc => h.newViewCert hvc)
    fun _ hvc => h'.newViewCert hvc).extract hsha huniq

/-- The few authenticated bytes of a ViewChange or a NewView determine the rest, as far as the
protocol looks at it. -/
theorem determined_by_authenBytes {config : Config} (hsha : Function.Injective crypto.sha256)
    (huniq : UniqueUI crypto) :
    (∀ vc vc' : ViewChange, HereditarilyValid crypto config (.certified (.viewChange vc)) →
      HereditarilyValid crypto config (.certified (.viewChange vc')) →
      vc.replicaID = vc'.replicaID → vc.ui.counter = vc'.ui.counter →
      vc.messageLog.length = vc'.messageLog.length ∧
        List.Forall₂ (SameAuthen crypto.sha256) vc.messageLog vc'.messageLog) ∧
    ∀ nv nv' : NewView, HereditarilyValid crypto config (.certified (.newView nv)) →
      HereditarilyValid crypto config (.certified (.newView nv')) →
      nv.authenBytes = nv'.authenBytes → SameExtracted nv.newViewCert nv'.newViewCert := by
  constructor
  · intro vc vc' h h' hid hcv
    have hlogs := messageLog_sameAuthen huniq h.sound h'.sound hid hcv
    exact ⟨hlogs.length_eq, hlogs⟩
  · intro nv nv' h h' hbytes
    exact NewView.sameExtracted hsha huniq h.sound h'.sound hbytes

end

namespace Concrete

def signedCommit (signature : Bytes) : CertifiedMessage :=
  commit 1 (.prepare (prepare 0 0 { request 0 1 with signature } 1)) 1

def signedViewChange (signature : Bytes) : ViewChange :=
  viewChange 1 1 [signedCommit signature] [0, 1] 2

def signedNewView (signature : Bytes) : NewView :=
  newView 1 1 [signedViewChange signature, viewChange 2 1 [] [0, 1] 1] 3

def signedLedger : List CertifiedMessage :=
  [.prepare (prepare 0 0 (request 0 1) 1), signedCommit [], .viewChange (signedViewChange []),
    .viewChange (viewChange 2 1 [] [0, 1] 1), .newView (signedNewView [])]

/-- Replacing a signature deep inside changes neither a log nor what is extracted. -/
theorem determined_by_authenBytes_signed :
    List.Forall₂ (SameAuthen id) [signedCommit [1]] [signedCommit [2]] ∧
      SameExtracted (signedNewView [1]).newViewCert (signedNewView [2]).newViewCert := by
  have h := @determined_by_authenBytes (ledgerCrypto signedLedger) ⟨3, 1⟩
    (injective_sha256_ledgerCrypto _) (uniqueUI_ledgerCrypto (by decide +kernel))
  have hvalid : ∀ signature ∈ [[1], [2]], accepted (ledgerCrypto signedLedger) ⟨3, 1⟩
      (.certified (.newView (signedNewView signature))) = true := by
    decide +kernel
  have hvc : ∀ signature ∈ [[1], [2]], HereditarilyValid (ledgerCrypto signedLedger) ⟨3, 1⟩
      (.certified (.viewChange (signedViewChange signature))) := fun signature hs =>
    (hereditarilyValid_of_accepted (hvalid signature hs)).newViewCert List.mem_cons_self
  exact ⟨(h.1 _ _ (hvc [1] (by simp)) (hvc [2] (by simp)) rfl rfl).2,
    h.2 _ _ (hereditarilyValid_of_accepted (hvalid [1] (by simp)))
      (hereditarilyValid_of_accepted (hvalid [2] (by simp))) rfl⟩

end Concrete

end MinBFT
