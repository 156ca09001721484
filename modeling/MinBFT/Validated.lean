import MinBFT.Lib.EState
import MinBFT.Validation

/-!
# What a validated message satisfies

Each validator accepts exactly the messages with the properties stated here. Proofs about the
protocol use these characterizations and never unfold a validator.
-/

namespace MinBFT

theorem check_bind_eq_ok {α : Type} {ok : Bool} {e : Error} {x : Except Fault α} {a : α} :
    (check ok e >>= fun _ => x) = .ok a ↔ ok = true ∧ x = .ok a := by
  cases ok <;> simp [check, bind, Except.bind]

theorem bind_unit_eq_ok {x y : Except Fault Unit} :
    (x >>= fun _ => y) = .ok () ↔ x = .ok () ∧ y = .ok () := by
  cases x <;> simp [bind, Except.bind]

section Certificates

variable {α : Type} {replicaID : α → UInt32} {newViewOf : α → UInt64} {message : α → Message}
  {newView : UInt64}

theorem certReplicas_eq_ok {seen q : List UInt32} {cert : List α} :
    certReplicas replicaID newViewOf message newView seen cert = .ok q ↔
      (∀ m ∈ cert, newViewOf m = newView) ∧ (cert.map replicaID).Nodup ∧
        (∀ m ∈ cert, replicaID m ∉ seen) ∧ q = (cert.map replicaID).reverse ++ seen := by
  induction cert generalizing seen with
  | nil => simp [certReplicas, eq_comm]
  | cons m cert ih =>
      rw [certReplicas, check_bind_eq_ok, check_bind_eq_ok, ih]
      simp only [beq_iff_eq, Bool.not_eq_eq_eq_not, Bool.not_true, List.contains_eq_mem,
        decide_eq_false_iff_not, List.mem_cons, not_or, List.map_cons, List.nodup_cons,
        List.mem_map, List.reverse_cons, List.append_assoc, List.singleton_append,
        forall_eq_or_imp]
      constructor
      · rintro ⟨hview, hseen, hviews, hnodup, hnew, rfl⟩
        refine ⟨⟨hview, hviews⟩, ⟨?_, hnodup⟩, ⟨hseen, fun x hx => (hnew x hx).2⟩, rfl⟩
        rintro ⟨x, hx, heq⟩
        exact (hnew x hx).1 heq
      · rintro ⟨⟨hview, hviews⟩, ⟨hdup, hnodup⟩, ⟨hseen, hnew⟩, rfl⟩
        exact ⟨hview, hseen, hviews, hnodup,
          fun x hx => ⟨fun heq => hdup ⟨x, hx, heq⟩, hnew x hx⟩, rfl⟩

end Certificates

theorem validateViewChangeCert_eq_ok {config : Config} {newView : UInt64}
    {cert : List ReqViewChange} :
    validateViewChangeCert config newView cert = .ok () ↔
      config.viewChangeCertSize.toNat ≤ cert.length ∧ (∀ m ∈ cert, m.newView = newView) ∧
        (cert.map (·.replicaID)).Nodup := by
  rw [validateViewChangeCert, check_bind_eq_ok, decide_eq_true_iff]
  cases h : certReplicas (·.replicaID) (·.newView) Message.reqViewChange newView [] cert with
  | ok q =>
      obtain ⟨hview, hnodup, -⟩ := certReplicas_eq_ok.mp h
      constructor
      · rintro ⟨hlen, -⟩
        exact ⟨hlen, hview, hnodup⟩
      · rintro ⟨hlen, -⟩
        exact ⟨hlen, rfl⟩
  | error e =>
      have hq : ¬ ((∀ m ∈ cert, m.newView = newView) ∧ (cert.map (·.replicaID)).Nodup) := by
        rintro ⟨hview, hnodup⟩
        rw [certReplicas_eq_ok.mpr ⟨hview, hnodup, by simp, rfl⟩] at h
        cases h
      simp only [bind, Except.bind, reduceCtorEq, and_false, false_iff, not_and]
      exact fun _ hview hnodup => hq ⟨hview, hnodup⟩

theorem validateNewViewCert_eq_ok {config : Config} {newPrimary : UInt32} {newView : UInt64}
    {cert : List ViewChange} :
    validateNewViewCert config newPrimary newView cert = .ok () ↔
      config.viewChangeCertSize.toNat ≤ cert.length ∧ (∀ vc ∈ cert, vc.newView = newView) ∧
        (cert.map (·.replicaID)).Nodup ∧ newPrimary ∈ cert.map (·.replicaID) := by
  rw [validateNewViewCert, check_bind_eq_ok, decide_eq_true_iff]
  cases h : certReplicas (·.replicaID) (·.newView)
      (fun vc => Message.certified (.viewChange vc)) newView [] cert with
  | ok q =>
      obtain ⟨hview, hnodup, _, rfl⟩ := certReplicas_eq_ok.mp h
      simp only [bind, Except.bind, check_eq_ok, List.contains_eq_mem, decide_eq_true_eq,
        List.append_nil, List.mem_reverse]
      constructor
      · rintro ⟨hlen, hmem⟩
        exact ⟨hlen, hview, hnodup, hmem⟩
      · rintro ⟨hlen, _, _, hmem⟩
        exact ⟨hlen, hmem⟩
  | error e =>
      have hq : ¬ ((∀ m ∈ cert, m.newView = newView) ∧ (cert.map (·.replicaID)).Nodup) := by
        rintro ⟨hview, hnodup⟩
        rw [certReplicas_eq_ok.mpr ⟨hview, hnodup, by simp, rfl⟩] at h
        cases h
      simp only [bind, Except.bind, reduceCtorEq, and_false, false_iff, not_and]
      exact fun _ hview hnodup _ => hq ⟨hview, hnodup⟩

/-- A message log read backwards, as `validateMessageLog` accepts it: counters step down by one
from `nextCV`, and only the very first message may start a view, which it must unless the log
reaches down to counter one of view zero. -/
def BackwardsLog (replicaID : UInt32) (view : UInt64) : List CertifiedMessage → UInt64 → Prop
  | [], _ => True
  | m :: before, nextCV =>
      m.replicaID = replicaID ∧ m.counter + 1 = nextCV ∧
        (∀ v, m.startsView = some v → v = view ∧ before = []) ∧
        (m.startsView = none → before = [] → view = 0 ∧ m.counter = 1) ∧
        BackwardsLog replicaID view before m.counter

theorem validateLogBackwards_eq_ok {replicaID : UInt32} {view : UInt64}
    {log : List CertifiedMessage} {nextCV : UInt64} :
    validateLogBackwards replicaID view log nextCV = .ok () ↔
      BackwardsLog replicaID view log nextCV := by
  induction log generalizing nextCV with
  | nil => simp [validateLogBackwards, BackwardsLog]
  | cons m before ih =>
      rw [validateLogBackwards, check_bind_eq_ok, check_bind_eq_ok, BackwardsLog]
      simp only [beq_iff_eq]
      refine and_congr_right fun hid => and_congr_right fun hcv => ?_
      have hprev : nextCV - 1 = m.counter := by rw [← hcv]; simp
      cases hs : m.startsView with
      | some msgView =>
          simp only [check_bind_eq_ok, ih, hprev, beq_iff_eq, List.isEmpty_iff]
          simp only [Option.some.injEq, forall_eq', reduceCtorEq, false_implies, true_and]
          tauto
      | none =>
          rw [bind_unit_eq_ok, check_eq_ok, ih, hprev]
          simp only [Bool.not_eq_eq_eq_not, Bool.not_true, Bool.and_eq_false_imp,
            List.isEmpty_iff, reduceCtorEq, false_implies, implies_true, true_and,
            Bool.or_eq_false_iff, decide_eq_false_iff_not, bne_eq_false_iff_eq, forall_const]
          have hz : ¬ view > 0 ↔ view = 0 := by grind
          rw [hz]

theorem validateMessageLog_eq_ok {replicaID : UInt32} {view : UInt64}
    {log : List CertifiedMessage} {nextCV : UInt64} :
    validateMessageLog replicaID view log nextCV = .ok () ↔
      (log = [] → view = 0 ∧ nextCV = 1) ∧ BackwardsLog replicaID view log.reverse nextCV := by
  rw [validateMessageLog, check_bind_eq_ok, validateLogBackwards_eq_ok]
  have hz : ¬ view > 0 ↔ view = 0 := by grind
  simp only [Bool.not_eq_eq_eq_not, Bool.not_true, Bool.and_eq_false_imp, List.isEmpty_iff,
    Bool.or_eq_false_iff, decide_eq_false_iff_not, bne_eq_false_iff_eq, hz]

theorem validateViewChange_eq_ok {config : Config} {m : ViewChange} :
    validateViewChange config m = .ok () ↔
      1 ≤ m.newView ∧ validateViewChangeCert config m.newView m.viewChangeCert = .ok () ∧
        validateMessageLog m.replicaID (m.newView - 1) m.messageLog m.ui.counter = .ok () := by
  rw [validateViewChange, check_bind_eq_ok, bind_unit_eq_ok, Except.mapError_eq_ok,
    Except.mapError_eq_ok, decide_eq_true_iff]

theorem validateNewView_eq_ok {config : Config} {m : NewView} :
    validateNewView config m = .ok () ↔
      1 ≤ m.newView ∧ isPrimary m.newView m.replicaID config.n = true ∧
        validateNewViewCert config m.replicaID m.newView m.newViewCert = .ok () := by
  rw [validateNewView, check_bind_eq_ok, check_bind_eq_ok, Except.mapError_eq_ok,
    decide_eq_true_iff]

theorem validateCommit_eq_ok {m : Commit} :
    validateCommit m = .ok () ↔ m.replicaID ≠ m.proposal.replicaID ∧
      ((∃ p, m.proposal = .prepare p) ∨ ∃ nv, m.proposal = .newView nv) := by
  rw [validateCommit, check_bind_eq_ok, bne_iff_ne]
  cases m.proposal <;> simp

def UIValid (crypto : Crypto) (m : CertifiedMessage) : Prop :=
  m.counter ≠ 0 ∧ m.uiAccepted crypto = true

theorem verifyUI_eq_ok {crypto : Crypto} {m : CertifiedMessage} :
    verifyUI crypto m = .ok () ↔ UIValid crypto m := by
  rw [verifyUI, check_bind_eq_ok, check_eq_ok, bne_iff_ne]
  rfl

def Valid (crypto : Crypto) (config : Config) (m : Message) : Prop :=
  validateMessage crypto config m = .ok ()

section Facts

variable {crypto : Crypto} {config : Config}

theorem valid_certified {m : CertifiedMessage} :
    Valid crypto config (.certified m) ↔ m.replicaID < config.n ∧ UIValid crypto m ∧
      (match m with
        | .prepare m => validatePrepare config m
        | .commit m => validateCommit m
        | .viewChange m => validateViewChange config m
        | .newView m => validateNewView config m) = .ok () := by
  rw [Valid, validateMessage, check_bind_eq_ok, decide_eq_true_iff]
  unfold validateCertifiedMessage
  rewrite [bind_unit_eq_ok, Except.mapError_eq_ok, verifyUI_eq_ok]
  cases m <;> exact Iff.rfl

theorem Valid.replicaID_lt {m : CertifiedMessage} (h : Valid crypto config (.certified m)) :
    m.replicaID < config.n := (valid_certified.mp h).1

theorem Valid.uiValid {m : CertifiedMessage} (h : Valid crypto config (.certified m)) :
    UIValid crypto m := (valid_certified.mp h).2.1

theorem Valid.isPrimary {p : Prepare} (h : Valid crypto config (.certified (.prepare p))) :
    isPrimary p.view p.replicaID config.n = true :=
  check_eq_ok.mp (valid_certified.mp h).2.2

theorem Valid.commit {c : Commit} (h : Valid crypto config (.certified (.commit c))) :
    c.replicaID ≠ c.proposal.replicaID ∧
      ((∃ p, c.proposal = .prepare p) ∨ ∃ nv, c.proposal = .newView nv) :=
  validateCommit_eq_ok.mp (valid_certified.mp h).2.2

theorem Valid.viewChange {vc : ViewChange}
    (h : Valid crypto config (.certified (.viewChange vc))) :
    1 ≤ vc.newView ∧ validateViewChangeCert config vc.newView vc.viewChangeCert = .ok () ∧
      validateMessageLog vc.replicaID (vc.newView - 1) vc.messageLog vc.ui.counter = .ok () :=
  validateViewChange_eq_ok.mp (valid_certified.mp h).2.2

theorem Valid.newView {nv : NewView} (h : Valid crypto config (.certified (.newView nv))) :
    1 ≤ nv.newView ∧ MinBFT.isPrimary nv.newView nv.replicaID config.n = true ∧
      validateNewViewCert config nv.replicaID nv.newView nv.newViewCert = .ok () :=
  validateNewView_eq_ok.mp (valid_certified.mp h).2.2

theorem Valid.reqViewChange {m : ReqViewChange} (h : Valid crypto config (.reqViewChange m)) :
    m.replicaID < config.n ∧ 1 ≤ m.newView := by
  rw [Valid, validateMessage, check_bind_eq_ok, validateReqViewChange, check_bind_eq_ok,
    decide_eq_true_iff, decide_eq_true_iff] at h
  exact ⟨h.1, h.2.1⟩

end Facts

end MinBFT
