import MinBFT.Collecting
import MinBFT.ValidLog

/-!
# The replica's own message log

The log is reset exactly when a message that starts a view is generated, and that message becomes
the first in the log. So the certified messages in the log are at any time such that a ViewChange
generated next passes validation.
-/

namespace MinBFT

namespace Output

variable {p : Params} {v : UInt64} {o : Output} {mk : UI → CertifiedMessage}

/-- A ViewChange generated now would carry a valid log for the view. -/
def LogFor (p : Params) (v : UInt64) (o : Output) : Prop :=
  validateMessageLog p.id v (certified o.log) (o.usigCounter + 1) = .ok ()

theorem LogFor.generate (h : LogFor p v o) (hid : ∀ ui, (mk ui).replicaID = p.id)
    (hui : ∀ ui, (mk ui).ui = ui) (hstarts : ∀ ui, (mk ui).startsView = none) :
    LogFor p v (o.generate p mk) := by
  obtain ⟨hempty, hback⟩ := validateMessageLog_eq_ok.mp h
  refine validateMessageLog_eq_ok.mpr ?_
  rw [log_generate, certified_append, certified_singleton, usigCounter_generate,
    BackwardsLog.concat, counter_assignUI hui]
  refine ⟨fun hnil => absurd hnil (by simp), hid _, rfl, ?_, fun _ => hempty, hback⟩
  intro w hw
  rw [assignUI, hstarts] at hw
  cases hw

/-- A message that starts the view is the first after a reset. -/
theorem logFor_start (hlog : o.log = []) (hid : ∀ ui, (mk ui).replicaID = p.id)
    (hui : ∀ ui, (mk ui).ui = ui) (hstarts : ∀ ui, (mk ui).startsView = some v) :
    LogFor p v (o.generate p mk) := by
  refine validateMessageLog_eq_ok.mpr ?_
  rw [log_generate, hlog, List.nil_append, certified_singleton, usigCounter_generate]
  refine ⟨fun hnil => absurd hnil (List.cons_ne_nil _ _), hid _, ?_, ?_, ?_, trivial⟩
  · rw [counter_assignUI hui]
  · intro w hw
    rw [assignUI, hstarts] at hw
    exact ⟨(Option.some.inj hw).symm, rfl⟩
  · intro hnone
    rw [assignUI, hstarts] at hnone
    cases hnone

theorem LogFor.applyRequest (h : LogFor p v o) (w : UInt64) (r : Request) :
    LogFor p v (o.applyRequest p w r) := by
  unfold Output.applyRequest
  split_ifs
  · exact LogFor.generate h (fun _ => rfl) (fun _ => rfl) fun _ => rfl
  · exact h

theorem LogFor.applyPendingRequests (h : LogFor p v o) (pendingReqs : RequestList)
    (order : List Request) (w : UInt64) :
    LogFor p v (o.applyPendingRequests p pendingReqs order w) := by
  unfold Output.applyPendingRequests
  induction pendingReqs.all order generalizing o with
  | nil => exact h
  | cons r rs ih => exact ih (h.applyRequest w r)

theorem LogFor.respond (h : LogFor p v o) (order : List Request) (pendingReqs : RequestList)
    (m : CertifiedMessage) : LogFor p v (Replica.respond p order pendingReqs m o) := by
  cases m with
  | prepare m =>
      simp only [Replica.respond]
      split_ifs
      · exact h
      · exact h.generate (fun _ => rfl) (fun _ => rfl) fun _ => rfl
  | newView m =>
      have hpending := h.applyPendingRequests pendingReqs order m.newView
      simp only [Replica.respond]
      split_ifs
      · exact hpending
      · exact hpending.generate (fun _ => rfl) (fun _ => rfl) fun _ => rfl
  | _ => exact h

end Output

def Proper (p : Params) (m : Message) : Prop :=
  WellFormed p.crypto p.config m ∧
    ∀ vc, m = .certified (.viewChange vc) → validateViewChange p.config vc = .ok ()

theorem Valid.proper {p : Params} {m : Message} (h : Valid p.crypto p.config m) : Proper p m := by
  refine ⟨h.wellFormed, ?_⟩
  rintro vc rfl
  exact (valid_certified.mp h).2.2

theorem Proper.sound {p : Params} {m : Message} (h : Proper p m) : Sound p.crypto m := by
  obtain ⟨hwf, hvc⟩ := h
  cases m with
  | certified m =>
      refine ⟨hwf.2.1, ?_⟩
      cases m with
      | prepare m => trivial
      | commit m => exact hwf.2.2.2
      | viewChange m =>
          exact ⟨hwf.2.2, (validateViewChange_eq_ok.mp (hvc m rfl)).2.2⟩
      | newView m => exact hwf.2.2.1
  | _ => trivial

namespace Replica

variable {p : Params} {order : List Request} {C : Replica → Message → Prop} {s s' : Replica}
  {m : Message}

theorem Transition.logFor (h : Transition p order m s s')
    (hlog : s.output.LogFor p s.expectedView) : s'.output.LogFor p s'.expectedView := by
  cases h with
  | requested => exact hlog.applyRequest _ _
  | newView _ _ hview =>
      exact Output.logFor_start rfl (fun _ => rfl) (fun _ => rfl) fun _ => congrArg some hview
  | applied => exact hlog.respond _ _ _
  | leftView =>
      exact Output.logFor_start rfl (fun _ => rfl) (fun _ => rfl) fun _ => rfl
  | _ => exact hlog

theorem Run.logFor (h : s.Run p C) : s.output.LogFor p s.expectedView := by
  induction h with
  | init => rfl
  | process _ _ _ htrans _ ih => exact htrans.logFor ih
  | @timeout s view _ _ _ ih =>
      rw [expectedView_requestViewChange]
      unfold requestViewChange
      split_ifs
      · exact ih
      · exact ih
      · simpa [Output.LogFor, Output.generateReqViewChange, Output.append] using ih

/-- Every ViewChange a replica generates passes validation. -/
theorem Run.validateViewChange_made {vc : ViewChange} (hid : p.id < p.config.n)
    (htol : p.config.Tolerant) (h : s.Run p C) (hm : DeeplyWellFormed p m)
    (hmade : Made p s m (.certified (.viewChange vc))) :
    validateViewChange p.config vc = .ok () := by
  have hcol := h.collecting hid htol
  cases hmade with
  | viewChange hcert hui =>
      obtain ⟨hview, hnew, hlen, rfl, -⟩ := ReqViewChangeCollector.of_cert hcert
      rw [hcol.view] at hview
      refine validateViewChange_eq_ok.mpr ⟨hm.self.2, ?_, ?_⟩
      · refine validateViewChangeCert_eq_ok.mpr ⟨by simpa using hlen, ?_, ?_⟩
        · intro x hx
          rcases List.mem_append.mp hx with hx | hx
          · exact (hcol.newView x hx).trans hview.symm
          · exact congrArg _ (List.mem_singleton.mp hx)
        · rw [List.map_append, List.map_singleton]
          rw [← List.concat_eq_append]
          exact hcol.nodup.concat hnew
      · rw [hui, hview, UInt64.add_sub_cancel]
        exact h.logFor

theorem Run.proper (hid : p.id < p.config.n) (htol : p.config.Tolerant) (h : s.Run p C) :
    Sources (Proper p) s := by
  refine h.sources_of (fun _ hx => hx.proper) (fun _ _ hv => ⟨⟨hid, hv⟩, fun _ hx => nomatch hx⟩) ?_
  intro s m g hrun hadmits hm hmade htag
  have hwf : DeeplyWellFormed p m := hm.mono fun _ hx => hx.1
  refine ⟨hmade.wellFormed hid hwf htag, ?_⟩
  rintro vc rfl
  exact hrun.validateViewChange_made hid htol hwf hmade

/-- Every message that is processed is sound through and through. -/
theorem Run.sound (hid : p.id < p.config.n) (htol : p.config.Tolerant) (h : s.Run p C)
    (hadmits : s.Admits p m) : HereditarilySound p.crypto m :=
  ((h.proper hid htol).admitted (fun _ hx => hx.proper) hadmits).mono fun _ hx => hx.sound

end Replica

end MinBFT
