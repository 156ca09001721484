import MinBFT.Accepting

/-!
# Collecting requests for a view change

The collector of ReqViewChanges is always at the expected view, and a certificate is complete as
soon as enough replicas have asked for the next view. So a replica that has processed requests for
the next view from enough replicas expects that view.
-/

namespace MinBFT

namespace Replica

variable {p : Params} {order : List Request} {C : Replica → Message → Prop} {s s' : Replica}
  {m : Message}

structure Collecting (p : Params) (s : Replica) : Prop where
  view : s.reqViewChanges.view = s.expectedView
  room : s.reqViewChanges.collected.length < p.config.viewChangeCertSize.toNat
  nodup : (s.reqViewChanges.collected.map (·.replicaID)).Nodup
  newView : ∀ rvc ∈ s.reqViewChanges.collected, rvc.newView = s.expectedView + 1

/-- What processing a ReqViewChange does: it is ignored, collected, or it completes a certificate
for the view after the expected one. -/
inductive Asked (p : Params) (rvc : ReqViewChange) (s : Replica) : Replica → Prop where
  | ignored (hignore : rvc.newView ≠ s.expectedView + 1 ∨
      rvc.replicaID ∈ s.reqViewChanges.collected.map (·.replicaID)) :
      Asked p rvc s (s.handle (.reqViewChange rvc))
  | collected (hview : rvc.newView = s.expectedView + 1)
      (hnew : rvc.replicaID ∉ s.reqViewChanges.collected.map (·.replicaID))
      (hroom : s.reqViewChanges.collected.length + 1 < p.config.viewChangeCertSize.toNat) :
      Asked p rvc s ({ s with reqViewChanges :=
        ⟨s.reqViewChanges.view, s.reqViewChanges.collected ++ [rvc]⟩ }.handle (.reqViewChange rvc))
  | left (hview : rvc.newView = s.expectedView + 1) (hlt : s.expectedView < rvc.newView)
      (hnew : rvc.replicaID ∉ s.reqViewChanges.collected.map (·.replicaID))
      (hfull : p.config.viewChangeCertSize.toNat ≤ s.reqViewChanges.collected.length + 1)
      (hnext : (s.leaveView p rvc (s.reqViewChanges.collected ++ [rvc])).reqViewChanges =
        ⟨rvc.newView, []⟩) :
      Asked p rvc s ((s.leaveView p rvc (s.reqViewChanges.collected ++ [rvc])).handle
        (.reqViewChange rvc))

theorem Collecting.asked {rvc : ReqViewChange} (h : Collecting p s) (hpos : 1 ≤ rvc.newView)
    (htrans : Transition p order (.reqViewChange rvc) s s') : Asked p rvc s s' := by
  have hlt : rvc.newView = s.expectedView + 1 → s.expectedView < rvc.newView := by
    intro heq
    rw [heq] at hpos ⊢
    have hne : s.expectedView + 1 ≠ 0 := fun hz => absurd (hz ▸ hpos) (by decide)
    rw [UInt64.lt_iff_toNat_lt, UInt64.toNat_add_one_of_ne_zero hne]
    exact Nat.lt_succ_self _
  cases htrans with
  | refused hfails => cases hfails
  | reqViewChange hcert =>
      rw [collectReqViewChange]
      rcases ReqViewChangeCollector.collect_cases p.config.viewChangeCertSize.toNat rvc
        s.reqViewChanges with ⟨hignore, heq⟩ | ⟨hview, hnew, ⟨hroom, heq⟩ | ⟨-, heq⟩⟩
      · rw [h.view] at hignore
        rw [heq]
        exact .ignored hignore
      · rw [h.view] at hview
        rw [heq]
        exact .collected hview hnew hroom
      · rw [h.view] at hview
        rw [viewChangeCert, heq] at hcert
        rcases hcert with hnone | hle
        · cases hnone
        · exact absurd hle (UInt64.not_le.mpr (hlt hview))
  | leftView hcert _ =>
      obtain ⟨hview, hnew, hfull, rfl, hnext⟩ := ReqViewChangeCollector.of_cert hcert
      rw [← hview] at hnext
      rw [h.view] at hview
      exact .left hview (hlt hview) hnew hfull hnext

theorem Collecting.of_asked {rvc : ReqViewChange} (h : Collecting p s)
    (hpos : 0 < p.config.viewChangeCertSize.toNat) (hasked : Asked p rvc s s') :
    Collecting p s' := by
  cases hasked with
  | ignored => exact ⟨h.view, h.room, h.nodup, h.newView⟩
  | collected hview hnew hroom =>
      refine ⟨h.view, ?_, ?_, ?_⟩
      · simpa [handle] using hroom
      · simp only [handle, List.map_append, List.map_singleton]
        rw [← List.concat_eq_append]
        exact h.nodup.concat hnew
      · intro x hx
        rcases List.mem_append.mp hx with hx | hx
        · exact h.newView x hx
        · cases List.mem_singleton.mp hx
          exact hview
  | left _ _ _ _ hnext =>
      refine ⟨?_, ?_, ?_, ?_⟩
      · simp only [handle, hnext]
        rfl
      · simp only [handle, hnext]
        exact hpos
      · simp only [handle, hnext]
        exact List.nodup_nil
      · simp only [handle, hnext]
        exact fun _ hx => absurd hx List.not_mem_nil

theorem Collecting.transition (h : Collecting p s) (hpos : 0 < p.config.viewChangeCertSize.toNat)
    (hm : DeeplyWellFormed p m) (htrans : Transition p order m s s') : Collecting p s' := by
  cases m with
  | reqViewChange rvc => exact h.of_asked hpos (h.asked hm.self.2 htrans)
  | _ => cases htrans <;> exact ⟨h.view, h.room, h.nodup, h.newView⟩

theorem viewChangeCertSize_pos {config : Config} (h : config.Tolerant) :
    0 < config.viewChangeCertSize.toNat := by
  rw [Config.toNat_viewChangeCertSize h]
  exact Nat.succ_pos _

theorem Run.collecting (hid : p.id < p.config.n) (htol : p.config.Tolerant) (h : s.Run p C) :
    Collecting p s := by
  have hpos := viewChangeCertSize_pos htol
  induction h with
  | init =>
      exact ⟨rfl, hpos, List.nodup_nil, fun _ hx => absurd hx List.not_mem_nil⟩
  | process hrun hadmits _ htrans _ ih =>
      exact ih.transition hpos (hrun.admitted hid hadmits) htrans
  | timeout _ _ _ ih =>
      unfold requestViewChange
      split_ifs <;> exact ⟨ih.view, ih.room, ih.nodup, ih.newView⟩

def Gathered (v : UInt64) (r : UInt32) (s : Replica) : Prop :=
  v ≤ s.expectedView ∨
    s.expectedView + 1 = v ∧ r ∈ s.reqViewChanges.collected.map (·.replicaID)

theorem Gathered.transition {v : UInt64} {r : UInt32} (h : s.Gathered v r)
    (hcol : Collecting p s) (hm : DeeplyWellFormed p m) (htrans : Transition p order m s s') :
    s'.Gathered v r := by
  rcases h with hle | ⟨hv, hmem⟩
  · exact .inl (UInt64.le_trans hle htrans.expectedView_le)
  · cases m with
    | reqViewChange rvc =>
        cases hcol.asked hm.self.2 htrans with
        | ignored => exact .inr ⟨hv, hmem⟩
        | collected =>
            refine .inr ⟨hv, ?_⟩
            simp only [handle, List.map_append]
            exact List.mem_append_left _ hmem
        | left hview => exact .inl (UInt64.le_of_eq (hv.symm.trans hview.symm))
    | _ => cases htrans <;> exact .inr ⟨hv, hmem⟩

/-- Once processed, a request for the view is gathered. -/
theorem Collecting.gathered {rvc : ReqViewChange} {v : UInt64} (h : Collecting p s)
    (hpos : 1 ≤ rvc.newView) (hv : rvc.newView = v)
    (hnear : v ≤ s.expectedView ∨ s.expectedView + 1 = v)
    (htrans : Transition p order (.reqViewChange rvc) s s') : s'.Gathered v rvc.replicaID := by
  rcases hnear with hle | hnext
  · exact .inl (UInt64.le_trans hle htrans.expectedView_le)
  · cases h.asked hpos htrans with
    | ignored hignore =>
        exact .inr ⟨hnext, hignore.resolve_left fun hne => hne (hv.trans hnext.symm)⟩
    | collected =>
        refine .inr ⟨hnext, ?_⟩
        simp only [handle, List.map_append]
        exact List.mem_append_right _ List.mem_cons_self
    | left => exact .inl (UInt64.le_of_eq hv.symm)

/-- Enough requests gathered mean that the view is expected. -/
theorem Collecting.le_of_gathered {v : UInt64} {cert : List ReqViewChange} (h : Collecting p s)
    (hlen : p.config.viewChangeCertSize.toNat ≤ cert.length)
    (hnodup : (cert.map (·.replicaID)).Nodup)
    (hall : ∀ rvc ∈ cert, s.Gathered v rvc.replicaID) : v ≤ s.expectedView := by
  by_contra hlt
  have hsub : cert.map (·.replicaID) ⊆ s.reqViewChanges.collected.map (·.replicaID) := by
    intro r hr
    obtain ⟨rvc, hrvc, rfl⟩ := List.mem_map.mp hr
    exact ((hall rvc hrvc).resolve_left hlt).2
  have hle := (List.subperm_of_subset hnodup hsub).length_le
  rw [List.length_map, List.length_map] at hle
  exact absurd (hlen.trans hle) (Nat.not_le.mpr h.room)

end Replica

end MinBFT
