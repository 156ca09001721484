import MinBFT.Preserving

/-!
# Runs in which peers follow the protocol

The validators look at the order of a replica's certified messages only inside a message log, and
there at little more than their counters. A run conforms when each message that is next in sequence
follows the one processed before it as the protocol says. What has been seen in such a run comes
from well-behaved streams of messages.
-/

namespace MinBFT

namespace Replica

variable {p : Params} {order : List Request} {C : Replica → Message → Prop} {s s' : Replica}
  {m : Message} {c : CertifiedMessage}

/-- A message next in sequence follows the one processed before it, unless its replica is trusted to
see to that itself. -/
def Conforms (trusted : Finset UInt32) (s : Replica) : Message → Prop
  | .certified c => c.replicaID ∉ trusted → s.Next c →
      c.Succeeds (s.processedOf c.replicaID).getLast?
  | _ => True

instance (trusted : Finset UInt32) (s : Replica) : (m : Message) → Decidable (s.Conforms trusted m)
  | .certified c => inferInstanceAs (Decidable (c.replicaID ∉ trusted → s.Next c →
      c.Succeeds (s.processedOf c.replicaID).getLast?))
  | .hello _ => .isTrue trivial
  | .request _ => .isTrue trivial
  | .reply _ => .isTrue trivial
  | .reqViewChange _ => .isTrue trivial

def Seen (s : Replica) (c : CertifiedMessage) : Prop :=
  .certified c ∈ s.handled ∨ c ∈ s.execution.commitments.accepted

theorem not_seen_init : ¬ (Replica.init p).Seen c :=
  not_or_intro List.not_mem_nil List.not_mem_nil

/-- The last message processed of a replica is the one that `lastUI` refers to. -/
theorem History.getLast?_processedOf (h : History p s) (r : UInt32) :
    ((s.processedOf r).getLast? = none ∧ s.lastUI r = 0) ∨
      ∃ x ∈ s.processed, (s.processedOf r).getLast? = some x ∧ x.replicaID = r ∧
        x.counter = s.lastUI r := by
  have hseq := h.sequence r
  rcases List.eq_nil_or_concat (s.processedOf r) with hnil | ⟨l, x, hl⟩
  · rw [hnil] at hseq
    have hzero := congrArg List.length hseq
    rw [List.map_nil, List.length_nil, List.length_range'] at hzero
    exact .inl ⟨by rw [hnil]; rfl, UInt64.toNat_inj.mp hzero.symm⟩
  · rw [List.concat_eq_append] at hl
    have hx : x ∈ s.processedOf r := by
      rw [hl]
      simp
    obtain ⟨hproc, hid⟩ := List.mem_filter.mp hx
    refine .inr ⟨x, hproc, by rw [hl, List.getLast?_concat], beq_iff_eq.mp hid, ?_⟩
    have hlen := congrArg List.length hseq
    rw [hl, List.length_map, List.length_append, List.length_singleton, List.length_range'] at hlen
    rw [hl, ← hlen, List.range'_concat, List.map_append, List.map_singleton] at hseq
    have hlast := (List.append_inj' hseq rfl).2
    rw [List.cons.injEq] at hlast
    refine UInt64.toNat_inj.mp (hlast.1.trans ?_)
    omega

/-- What is seen after a transition has been seen before, or has just been processed. -/
theorem Transition.seen_cases (h : Transition p order m s s')
    (hbound : s.execution.commitments.lastView ≤ s.expectedView) (hc : s'.Seen c) :
    s.Seen c ∨ m = .certified c ∧
      (s.Next c ∨ s'.processed = s.processed ∧ .certified c ∈ s'.handled) := by
  have hnew : ∀ {c' : CertifiedMessage}, m = .certified c' → .certified c' ∈ s'.handled →
      s.Next c' ∨ s'.processed = s.processed ∧ .certified c' ∈ s'.handled := by
    intro c' hm hhandled
    rcases h.lastUI_cases with ⟨-, hproc⟩ | ⟨c₁, hm₁, hnext, -⟩
    · exact .inr ⟨hproc, hhandled⟩
    · cases hm.symm.trans hm₁
      exact .inl hnext
  rcases hc with hc | hc
  · rcases h.handled_cases with heq | ⟨heq, -⟩
    · exact .inl (.inl (heq ▸ hc))
    · have hc' := hc
      rw [heq] at hc'
      rcases List.mem_append.mp hc' with hc' | hc'
      · exact .inl (.inl hc')
      · have hm := (List.mem_singleton.mp hc').symm
        exact .inr ⟨hm, hnew hm hc⟩
  · rcases h.commitments_cases with heq | ⟨c', done, hm, happ, -, hrec⟩
    · exact .inl (.inr (heq ▸ hc))
    · rw [(Commitments.recorded hbound hrec).accepted] at hc
      rcases List.mem_append.mp hc with hc | hc
      · exact .inl (.inr hc)
      · cases List.mem_singleton.mp hc
        exact .inr ⟨hm, .inl happ.next⟩

theorem Transition.seen_of_seen (h : Transition p order m s s')
    (hbound : s.execution.commitments.lastView ≤ s.expectedView) (hc : s.Seen c) : s'.Seen c := by
  refine hc.imp (fun hc => h.handled_prefix.subset hc) fun hc => ?_
  rcases h.commitments_cases with heq | ⟨c', done, -, -, -, hrec⟩
  · exact heq ▸ hc
  · rw [(Commitments.recorded hbound hrec).accepted]
    exact List.mem_append_left _ hc

/-- What holds of every message that may be processed holds of all that have been seen. -/
theorem Run.seen_of {P : CertifiedMessage → Prop} (hid : p.id < p.config.n)
    (htol : p.config.Tolerant)
    (hP : ∀ (s : Replica) c, s.Run p C → s.Admits p (.certified c) → P c) (h : s.Run p C) :
    ∀ c, s.Seen c → P c := by
  induction h with
  | init => exact fun _ hc => absurd hc not_seen_init
  | @process s s' m order hrun hadmits _ htrans _ ih =>
      intro c hc
      rcases htrans.seen_cases (hrun.tracks hid htol).bound hc with hc | ⟨rfl, -⟩
      · exact ih c hc
      · exact hP s c hrun hadmits
  | timeout _ _ _ ih => simpa [Seen] using ih

/-- What is embedded in a message that has been seen has been handled. -/
theorem Run.embedded_of_seen (hid : p.id < p.config.n) (htol : p.config.Tolerant)
    (h : s.Run p C) (hc : s.Seen c) : ∀ x ∈ (Message.certified c).embedded, x ∈ s.handled := by
  induction h with
  | init => exact absurd hc not_seen_init
  | @process s s' m order hrun hadmits _ htrans _ ih =>
      intro x hx
      refine htrans.handled_prefix.subset ?_
      rcases htrans.seen_cases (hrun.tracks hid htol).bound hc with hc | ⟨rfl, -⟩
      · exact ih hc x hx
      · exact hadmits.embedded x hx
  | timeout _ _ _ ih =>
      intro x hx
      rw [handled_requestViewChange]
      exact ih (by simpa [Seen] using hc) x hx

def Placed (s : Replica) (c : CertifiedMessage) : Prop :=
  (c.counter = 1 → c.Succeeds none) ∧ (c.counter ≠ 1 → ∃ x ∈ s.processed,
    x.replicaID = c.replicaID ∧ c.counter.toNat = x.counter.toNat + 1 ∧ c.Succeeds (some x))

theorem History.placed_of_next (h : History p s) (hne : c.counter ≠ 0) (hnext : s.Next c)
    (hcond : s.Conforms ∅ (.certified c)) : s.Placed c := by
  have hsucc := hcond (Finset.notMem_empty _) hnext
  have hcv := (UInt64.eq_add_one_iff hne).mp hnext
  rcases h.getLast?_processedOf c.replicaID with ⟨hnone, hzero⟩ | ⟨x, hx, hsome, hid, hlast⟩
  · rw [hnone] at hsucc
    refine ⟨fun _ => hsucc, fun hone => absurd ?_ hone⟩
    rw [← UInt64.toNat_inj, hcv, hzero]
    rfl
  · rw [hsome] at hsucc
    have hpos := (h.wellFormed _ (h.processed x hx)).self.2.1.1
    rw [← hlast] at hcv
    refine ⟨fun hone => absurd ?_ hpos, fun _ => ⟨x, hx, hid, hcv, hsucc⟩⟩
    rw [hone, UInt64.toNat_one] at hcv
    rw [← UInt64.toNat_inj, UInt64.toNat_zero]
    omega

theorem Placed.mono (h : s.Placed c) (hsub : s.processed ⊆ s'.processed) : s'.Placed c := by
  refine ⟨h.1, fun hne => ?_⟩
  obtain ⟨x, hx, hrest⟩ := h.2 hne
  exact ⟨x, hsub hx, hrest⟩

theorem Placed.congr {c' : CertifiedMessage} (h : s.Placed c)
    (hsha : Function.Injective p.crypto.sha256) (hsame : SameAuthen p.crypto.sha256 c c')
    (hist : History p s) (huniq : UniqueUI p.crypto) : s.Placed c' := by
  obtain ⟨hfirst, hnext⟩ := h
  rw [hsame.counter] at hfirst hnext
  refine ⟨fun hone => (hfirst hone).congr_none hsha hsame, fun hne => ?_⟩
  obtain ⟨x, hx, hid, hcv, hsucc⟩ := hnext hne
  have hui := (hist.wellFormed _ (hist.processed x hx)).self.2.1
  exact ⟨x, hx, hid.trans hsame.replicaID, hcv,
    hsucc.congr hsha hsame (huniq.sameAuthen hui hui rfl rfl)⟩

section Conforming

variable (hid : p.id < p.config.n) (htol : p.config.Tolerant)
  (hsha : Function.Injective p.crypto.sha256) (huniq : UniqueUI p.crypto)
include hid htol hsha huniq

theorem Run.placed (h : s.Run p (Conforms ∅)) : ∀ c, s.Seen c → s.Placed c := by
  induction h with
  | init => exact fun _ hc => absurd hc not_seen_init
  | @process s s' m order hrun hadmits hcond htrans htags ih =>
      have hist := hrun.history hid
      have hist' := (Run.process hrun hadmits hcond htrans htags).history hid
      have hsub : s.processed ⊆ s'.processed := by
        rcases htrans.lastUI_cases with ⟨-, hproc⟩ | ⟨c, -, -, -, -, hproc⟩
        · rw [hproc]
          exact List.Subset.refl _
        · rw [hproc]
          exact List.subset_append_left _ _
      intro c hc
      rcases htrans.seen_cases (hrun.tracks hid htol).bound hc with hc | ⟨rfl, hnext | ⟨hproc, hc⟩⟩
      · exact (ih c hc).mono hsub
      · have hwf := hrun.admitted hid hadmits
        exact (hist.placed_of_next hwf.self.2.1.1 hnext hcond).mono hsub
      · -- an old message has the place of the one processed with its counter
        obtain ⟨x, hx, hsame⟩ := hist'.exists_sameAuthen huniq hc
        have hplaced := (ih x (.inl (hist.processed x (hproc ▸ hx)))).mono hsub
        exact hplaced.congr hsha hsame hist' huniq
  | timeout _ _ _ ih =>
      intro c hc
      have hplaced := ih c (by simpa [Seen] using hc)
      exact hplaced.mono (by simp)

theorem Run.sequenced (h : s.Run p (Conforms ∅)) : Sequenced p.crypto s.Seen := by
  have hist := h.history hid
  have hplaced := h.placed hid htol hsha huniq
  refine ⟨h.seen_of hid htol fun _ _ hrun hadmits => hrun.sound hid htol hadmits,
    fun c hc => (hplaced c hc).1, fun c hc hne => ?_⟩
  obtain ⟨x, hx, hrest⟩ := (hplaced c hc).2 hne
  exact ⟨x, .inl (hist.processed x hx), hrest⟩

/-- A NewView that follows a ViewChange for its view does not return to an earlier one. -/
theorem Run.noReturn (h : s.Run p (Conforms ∅)) (hadmits : s.Admits p m)
    (hcond : s.Conforms ∅ m) : s.NoReturn p m := by
  unfold NoReturn
  split
  · rename_i nv
    intro hne hnext x hx hkind hxid v hv
    have hist := h.history hid
    have hseq := h.sequenced hid htol hsha huniq
    have hsucc := hcond (Finset.notMem_empty _) hnext
    have hnvkind : (CertifiedMessage.newView nv).kind ≠ .viewChange := by
      simp [CertifiedMessage.kind]
    rcases hist.getLast?_processedOf nv.replicaID with ⟨hnone, -⟩ | ⟨y, hy, hsome, hyid, hlast⟩
    · rw [show (s.processedOf (CertifiedMessage.newView nv).replicaID).getLast? = none from hnone]
        at hsucc
      have hprep := ((CertifiedMessage.succeeds_none hnvkind).mp hsucc).1
      cases hprep
    · rw [show (s.processedOf (CertifiedMessage.newView nv).replicaID).getLast? = some y from hsome]
        at hsucc
      have hle := UInt64.le_iff_toNat_le.mp (hist.certified x (hist.processed x hx))
      have hview := hseq.viewAfter_le hsha huniq (.inl (hist.processed x hx))
        (.inl (hist.processed y hy)) (hxid.trans hyid.symm) (by rw [hlast, ← hxid]; exact hle)
      rw [← hsucc.viewAfter_eq hnvkind] at hview
      cases x with
      | viewChange vc =>
          cases hv
          exact UInt64.le_iff_toNat_le.mpr hview
      | _ => cases hkind
  · trivial

theorem Run.validated (h : s.Run p (Conforms ∅)) :
    ∀ c, s.Seen c → ∀ nv, c = .newView nv → validateNewView p.config nv = .ok () := by
  have hsources : ∀ {s : Replica}, s.Run p (Conforms ∅) → Sources (fun m => ∀ nv,
      m = .certified (.newView nv) → validateNewView p.config nv = .ok ()) s := by
    intro s hrun
    refine hrun.sources_of (fun x hx nv hnv => ?_) (fun _ _ _ _ hnv => nomatch hnv) ?_
    · subst hnv
      exact (valid_certified.mp hx).2.2
    · rintro s m g hrun hadmits - hmade - nv rfl
      exact (hrun.imp fun s m hrun hadmits hcond => hrun.noReturn hid htol hsha huniq hadmits
        hcond).validateNewView_made hid htol huniq hadmits hmade
  refine h.seen_of hid htol fun s c hrun hadmits nv hnv => ?_
  have hherit := (hsources hrun).admitted (fun x hx nv hnv => by
    subst hnv
    exact (valid_certified.mp hx).2.2) hadmits
  exact hherit.self nv (congrArg _ hnv)

theorem Run.closed (h : s.Run p (Conforms ∅)) : Closed p.crypto p.config s.Seen where
  toSequenced := h.sequenced hid htol hsha huniq
  wellFormed := h.seen_of hid htol fun _ _ hrun hadmits => (hrun.admitted hid hadmits).self
  proposed := by
    intro c hc
    cases c with
    | commit c => exact .inl (h.embedded_of_seen hid htol hc _ (List.mem_singleton.mpr rfl))
    | _ => exact hc
  messageLog := fun vc hvc x hx => .inl (h.embedded_of_seen hid htol hvc _
    (List.mem_append_right _ (List.mem_map.mpr ⟨x, hx, rfl⟩)))
  newViewCert := fun nv hnv vc hvc => .inl (h.embedded_of_seen hid htol hnv _
    (List.mem_map.mpr ⟨vc, hvc, rfl⟩))
  validated := fun nv hnv => h.validated hid htol hsha huniq _ hnv nv rfl

end Conforming

end Replica

end MinBFT
