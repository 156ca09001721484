import MinBFT.Ledger
import MinBFT.Quorums
import MinBFT.Validated

/-!
# Accepted configurations

`New` refuses a configuration with `n < 2f + 1`, but computes this bound in 32-bit arithmetic. It
wraps if `f` is at least `2 ^ 31`, and then a configuration can be accepted in which the faulty
replicas outnumber all the others. In every other configuration accepted, certificates have the
sizes they should have, and those that pass validation intersect as the protocol needs it.
-/

namespace MinBFT

inductive NewError where
  | notEnoughNodes (n f : UInt32)
  | cannotConnect (peerID : UInt32)

/-- The loop over all peers stops at the first one that there is no connection to. -/
def startPeerConnections (ownID n : UInt32) (connects : UInt32 → Bool) : Except NewError Unit :=
  match ((List.range n.toNat).map UInt32.ofNat).find? fun peerID =>
      peerID != ownID && !connects peerID with
  | some peerID => .error (.cannotConnect peerID)
  | none => .ok ()

/-- `New`, up to the start of the goroutines. -/
def Node.new (p : Params) (connects : UInt32 → Bool) : Except NewError Node :=
  if p.config.n < 2 * p.config.f + 1 then .error (.notEnoughNodes p.config.n p.config.f)
  else do
    startPeerConnections p.id p.config.n connects
    return .init p

namespace Config

variable {config : Config}

/-- The replicas share one with every commit certificate, and not all of them are faulty. -/
structure Meets (config : Config) (ids : List UInt32) : Prop where
  commitCert : ∀ Q : Finset UInt32, (∀ r ∈ Q, r < config.n) →
    config.commitCertSize.toNat ≤ Q.card → ∃ r ∈ ids, r ∈ Q
  correct : ∀ F : Finset UInt32, F.card ≤ config.f.toNat → ∃ r ∈ ids, r ∉ F

/-- What the protocol needs of the certificate sizes, over the integers. -/
structure Intersecting (config : Config) : Prop where
  tolerant : config.Tolerant
  commitCertSize_pos : 1 ≤ config.commitCertSize.toNat
  commitCertSize_le : config.commitCertSize.toNat ≤ config.n.toNat
  lt_viewChangeCertSize : config.f.toNat < config.viewChangeCertSize.toNat
  viewChangeCertSize_le : config.viewChangeCertSize.toNat + config.f.toNat ≤ config.n.toNat
  viewChangeCert : ∀ newView cert, validateViewChangeCert config newView cert = .ok () →
    (∀ m ∈ cert, m.replicaID < config.n) → config.Meets (cert.map (·.replicaID))
  newViewCert : ∀ newPrimary newView cert,
    validateNewViewCert config newPrimary newView cert = .ok () →
    (∀ m ∈ cert, m.replicaID < config.n) → config.Meets (cert.map (·.replicaID))

/-- More than `f` distinct replicas are not all among `f` of them. -/
theorem Tolerant.exists_not_mem (h : config.Tolerant) {ids : List UInt32} (hnodup : ids.Nodup)
    (hlen : config.viewChangeCertSize.toNat ≤ ids.length) {F : Finset UInt32}
    (hF : F.card ≤ config.f.toNat) : ∃ r ∈ ids, r ∉ F := by
  by_contra hall
  push Not at hall
  have hsub : ids.toFinset ⊆ F := by
    intro r hr
    exact hall r (List.mem_toFinset.mp hr)
  have hcard := Finset.card_le_card hsub
  rw [List.toFinset_card_of_nodup hnodup] at hcard
  rw [toNat_viewChangeCertSize h] at hlen
  omega

theorem Tolerant.meets (h : config.Tolerant) {ids : List UInt32} (hids : ∀ r ∈ ids, r < config.n)
    (hnodup : ids.Nodup) (hlen : config.viewChangeCertSize.toNat ≤ ids.length) :
    config.Meets ids where
  commitCert := by
    intro Q hQ hcard
    have hsub : Q ⊆ replicas config.n := by
      intro r hr
      exact mem_replicas.mpr (hQ r hr)
    exact exists_mem_quorum h hsub hcard hids hnodup hlen
  correct := by
    intro F hF
    exact h.exists_not_mem hnodup hlen hF

theorem Tolerant.intersecting (h : config.Tolerant) : config.Intersecting := by
  have hcommit := toNat_commitCertSize h
  have hviewChange := toNat_viewChangeCertSize h
  have hle : 2 * config.f.toNat + 1 ≤ config.n.toNat := h
  refine ⟨h, commitCertSize_pos h, by omega, by omega, by omega, ?_, ?_⟩
  · intro newView cert hvalid hids
    obtain ⟨hlen, -, hnodup⟩ := validateViewChangeCert_eq_ok.mp hvalid
    apply h.meets _ hnodup
    · rwa [List.length_map]
    · simpa using hids
  · intro newPrimary newView cert hvalid hids
    obtain ⟨hlen, -, hnodup, -⟩ := validateNewViewCert_eq_ok.mp hvalid
    apply h.meets _ hnodup
    · rwa [List.length_map]
    · simpa using hids

/-- The bound that `New` computes is the intended one unless it wraps. -/
theorem toNat_bound (h : config.f.toNat < 2 ^ 31) :
    (2 * config.f + 1).toNat = 2 * config.f.toNat + 1 := by
  simp only [UInt32.toNat_add, UInt32.toNat_mul, UInt32.toNat_ofNat]
  omega

end Config

/-- No replica is created for a configuration below the computed bound. -/
theorem Node.not_lt_of_new {p : Params} {connects : UInt32 → Bool} {s : Node}
    (h : Node.new p connects = .ok s) : ¬ p.config.n < 2 * p.config.f + 1 := by
  intro hlt
  rw [Node.new, if_pos hlt] at h
  cases h

/-- An accepted configuration has what the protocol needs unless its bound has wrapped. -/
theorem Node.new_intersecting_iff {p : Params} {connects : UInt32 → Bool} {s : Node}
    (h : Node.new p connects = .ok s) : p.config.Intersecting ↔ p.config.f.toNat < 2 ^ 31 := by
  constructor
  · intro hinter
    have hle : 2 * p.config.f.toNat + 1 ≤ p.config.n.toNat := hinter.tolerant
    have hn := p.config.n.toNat_lt
    omega
  · intro hf
    have hbound := Config.toNat_bound hf
    have hnot := Node.not_lt_of_new h
    rw [UInt32.lt_iff_toNat_lt, hbound, Nat.not_lt] at hnot
    exact Config.Tolerant.intersecting hnot

namespace Concrete

def threeParams : Params := ⟨0, ⟨3, 1⟩, ledgerCrypto []⟩

theorem new_intersecting_iff_three :
    Node.new threeParams (fun _ => true) = .ok (.init threeParams) ∧
      threeParams.config.Intersecting :=
  have hnew : Node.new threeParams (fun _ => true) = .ok (.init threeParams) := rfl
  ⟨hnew, (Node.new_intersecting_iff hnew).mpr (by decide)⟩

def wrappedParams : Params := ⟨0, ⟨1, 2147483648⟩, ledgerCrypto []⟩

theorem accepted_intolerant :
    Node.new wrappedParams (fun _ => true) = .ok (.init wrappedParams) ∧
      ¬ wrappedParams.config.Tolerant ∧
      wrappedParams.config.n < wrappedParams.config.commitCertSize := by
  refine ⟨rfl, ?_, by decide⟩
  intro h
  have hle : 2 * 2147483648 + 1 ≤ 1 := h
  omega

end Concrete

end MinBFT
