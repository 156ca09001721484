import MinBFT.Validation

/-!
# Certificate sizes and their intersection

The two certificate sizes are computed in 32-bit arithmetic. When `n ≥ 2f + 1` holds over the
integers neither computation wraps, and any commit certificate and any view-change certificate have
a replica in common.
-/

namespace MinBFT

def replicas (n : UInt32) : Finset UInt32 := (Finset.range n.toNat).image UInt32.ofNat

theorem mem_replicas {n r : UInt32} : r ∈ replicas n ↔ r < n := by
  rw [replicas, Finset.mem_image, UInt32.lt_iff_toNat_lt]
  constructor
  · rintro ⟨i, hi, rfl⟩
    rw [Finset.mem_range] at hi
    have hn := n.toNat_lt
    rw [UInt32.toNat_ofNat']
    exact (Nat.mod_le i _).trans_lt hi
  · intro h
    exact ⟨r.toNat, Finset.mem_range.mpr h, UInt32.ofNat_toNat⟩

theorem card_replicas_le (n : UInt32) : (replicas n).card ≤ n.toNat :=
  Finset.card_image_le.trans (Finset.card_range n.toNat).le

theorem card_replicas (n : UInt32) : (replicas n).card = n.toNat := by
  rw [replicas, Finset.card_image_of_injOn, Finset.card_range]
  intro i hi j hj heq
  have hlt := n.toNat_lt
  rw [Finset.coe_range, Set.mem_Iio] at hi hj
  have hnat := congrArg UInt32.toNat heq
  rwa [UInt32.toNat_ofNat_of_lt' (hi.trans hlt), UInt32.toNat_ofNat_of_lt' (hj.trans hlt)] at hnat

namespace Config

variable {config : Config}

def Tolerant (config : Config) : Prop := 2 * config.f.toNat + 1 ≤ config.n.toNat

theorem toNat_commitCertSize (h : config.Tolerant) :
    config.commitCertSize.toNat = config.n.toNat - config.f.toNat := by
  have hle : config.f ≤ config.n := by
    rw [UInt32.le_iff_toNat_le]
    unfold Tolerant at h
    omega
  exact UInt32.toNat_sub_of_le _ _ hle

theorem toNat_viewChangeCertSize (h : config.Tolerant) :
    config.viewChangeCertSize.toNat = config.f.toNat + 1 := by
  have hcommit := toNat_commitCertSize h
  have hn := config.n.toNat_lt
  unfold Tolerant at h
  have hle : config.commitCertSize ≤ config.n := by
    rw [UInt32.le_iff_toNat_le]
    omega
  rw [viewChangeCertSize, UInt32.toNat_add, UInt32.toNat_sub_of_le _ _ hle, hcommit]
  simp only [UInt32.toNat_one]
  omega

theorem commitCertSize_pos (h : config.Tolerant) : 0 < config.commitCertSize.toNat := by
  rw [toNat_commitCertSize h]
  unfold Tolerant at h
  omega

/-- Commit and view-change certificates intersect. -/
theorem exists_mem_quorum (h : config.Tolerant) {Q : Finset UInt32}
    (hQ : Q ⊆ replicas config.n) (hcard : config.commitCertSize.toNat ≤ Q.card)
    {ids : List UInt32} (hids : ∀ r ∈ ids, r < config.n) (hnodup : ids.Nodup)
    (hlen : config.viewChangeCertSize.toNat ≤ ids.length) : ∃ r ∈ ids, r ∈ Q := by
  have hsub : ids.toFinset ⊆ replicas config.n := by
    intro r hr
    exact mem_replicas.mpr (hids r (List.mem_toFinset.mp hr))
  have hlt : (replicas config.n).card < ids.toFinset.card + Q.card := by
    have hall := card_replicas_le config.n
    rw [toNat_commitCertSize h] at hcard
    rw [toNat_viewChangeCertSize h] at hlen
    rw [List.toFinset_card_of_nodup hnodup]
    unfold Tolerant at h
    omega
  obtain ⟨r, hr⟩ := Finset.inter_nonempty_of_card_lt_card_add_card hsub hQ hlt
  rw [Finset.mem_inter, List.mem_toFinset] at hr
  exact ⟨r, hr.1, hr.2⟩

end Config

end MinBFT
