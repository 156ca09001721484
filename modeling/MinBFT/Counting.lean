import MinBFT.History
import MinBFT.Lib.HighestValues
import MinBFT.Quorums

/-!
# Counting commitments

The acceptor makes the commitments of one replica in one view a run of consecutive primary counters,
which starts at one in the initial view and at a NewView in any other. As long as all these runs
start at NewViews with one counter, the threshold is reported for a proposal precisely when enough
replicas have committed to it.
-/

namespace MinBFT

namespace Commitments

theorem replaceFirstBelow_toNat (cv : UInt64) (xs : List UInt64) :
    (replaceFirstBelow cv xs).map (List.map UInt64.toNat) =
      HighestValues.record cv.toNat (xs.map UInt64.toNat) := by
  induction xs with
  | nil => rfl
  | cons x xs ih =>
      rw [replaceFirstBelow, List.map_cons, HighestValues.record, ← ih]
      by_cases hlt : x < cv
      · rw [if_pos hlt, if_pos (UInt64.lt_iff_toNat_lt.mp hlt)]
        rfl
      · rw [if_neg hlt, if_neg (mt UInt64.lt_iff_toNat_lt.mpr hlt)]
        cases replaceFirstBelow cv xs <;> rfl

def base (w : UInt64) (c : Commitments) : List UInt64 :=
  if c.lastView < w then List.replicate c.highest.length 0 else c.highest

def Fits (m : CertifiedMessage) (w : UInt64) (c : Commitments) : Prop :=
  if m.proposed.kind = .newView then c.replicaViews m.replicaID < w
  else c.replicaViews m.replicaID = w ∧
    m.proposed.counter = c.lastPrimaryCVs m.replicaID + 1 ∧
    m.counter = c.lastReplicaCVs m.replicaID + 1

theorem fits_newView {nv : NewView} {w : UInt64} {c : Commitments} :
    c.Fits (.newView nv) w ↔ c.replicaViews nv.replicaID < w := by
  simp [Fits, CertifiedMessage.proposed, CertifiedMessage.kind]

/-- The effect of a commitment in a view that is not behind the counter. -/
structure Recorded (m : CertifiedMessage) (w : UInt64) (c : Commitments) (done : Bool)
    (c' : Commitments) : Prop where
  fits : c.Fits m w
  replicaViews : c'.replicaViews = Function.update c.replicaViews m.replicaID w
  lastPrimaryCVs :
    c'.lastPrimaryCVs = Function.update c.lastPrimaryCVs m.replicaID m.proposed.counter
  lastReplicaCVs : c'.lastReplicaCVs = Function.update c.lastReplicaCVs m.replicaID m.counter
  lastView : c'.lastView = w
  highest : c'.highest = (replaceFirstBelow m.proposed.counter (c.base w)).getD (c.base w)
  done_eq : done = (replaceFirstBelow m.proposed.counter (c.base w)).isNone
  accepted : c'.accepted = c.accepted ++ [m]
  completed : c'.completed = if done then c.completed ++ [m.proposed] else c.completed

theorem acceptCommitment_cases (m : CertifiedMessage) (w : UInt64) (c : Commitments) :
    (c.Fits m w ∧ c.acceptCommitment m.replicaID (m.proposed.kind = .newView) w
        m.proposed.counter m.counter =
          .ok ({ c with replicaViews := Function.update c.replicaViews m.replicaID w }.setLast
            m.replicaID m.proposed.counter m.counter)) ∨
      ¬ c.Fits m w ∧ ∃ e, c.acceptCommitment m.replicaID (m.proposed.kind = .newView) w
        m.proposed.counter m.counter = .error e := by
  unfold acceptCommitment Fits
  by_cases hnv : m.proposed.kind = .newView
  · simp only [hnv, decide_true, if_true]
    by_cases hle : w ≤ c.replicaViews m.replicaID
    · rw [if_pos hle]
      exact .inr ⟨UInt64.not_lt.mpr hle, _, rfl⟩
    · rw [if_neg hle]
      exact .inl ⟨UInt64.not_le.mp hle, rfl⟩
  · simp only [hnv, decide_false, Bool.false_eq_true, if_false]
    by_cases hw : w = c.replicaViews m.replicaID
    · subst hw
      by_cases hprimary : m.proposed.counter = c.lastPrimaryCVs m.replicaID + 1
      · by_cases hreplica : m.counter = c.lastReplicaCVs m.replicaID + 1
        · refine .inl ⟨⟨rfl, hprimary, hreplica⟩, ?_⟩
          simp only [hprimary, hreplica, ne_eq, not_true_eq_false, if_false, setLast,
            Function.update_eq_self]
        · refine .inr ⟨fun h => hreplica h.2.2, .nonSequentialReplicaUI, ?_⟩
          simp only [hprimary, hreplica, ne_eq, not_true_eq_false, not_false_eq_true, if_false,
            if_true]
      · refine .inr ⟨fun h => hprimary h.2.1, .nonSequentialPrimaryUI, ?_⟩
        simp only [hprimary, ne_eq, not_true_eq_false, not_false_eq_true, if_false, if_true]
    · refine .inr ⟨fun h => hw h.1.symm, .unexpectedViewNumber, ?_⟩
      simp only [hw, ne_eq, not_false_eq_true, if_true]

/-- What the counter does in a view that is not behind it. -/
theorem countCommitment_eq {w : UInt64} {c : Commitments} (hview : c.lastView ≤ w) (cv : UInt64) :
    c.countCommitment w cv = ((replaceFirstBelow cv (c.base w)).isNone,
      { c with lastView := w, highest := (replaceFirstBelow cv (c.base w)).getD (c.base w) }) := by
  obtain ⟨views, primaryCVs, replicaCVs, lastView, highest, accepted, completed⟩ := c
  have hlt : ¬ w < lastView := UInt64.not_lt.mpr hview
  simp only [countCommitment, base, if_neg hlt]
  by_cases hgt : lastView < w
  · simp only [gt_iff_lt, hgt, if_true]
    cases replaceFirstBelow cv (List.replicate highest.length 0) <;> rfl
  · obtain rfl : lastView = w := UInt64.le_antisymm hview (UInt64.not_lt.mp hgt)
    simp only [gt_iff_lt, hgt, if_false]
    cases replaceFirstBelow cv highest <;> rfl

/-- A commitment is recorded if it fits, and refused otherwise. -/
theorem record_cases {m : CertifiedMessage} {w : UInt64} {c : Commitments}
    (hview : c.lastView ≤ w) :
    (c.Fits m w ∧ ∃ done c', c.record m w = .ok (done, c') ∧ Recorded m w c done c') ∨
      ¬ c.Fits m w ∧ ∃ e, c.record m w = .error e := by
  unfold record
  rcases acceptCommitment_cases m w c with ⟨hfits, heq⟩ | ⟨hno, e, heq⟩
  · rw [heq]
    refine .inl ⟨hfits, _, _, rfl, ?_⟩
    dsimp only
    rw [countCommitment_eq]
    · split_ifs with hdone
      · exact ⟨hfits, rfl, rfl, rfl, rfl, rfl, rfl, rfl, (if_pos hdone).symm⟩
      · exact ⟨hfits, rfl, rfl, rfl, rfl, rfl, rfl, rfl, (if_neg hdone).symm⟩
    · exact hview
  · exact .inr ⟨hno, e, by rw [heq]; rfl⟩

theorem recorded {m : CertifiedMessage} {w : UInt64} {c c' : Commitments} {done : Bool}
    (hview : c.lastView ≤ w) (h : c.record m w = .ok (done, c')) : Recorded m w c done c' := by
  rcases record_cases hview with ⟨-, _, _, heq, hrec⟩ | ⟨-, e, heq⟩
  · rw [heq] at h
    cases h
    exact hrec
  · rw [heq] at h
    cases h

def lastIn (w : UInt64) (c : Commitments) (r : UInt32) : Option ℕ :=
  if c.replicaViews r = w then some (c.lastPrimaryCVs r).toNat else none

theorem mem_lastIn {w : UInt64} {c : Commitments} {r : UInt32} {l : ℕ} :
    l ∈ c.lastIn w r ↔ c.replicaViews r = w ∧ (c.lastPrimaryCVs r).toNat = l := by
  unfold lastIn
  split_ifs with h <;> simp [h]

theorem Recorded.lastIn {m : CertifiedMessage} {w : UInt64} {c c' : Commitments} {done : Bool}
    (h : Recorded m w c done c') :
    c'.lastIn w = Function.update (c.lastIn w) m.replicaID (some m.proposed.counter.toNat) := by
  funext r
  unfold Commitments.lastIn
  rw [h.replicaViews, h.lastPrimaryCVs]
  by_cases hr : r = m.replicaID
  · subst hr
    simp
  · simp [hr]

def Commits (c : Commitments) (r : UInt32) (w x : UInt64) : Prop :=
  ∃ m ∈ c.accepted, m.replicaID = r ∧ m.messageView = some w ∧ m.proposed.counter = x

def StartsAt (c : Commitments) (r : UInt32) (w x : UInt64) : Prop :=
  ∃ m ∈ c.accepted, m.replicaID = r ∧ m.proposed.kind = .newView ∧ m.messageView = some w ∧
    m.proposed.counter = x

def Aligned (c : Commitments) (w : UInt64) : Prop :=
  ∀ r r' x x', c.StartsAt r w x → c.StartsAt r' w x' → x = x'

/-- What the acceptor makes of one replica's commitments in the view it has come to. -/
structure Segment (c : Commitments) (r : UInt32) (first : UInt64) : Prop where
  start : (c.replicaViews r = 0 ∧ first = 1) ∨
    c.replicaViews r ≠ 0 ∧ c.StartsAt r (c.replicaViews r) first
  first_le : first.toNat ≤ (c.lastPrimaryCVs r).toNat + 1
  commits : ∀ x, c.Commits r (c.replicaViews r) x ↔ first ≤ x ∧ x ≤ c.lastPrimaryCVs r

/-- The invariant of acceptor and counter, with a bound on the views seen. -/
structure Tracks (n : UInt32) (k : ℕ) (c : Commitments) (e : UInt64) : Prop where
  views : ∀ r, c.replicaViews r ≤ c.lastView
  bound : c.lastView ≤ e
  length : c.highest.length + 1 = k
  sorted : (c.highest.map UInt64.toNat).Pairwise (· ≥ ·)
  exactly : c.Aligned c.lastView →
    HighestValues.Exact (replicas n) (c.lastIn c.lastView) (c.highest.map UInt64.toNat)
  accepted : ∀ m ∈ c.accepted, ∃ w ≤ c.replicaViews m.replicaID, m.messageView = some w
  segment : ∀ r, ∃ first, c.Segment r first

theorem Tracks.mono {n : UInt32} {k : ℕ} {c : Commitments} {e e' : UInt64} (h : Tracks n k c e)
    (hle : e ≤ e') : Tracks n k c e' :=
  { h with bound := UInt64.le_trans h.bound hle }

theorem tracks_init {n commitCertSize : UInt32} (hpos : 0 < commitCertSize.toNat) :
    Tracks n commitCertSize.toNat (init commitCertSize) 0 where
  views := fun _ => UInt64.le_refl _
  bound := UInt64.le_refl _
  length := by
    have hle : (1 : UInt32) ≤ commitCertSize := by
      rw [UInt32.le_iff_toNat_le]
      exact hpos
    simp only [init, List.length_replicate, UInt32.toNat_sub_of_le _ _ hle, UInt32.toNat_one]
    omega
  sorted := by
    simp only [init, List.map_replicate]
    exact List.pairwise_replicate.mpr (.inr (le_refl 0))
  exactly := by
    intro _
    simp only [init, List.map_replicate]
    refine .init (fun r _ l hl => ?_) _
    simpa [lastIn] using hl.symm
  accepted := fun _ hm => absurd hm List.not_mem_nil
  segment := by
    intro r
    refine ⟨1, .inl ⟨rfl, rfl⟩, Nat.le_refl _, fun x => ⟨?_, ?_⟩⟩
    · rintro ⟨m, hm, -⟩
      exact absurd hm List.not_mem_nil
    · rintro ⟨hle, hle'⟩
      exact absurd (UInt64.le_trans hle hle') (by simp [init])

/-- The counter starts over in a later view. -/
theorem Tracks.base_sorted {n : UInt32} {k : ℕ} {c : Commitments} {w : UInt64}
    (h : Tracks n k c w) :
    ((c.base w).map UInt64.toNat).Pairwise (· ≥ ·) ∧ (c.base w).length + 1 = k := by
  unfold base
  split_ifs
  · rw [List.map_replicate, List.length_replicate]
    exact ⟨List.pairwise_replicate.mpr (.inr (le_refl 0)), h.length⟩
  · exact ⟨h.sorted, h.length⟩

theorem Tracks.base_exact {n : UInt32} {k : ℕ} {c : Commitments} {w : UInt64} (h : Tracks n k c w)
    (halign : c.Aligned w) :
    HighestValues.Exact (replicas n) (c.lastIn w) ((c.base w).map UInt64.toNat) := by
  unfold base
  split_ifs with hlt
  · rw [List.map_replicate]
    refine .init (fun r _ l hl => ?_) _
    have hne : c.replicaViews r ≠ w := UInt64.ne_of_lt (UInt64.lt_of_le_of_lt (h.views r) hlt)
    rw [lastIn, if_neg hne] at hl
    cases hl
  · obtain rfl : c.lastView = w := UInt64.le_antisymm h.bound (UInt64.not_lt.mp hlt)
    exact h.exactly halign

section Recorded

variable {n : UInt32} {k : ℕ} {m : CertifiedMessage} {w : UInt64} {c c' : Commitments}
  {done : Bool}

theorem Recorded.highest_toNat (h : Recorded m w c done c') :
    c'.highest.map UInt64.toNat =
      (HighestValues.record m.proposed.counter.toNat ((c.base w).map UInt64.toNat)).getD
        ((c.base w).map UInt64.toNat) := by
  rw [h.highest, ← replaceFirstBelow_toNat]
  cases replaceFirstBelow m.proposed.counter (c.base w) <;> rfl

theorem Recorded.record_eq_none (h : Recorded m w c done c') :
    done = true ↔
      HighestValues.record m.proposed.counter.toNat ((c.base w).map UInt64.toNat) = none := by
  rw [h.done_eq, ← replaceFirstBelow_toNat, Option.map_eq_none_iff, Option.isNone_iff_eq_none]

theorem Recorded.length_highest (h : Recorded m w c done c') (ht : Tracks n k c w) :
    c'.highest.length + 1 = k := by
  have hlen : (c'.highest.map UInt64.toNat).length = ((c.base w).map UInt64.toNat).length := by
    rw [h.highest_toNat]
    exact HighestValues.length_record ht.base_sorted.1 _
  rw [List.length_map, List.length_map] at hlen
  rw [hlen]
  exact ht.base_sorted.2

/-- A replica moves on by one in the view it has come to, or enters a new one. -/
theorem Recorded.lastIn_cases (h : Recorded m w c done c') (hcv : m.proposed.counter ≠ 0) :
    (m.proposed.kind = .newView ∧ c.lastIn w m.replicaID = none) ∨
      m.proposed.kind ≠ .newView ∧ ∃ l, c.lastIn w m.replicaID = some l ∧
        m.proposed.counter.toNat = l + 1 := by
  have hfits := h.fits
  unfold Fits at hfits
  unfold Commitments.lastIn
  split_ifs at hfits with hnv
  · exact .inl ⟨hnv, if_neg (UInt64.ne_of_lt hfits)⟩
  · exact .inr ⟨hnv, _, if_pos hfits.1, (UInt64.eq_add_one_iff hcv).mp hfits.2.1⟩

theorem Recorded.lt_of_mem_lastIn (h : Recorded m w c done c') (hcv : m.proposed.counter ≠ 0) :
    ∀ l ∈ c.lastIn w m.replicaID, l < m.proposed.counter.toNat := by
  intro l hl
  rcases h.lastIn_cases hcv with ⟨-, hnone⟩ | ⟨-, l', hsome, heq⟩
  · rw [hnone] at hl
    cases hl
  · rw [hsome] at hl
    cases hl
    omega

theorem Recorded.commits_iff (h : Recorded m w c done c') (hview : m.messageView = some w)
    (r : UInt32) (w' x : UInt64) :
    c'.Commits r w' x ↔
      c.Commits r w' x ∨ m.replicaID = r ∧ w = w' ∧ m.proposed.counter = x := by
  unfold Commits
  rw [h.accepted]
  simp only [List.mem_append, List.mem_singleton, or_and_right, exists_or, exists_eq_left, hview,
    Option.some.injEq]

theorem Recorded.startsAt_of (h : Recorded m w c done c') {r : UInt32} {w' x : UInt64}
    (hs : c.StartsAt r w' x) : c'.StartsAt r w' x := by
  obtain ⟨m', hm', hrest⟩ := hs
  exact ⟨m', h.accepted ▸ List.mem_append_left _ hm', hrest⟩

theorem Tracks.segment_record (h : Tracks n k c w) (hview : m.messageView = some w)
    (hcv : m.proposed.counter ≠ 0) (hrec : Recorded m w c done c') (r : UInt32) :
    ∃ first, c'.Segment r first := by
  by_cases hr : r = m.replicaID
  · subst hr
    have hviews : c'.replicaViews m.replicaID = w := by
      rw [hrec.replicaViews, Function.update_self]
    have hlast : c'.lastPrimaryCVs m.replicaID = m.proposed.counter := by
      rw [hrec.lastPrimaryCVs, Function.update_self]
    have hfits := hrec.fits
    unfold Fits at hfits
    split_ifs at hfits with hnv
    · refine ⟨m.proposed.counter, .inr ⟨?_, m, ?_, rfl, hnv, ?_, rfl⟩, ?_, fun x => ?_⟩
      · rw [hviews]
        exact (UInt64.ne_of_lt (UInt64.lt_of_le_of_lt UInt64.zero_le hfits)).symm
      · exact hrec.accepted ▸ List.mem_append_right _ List.mem_cons_self
      · rw [hviews, hview]
      · rw [hlast]
        exact Nat.le_succ _
      · rw [hviews, hlast, hrec.commits_iff hview]
        constructor
        · rintro (⟨m', hm', hid, hw', -⟩ | ⟨-, -, rfl⟩)
          · obtain ⟨w₁, hw₁, heq⟩ := h.accepted m' hm'
            rw [hid] at hw₁
            rw [hw'] at heq
            cases heq
            exact absurd (UInt64.lt_of_lt_of_le hfits hw₁) (UInt64.lt_irrefl _)
          · exact ⟨UInt64.le_refl _, UInt64.le_refl _⟩
        · rintro ⟨hle, hle'⟩
          exact .inr ⟨rfl, rfl, UInt64.le_antisymm hle hle'⟩
    · obtain ⟨hw, hnext, -⟩ := hfits
      have hnat := (UInt64.eq_add_one_iff hcv).mp hnext
      obtain ⟨first, hstart, hfirst, hcommits⟩ := h.segment m.replicaID
      rw [hw] at hstart hcommits
      refine ⟨first, ?_, ?_, fun x => ?_⟩
      · rw [hviews]
        exact hstart.imp_right fun ⟨hne, hs⟩ => ⟨hne, hrec.startsAt_of hs⟩
      · rw [hlast]
        omega
      · rw [hviews, hlast, hrec.commits_iff hview, hcommits]
        simp only [true_and, UInt64.le_iff_toNat_le, ← UInt64.toNat_inj]
        omega
  · obtain ⟨first, hstart, hfirst, hcommits⟩ := h.segment r
    have hviews : c'.replicaViews r = c.replicaViews r := by
      rw [hrec.replicaViews, Function.update_of_ne hr]
    have hlast : c'.lastPrimaryCVs r = c.lastPrimaryCVs r := by
      rw [hrec.lastPrimaryCVs, Function.update_of_ne hr]
    refine ⟨first, ?_, ?_, fun x => ?_⟩
    · rw [hviews]
      exact hstart.imp_right fun ⟨hne, hs⟩ => ⟨hne, hrec.startsAt_of hs⟩
    · rwa [hlast]
    · rw [hviews, hlast, hrec.commits_iff hview, ← hcommits]
      exact ⟨fun hx => hx.resolve_right fun hx => hr hx.1.symm, .inl⟩

theorem StartsAt.commits {r : UInt32} {x : UInt64} (h : c.StartsAt r w x) : c.Commits r w x := by
  obtain ⟨m, hm, hid, -, hview, hcv⟩ := h
  exact ⟨m, hm, hid, hview, hcv⟩

theorem Recorded.aligned_of (h : Recorded m w c done c') {w' : UInt64} (ha : c'.Aligned w') :
    c.Aligned w' :=
  fun r r' x x' hx hx' => ha r r' x x' (h.startsAt_of hx) (h.startsAt_of hx')

theorem Recorded.stepwise (hrec : Recorded m w c done c') (h : Tracks n k c w)
    (hview : m.messageView = some w) (hcv : m.proposed.counter ≠ 0) (ha : c'.Aligned w) :
    HighestValues.Stepwise (replicas n) (c.lastIn w) m.replicaID m.proposed.counter.toNat := by
  rcases hrec.lastIn_cases hcv with ⟨hnv, hnone⟩ | ⟨-, l, hsome, heq⟩
  · refine .inr ⟨hnone, fun a _ l hl => ?_⟩
    obtain ⟨hw, rfl⟩ := mem_lastIn.mp hl
    obtain ⟨first, hstart, -, hcommits⟩ := h.segment a
    rw [hw] at hstart hcommits
    have hself : c'.StartsAt m.replicaID w m.proposed.counter :=
      ⟨m, hrec.accepted ▸ List.mem_append_right _ List.mem_cons_self, rfl, hnv, hview, rfl⟩
    have hne : w ≠ 0 := by
      have hfits := hrec.fits
      rw [Fits, if_pos hnv] at hfits
      exact (UInt64.ne_of_lt (UInt64.lt_of_le_of_lt UInt64.zero_le hfits)).symm
    obtain ⟨hzero, -⟩ | ⟨-, hs⟩ := hstart
    · exact absurd hzero hne
    · rw [ha _ _ _ _ hself (hrec.startsAt_of hs), ← UInt64.le_iff_toNat_le]
      exact ((hcommits first).mp hs.commits).2
  · exact .inl ⟨l, hsome, heq⟩

theorem Tracks.record (h : Tracks n k c w) (hid : m.replicaID < n)
    (hview : m.messageView = some w) (hcv : m.proposed.counter ≠ 0)
    (hrec : Recorded m w c done c') : Tracks n k c' w where
  views := by
    intro r
    rw [hrec.replicaViews, hrec.lastView]
    by_cases hr : r = m.replicaID
    · subst hr
      rw [Function.update_self]
      exact UInt64.le_refl _
    · rw [Function.update_of_ne hr]
      exact UInt64.le_trans (h.views r) h.bound
  bound := hrec.lastView ▸ UInt64.le_refl _
  length := hrec.length_highest h
  sorted := by
    rw [hrec.highest_toNat]
    exact HighestValues.pairwise_record h.base_sorted.1 _
  exactly := by
    rw [hrec.lastView, hrec.lastIn, hrec.highest_toNat]
    intro ha
    have hpos : 1 ≤ m.proposed.counter.toNat :=
      Nat.one_le_iff_ne_zero.mpr fun hz => hcv (UInt64.toNat_inj.mp hz)
    exact (h.base_exact (hrec.aligned_of ha)).record h.base_sorted.1 (mem_replicas.mpr hid)
      hpos (hrec.stepwise h hview hcv ha)
  accepted := by
    intro m' hm'
    have hle : ∀ r, c.replicaViews r ≤ c'.replicaViews r := by
      intro r
      rw [hrec.replicaViews]
      by_cases hr : r = m.replicaID
      · subst hr
        rw [Function.update_self]
        exact UInt64.le_trans (h.views _) h.bound
      · rw [Function.update_of_ne hr]
        exact UInt64.le_refl _
    rw [hrec.accepted] at hm'
    rcases List.mem_append.mp hm' with hm' | hm'
    · obtain ⟨w', hw', heq⟩ := h.accepted m' hm'
      exact ⟨w', UInt64.le_trans hw' (hle _), heq⟩
    · cases List.mem_singleton.mp hm'
      refine ⟨w, ?_, hview⟩
      rw [hrec.replicaViews, Function.update_self]
      exact UInt64.le_refl _
  segment := h.segment_record hview hcv hrec

def committers (n : UInt32) (c : Commitments) (w x : UInt64) : Finset UInt32 :=
  (replicas n).filter fun r => c.accepted.any fun m =>
    m.replicaID == r && m.messageView == some w && m.proposed.counter == x

theorem mem_committers {r : UInt32} {x : UInt64} :
    r ∈ c.committers n w x ↔ r < n ∧ c.Commits r w x := by
  rw [committers, Finset.mem_filter, mem_replicas, Commits, List.any_eq_true]
  simp only [Bool.and_eq_true, beq_iff_eq, and_assoc]

theorem Recorded.committers_self (h : Recorded m w c done c') (hid : m.replicaID < n)
    (hview : m.messageView = some w) :
    c'.committers n w m.proposed.counter =
      insert m.replicaID (c.committers n w m.proposed.counter) := by
  ext r
  rw [Finset.mem_insert, mem_committers, mem_committers, h.commits_iff hview]
  constructor
  · rintro ⟨hr, hx | ⟨rfl, -⟩⟩
    · exact .inr ⟨hr, hx⟩
    · exact .inl rfl
  · rintro (rfl | ⟨hr, hx⟩)
    · exact ⟨hid, .inr ⟨rfl, rfl, rfl⟩⟩
    · exact ⟨hr, .inl hx⟩

theorem Recorded.committers_of_ne (h : Recorded m w c done c') (hview : m.messageView = some w)
    {w' x : UInt64} (hne : ¬ (w = w' ∧ m.proposed.counter = x)) :
    c'.committers n w' x = c.committers n w' x := by
  ext r
  rw [mem_committers, mem_committers, h.commits_iff hview]
  exact and_congr_right fun _ => or_iff_left fun hx => hne hx.2

/-- In an aligned view, those who have come as far as a counter that somebody has committed to have
committed to it themselves. -/
theorem Tracks.card_committers (h : Tracks n k c w) (hw : c.lastView = w) (ha : c.Aligned w)
    {r₀ : UInt32} {x : UInt64} (hx : c.Commits r₀ w x) :
    (c.committers n w x).card = HighestValues.reached (replicas n) (c.lastIn w) x.toNat := by
  have hview : ∀ {r y}, c.Commits r w y → c.replicaViews r = w := by
    rintro r y ⟨m, hm, rfl, hmw, -⟩
    obtain ⟨w', hle, heq⟩ := h.accepted m hm
    rw [hmw] at heq
    cases heq
    exact UInt64.le_antisymm (hw ▸ h.views _) hle
  unfold HighestValues.reached
  congr 1
  ext r
  rw [mem_committers, Finset.mem_filter, mem_replicas]
  refine and_congr_right fun _ => ⟨fun hc => ?_, ?_⟩
  · obtain ⟨first, -, -, hcommits⟩ := h.segment r
    rw [hview hc] at hcommits
    exact ⟨_, if_pos (hview hc), UInt64.le_iff_toNat_le.mp ((hcommits x).mp hc).2⟩
  · rintro ⟨l, hl, hxl⟩
    obtain ⟨hr, rfl⟩ := mem_lastIn.mp hl
    obtain ⟨first, hstart, -, hcommits⟩ := h.segment r
    obtain ⟨first₀, hstart₀, -, hcommits₀⟩ := h.segment r₀
    rw [hr] at hstart hcommits
    rw [hview hx] at hstart₀ hcommits₀
    have hfirst : first = first₀ := by
      rcases hstart with ⟨hz, rfl⟩ | ⟨hz, hs⟩
      · exact (hstart₀.resolve_right fun h => h.1 hz).2.symm
      · obtain ⟨-, hs₀⟩ := hstart₀.resolve_left fun h => hz h.1
        exact ha _ _ _ _ hs hs₀
    exact (hcommits x).mpr ⟨hfirst ▸ ((hcommits₀ x).mp hx).1, UInt64.le_iff_toNat_le.mpr hxl⟩

/-- In an aligned view, the threshold is reported precisely when enough replicas have committed. -/
theorem Tracks.done_iff (h : Tracks n k c w) (hid : m.replicaID < n)
    (hview : m.messageView = some w) (hcv : m.proposed.counter ≠ 0)
    (hrec : Recorded m w c done c') (ha : c'.Aligned w) :
    done = true ↔ k ≤ (c'.committers n w m.proposed.counter).card := by
  have hself : c'.Commits m.replicaID w m.proposed.counter :=
    (hrec.commits_iff hview _ _ _).mpr (.inr ⟨rfl, rfl, rfl⟩)
  have hpos : 1 ≤ m.proposed.counter.toNat :=
    Nat.one_le_iff_ne_zero.mpr fun hz => hcv (UInt64.toNat_inj.mp hz)
  obtain ⟨hsorted, hlen⟩ := h.base_sorted
  rw [(h.record hid hview hcv hrec).card_committers hrec.lastView ha hself, hrec.record_eq_none,
    (h.base_exact (hrec.aligned_of ha)).record_eq_none_iff hsorted (mem_replicas.mpr hid)
      hpos (hrec.lt_of_mem_lastIn hcv), hrec.lastIn, List.length_map, hlen]

end Recorded

end Commitments

end MinBFT
