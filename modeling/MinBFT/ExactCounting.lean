import Mathlib.Data.List.Induction
import MinBFT.Counting

/-!
# The counter on its own

`makeCommitmentCounter` without the acceptor in front of it, for calls that come from any kind of
participants. If the counters that they submit in a view are consecutive and begin at a common
value, the few numbers that are kept are as good as a record of everything: the threshold is
reported precisely when enough participants have submitted the same view and counter, and no later
view has come up.
-/

namespace MinBFT

namespace Commitments

variable {ι : Type}

structure Submission (ι : Type) where
  replica : ι
  view : UInt64
  cv : UInt64

def counted (commitCertSize : UInt32) (calls : List (Submission ι)) : Commitments :=
  calls.foldl (fun c call => (c.countCommitment call.view call.cv).2) (init commitCertSize)

theorem counted_concat (commitCertSize : UInt32) (calls : List (Submission ι))
    (call : Submission ι) :
    counted commitCertSize (calls ++ [call]) =
      ((counted commitCertSize calls).countCommitment call.view call.cv).2 := by
  simp [counted]

variable [DecidableEq ι]

def submitted (calls : List (Submission ι)) (view : UInt64) (r : ι) : List ℕ :=
  (calls.filter fun call => call.replica = r ∧ call.view = view).map (·.cv.toNat)

/-- In each view, the counters of each participant are consecutive, from a positive number on that
they have in common. -/
def Consecutive (start : UInt64 → ℕ) (calls : List (Submission ι)) : Prop :=
  ∀ view r, 1 ≤ start view ∧
    submitted calls view r = List.range' (start view) (submitted calls view r).length

def submitters (calls : List (Submission ι)) (view cv : UInt64) : Finset ι :=
  ((calls.filter fun call => call.view = view ∧ call.cv = cv).map (·.replica)).toFinset

def progress (calls : List (Submission ι)) (view : UInt64) (r : ι) : Option ℕ :=
  (submitted calls view r).getLast?

variable {start : UInt64 → ℕ} {calls earlier later : List (Submission ι)} {call : Submission ι}
  {view : UInt64} {r : ι} {R : Finset ι}

theorem submitted_concat (calls : List (Submission ι)) (call : Submission ι) (view : UInt64)
    (r : ι) : submitted (calls ++ [call]) view r =
      submitted calls view r ++ if call.replica = r ∧ call.view = view then [call.cv.toNat]
        else [] := by
  unfold submitted
  rw [List.filter_append, List.map_append]
  congr 1
  by_cases h : call.replica = r ∧ call.view = view
  · rw [if_pos h, List.filter_cons_of_pos (by simpa using h)]
    rfl
  · rw [if_neg h, List.filter_cons_of_neg (by simpa using h)]
    rfl

theorem progress_concat (calls : List (Submission ι)) (call : Submission ι) :
    progress (calls ++ [call]) call.view =
      Function.update (progress calls call.view) call.replica (some call.cv.toNat) := by
  funext r
  unfold progress
  rw [submitted_concat]
  by_cases hr : r = call.replica
  · rw [hr, if_pos ⟨rfl, rfl⟩, List.getLast?_concat, Function.update_self]
  · rw [if_neg fun h => hr h.1.symm, List.append_nil, Function.update_of_ne hr]

theorem progress_concat_of_ne (calls : List (Submission ι)) (hne : call.view ≠ view) :
    progress (calls ++ [call]) view = progress calls view := by
  funext r
  unfold progress
  rw [submitted_concat, if_neg fun h => hne h.2, List.append_nil]

/-- Nobody has got anywhere in a view that has not come up. -/
theorem progress_eq_none (h : ∀ call ∈ calls, call.view ≠ view) (r : ι) :
    progress calls view r = none := by
  have hfilter : calls.filter (fun call => call.replica = r ∧ call.view = view) = [] := by
    rw [List.filter_eq_nil_iff]
    intro call hcall
    simpa using fun _ => h call hcall
  rw [progress, submitted, hfilter]
  rfl

theorem Consecutive.of_append (h : Consecutive start (earlier ++ later)) :
    Consecutive start earlier := by
  intro view r
  obtain ⟨hpos, hrange⟩ := h view r
  refine ⟨hpos, ?_⟩
  have happend : submitted (earlier ++ later) view r =
      submitted earlier view r ++ submitted later view r := by
    unfold submitted
    rw [List.filter_append, List.map_append]
  rw [happend] at hrange
  obtain ⟨k, -, hk, -⟩ := List.range'_eq_append_iff.mp hrange.symm
  rw [hk, List.length_range']

/-- What has been submitted is known from where it starts and how far it goes. -/
theorem Consecutive.mem_submitted (h : Consecutive start calls) {x : ℕ} :
    x ∈ submitted calls view r ↔ start view ≤ x ∧ ∃ l ∈ progress calls view r, x ≤ l := by
  unfold progress
  rw [(h view r).2, List.mem_range'_1]
  cases (submitted calls view r).length with
  | zero => simp
  | succ n =>
      rw [List.range'_concat, List.getLast?_concat]
      simp only [Option.mem_some_iff, exists_eq_left', Nat.one_mul]
      omega

theorem Consecutive.start_le (h : Consecutive start calls) {l : ℕ}
    (hl : l ∈ progress calls view r) : start view ≤ l :=
  (h.mem_submitted.mp (List.mem_of_getLast? hl)).1

/-- The next counter of a participant. -/
theorem Consecutive.stepwise (h : Consecutive start (calls ++ [call])) (R : Finset ι) :
    1 ≤ call.cv.toNat ∧ start call.view ≤ call.cv.toNat ∧
      HighestValues.Stepwise R (progress calls call.view) call.replica call.cv.toNat := by
  obtain ⟨hpos, hrange⟩ := h call.view call.replica
  rw [submitted_concat, if_pos ⟨rfl, rfl⟩, List.length_append, List.length_singleton,
    List.range'_concat] at hrange
  obtain ⟨hfront, hlast⟩ := List.append_inj' hrange rfl
  have hcv : call.cv.toNat =
      start call.view + (submitted calls call.view call.replica).length := by
    simpa using hlast
  refine ⟨by omega, by omega, ?_⟩
  unfold HighestValues.Stepwise progress
  cases hn : (submitted calls call.view call.replica).length with
  | zero =>
      have hnil := List.eq_nil_of_length_eq_zero hn
      refine .inr ⟨by rw [hnil]; rfl, fun a _ l hl => ?_⟩
      have hle := h.of_append.start_le hl
      omega
  | succ n =>
      refine .inl ⟨start call.view + n, ?_, by omega⟩
      rw [hfront, hn, List.range'_concat, List.getLast?_concat, Nat.one_mul]

theorem mem_submitters {cv : UInt64} :
    r ∈ submitters calls view cv ↔ cv.toNat ∈ submitted calls view r := by
  simp only [submitters, submitted, List.mem_toFinset, List.mem_map, List.mem_filter,
    decide_eq_true_eq, UInt64.toNat_inj]
  constructor
  · rintro ⟨call, ⟨hmem, hview, hcv⟩, hr⟩
    exact ⟨call, ⟨hmem, hr, hview⟩, hcv⟩
  · rintro ⟨call, ⟨hmem, hr, hview⟩, hcv⟩
    exact ⟨call, ⟨hmem, hview, hcv⟩, hr⟩

/-- Those who have come as far as a counter have submitted it. -/
theorem Consecutive.card_submitters (h : Consecutive start calls) {cv : UInt64}
    (hcv : start view ≤ cv.toNat) (hR : ∀ call ∈ calls, call.replica ∈ R) :
    (submitters calls view cv).card =
      HighestValues.reached R (progress calls view) cv.toNat := by
  unfold HighestValues.reached
  congr 1
  ext r
  rw [mem_submitters, h.mem_submitted, Finset.mem_filter]
  constructor
  · rintro ⟨-, l, hl, hle⟩
    refine ⟨?_, l, hl, hle⟩
    obtain ⟨call, hcall, -⟩ := List.mem_map.mp (List.mem_of_getLast? hl)
    obtain ⟨hmem, hr⟩ := List.mem_filter.mp hcall
    rw [← (of_decide_eq_true hr).1]
    exact hR call hmem
  · rintro ⟨-, hl⟩
    exact ⟨hcv, hl⟩

/-! ## The invariant of the counter -/

structure Counts (R : Finset ι) (commitCertSize : UInt32) (calls : List (Submission ι))
    (c : Commitments) : Prop where
  views : ∀ call ∈ calls, call.view ≤ c.lastView
  last : c.lastView = 0 ∨ ∃ call ∈ calls, call.view = c.lastView
  length : c.highest.length + 1 = commitCertSize.toNat
  sorted : (c.highest.map UInt64.toNat).Pairwise (· ≥ ·)
  exactly : HighestValues.Exact R (progress calls c.lastView) (c.highest.map UInt64.toNat)

variable {commitCertSize : UInt32} {c : Commitments}

theorem counts_init (R : Finset ι) (hpos : 1 ≤ commitCertSize) :
    Counts R commitCertSize [] (init commitCertSize) where
  views := fun _ h => absurd h List.not_mem_nil
  last := .inl rfl
  length := by
    have hle := UInt32.le_iff_toNat_le.mp hpos
    rw [UInt32.toNat_one] at hle
    simp only [init, List.length_replicate, UInt32.toNat_sub_of_le _ _ hpos, UInt32.toNat_one]
    omega
  sorted := by
    simp only [init, List.map_replicate]
    exact List.pairwise_replicate.mpr (.inr (le_refl 0))
  exactly := by
    simp only [init, List.map_replicate]
    exact .init (fun _ _ _ hl => by cases hl) _

/-- What the counter compares with in a view that is not behind it. -/
theorem Counts.base (h : Counts R commitCertSize calls c) {w : UInt64} (hview : c.lastView ≤ w) :
    (c.base w).length + 1 = commitCertSize.toNat ∧
      ((c.base w).map UInt64.toNat).Pairwise (· ≥ ·) ∧
      HighestValues.Exact R (progress calls w) ((c.base w).map UInt64.toNat) := by
  unfold Commitments.base
  split_ifs with hlt
  · rw [List.map_replicate, List.length_replicate]
    refine ⟨h.length, List.pairwise_replicate.mpr (.inr (le_refl 0)), .init ?_ _⟩
    intro r _ l hl
    rw [progress_eq_none (fun call hcall heq => ?_) r] at hl
    · cases hl
    · exact absurd (heq ▸ h.views call hcall) (UInt64.not_le.mpr hlt)
  · rw [← UInt64.le_antisymm hview (UInt64.not_lt.mp hlt)]
    exact ⟨h.length, h.sorted, h.exactly⟩

theorem getD_replaceFirstBelow (cv : UInt64) (xs : List UInt64) :
    ((replaceFirstBelow cv xs).getD xs).map UInt64.toNat =
      (HighestValues.record cv.toNat (xs.map UInt64.toNat)).getD (xs.map UInt64.toNat) := by
  rw [← replaceFirstBelow_toNat]
  cases replaceFirstBelow cv xs <;> rfl

theorem Counts.countCommitment (h : Counts R commitCertSize calls c)
    (hcons : Consecutive start (calls ++ [call])) (hR : call.replica ∈ R) :
    Counts R commitCertSize (calls ++ [call]) (c.countCommitment call.view call.cv).2 := by
  rcases UInt64.lt_or_le call.view c.lastView with hlt | hview
  · -- the call is behind and is ignored
    rw [Commitments.countCommitment, if_pos hlt]
    refine ⟨fun a ha => ?_, ?_, h.length, h.sorted, ?_⟩
    · rcases List.mem_append.mp ha with ha | ha
      · exact h.views a ha
      · cases List.mem_singleton.mp ha
        exact UInt64.le_of_lt hlt
    · exact h.last.imp_right (Exists.imp fun _ => And.imp_left (List.mem_append_left _))
    · rw [progress_concat_of_ne calls (UInt64.ne_of_lt hlt)]
      exact h.exactly
  · obtain ⟨hlen, hsorted, hexact⟩ := h.base hview
    obtain ⟨hpos, -, hstep⟩ := hcons.stepwise R
    rw [countCommitment_eq hview]
    refine ⟨fun a ha => ?_, .inr ⟨call, by simp, rfl⟩, ?_, ?_, ?_⟩
    · rcases List.mem_append.mp ha with ha | ha
      · exact UInt64.le_trans (h.views a ha) hview
      · cases List.mem_singleton.mp ha
        exact UInt64.le_refl _
    · rw [← List.length_map UInt64.toNat, getD_replaceFirstBelow,
        HighestValues.length_record hsorted, List.length_map]
      exact hlen
    · rw [getD_replaceFirstBelow]
      exact HighestValues.pairwise_record hsorted _
    · rw [getD_replaceFirstBelow, progress_concat]
      exact hexact.record hsorted hR hpos hstep

theorem counts_counted (hpos : 1 ≤ commitCertSize) (hcons : Consecutive start calls)
    (hR : ∀ call ∈ calls, call.replica ∈ R) :
    Counts R commitCertSize calls (counted commitCertSize calls) := by
  induction calls using List.reverseRecOn with
  | nil => exact counts_init R hpos
  | append_singleton calls call ih =>
      rw [counted_concat]
      exact (ih hcons.of_append fun a ha => hR a (List.mem_append_left _ ha)).countCommitment hcons
        (hR call (by simp))

/-- The result of a call, in terms of how far everybody has come. -/
theorem Counts.countCommitment_eq_true_iff (h : Counts R commitCertSize calls c)
    (hcons : Consecutive start (calls ++ [call])) (hR : call.replica ∈ R)
    (hview : c.lastView ≤ call.view) :
    (c.countCommitment call.view call.cv).1 = true ↔ commitCertSize.toNat ≤
      HighestValues.reached R (progress (calls ++ [call]) call.view) call.cv.toNat := by
  obtain ⟨hlen, hsorted, hexact⟩ := h.base hview
  obtain ⟨hpos, -, hstep⟩ := hcons.stepwise R
  have hlt : ∀ l ∈ progress calls call.view call.replica, l < call.cv.toNat := by
    intro l hl
    rcases hstep with ⟨l', hl', heq⟩ | ⟨hnone, -⟩
    · cases Option.mem_unique hl hl'
      omega
    · cases hnone.symm.trans hl
  have hiff := hexact.record_eq_none_iff hsorted hR hpos hlt
  rw [List.length_map, hlen, ← replaceFirstBelow_toNat, Option.map_eq_none_iff] at hiff
  rw [countCommitment_eq hview, progress_concat, ← hiff]
  exact Option.isNone_iff_eq_none

/-- The counter reports what counting everything would. -/
theorem countCommitment_iff (hpos : 1 ≤ commitCertSize)
    (hcons : Consecutive start (earlier ++ call :: later)) :
    ((counted commitCertSize earlier).countCommitment call.view call.cv).1 = true ↔
      (∀ a ∈ earlier, a.view ≤ call.view) ∧
        commitCertSize.toNat ≤ (submitters (earlier ++ [call]) call.view call.cv).card := by
  have hcons' : Consecutive start (earlier ++ [call]) := by
    rw [List.append_cons] at hcons
    exact hcons.of_append
  have hR : ∀ a ∈ earlier ++ [call],
      a.replica ∈ ((earlier ++ [call]).map (·.replica)).toFinset := fun a ha =>
    List.mem_toFinset.mpr (List.mem_map_of_mem ha)
  have hcounts := counts_counted hpos hcons'.of_append fun a ha =>
    hR a (List.mem_append_left _ ha)
  rcases UInt64.lt_or_le call.view (counted commitCertSize earlier).lastView with hlt | hview
  · rw [countCommitment, if_pos hlt]
    refine iff_of_false Bool.false_ne_true fun h => ?_
    rcases hcounts.last with hzero | ⟨a, ha, heq⟩
    · rw [hzero] at hlt
      exact absurd hlt UInt64.not_lt_zero
    · exact absurd (heq ▸ h.1 a ha) (UInt64.not_le.mpr hlt)
  · have hcall := hR call (by simp)
    rw [hcounts.countCommitment_eq_true_iff hcons' hcall hview,
      hcons'.card_submitters (hcons'.stepwise ∅).2.1 hR]
    refine ⟨fun h => ⟨fun a ha => UInt64.le_trans (hcounts.views a ha) hview, h⟩, fun h => h.2⟩

end Commitments

namespace Concrete

open Commitments

def interleavedCalls : List (Submission Bool) :=
  [⟨false, 0, 1⟩, ⟨true, 0, 1⟩, ⟨true, 1, 5⟩, ⟨false, 0, 2⟩]

def interleavedStart (view : UInt64) : ℕ := if view = 0 then 1 else 5

theorem consecutive_interleavedCalls :
    Consecutive interleavedStart (interleavedCalls ++ ⟨false, 1, 5⟩ :: []) := by
  intro view r
  by_cases hzero : view = 0
  · subst hzero
    revert r
    decide
  · by_cases hone : view = 1
    · subst hone
      revert r
      decide
    · have hnil : submitted (interleavedCalls ++ ⟨false, 1, 5⟩ :: []) view r = [] := by
        simp [submitted, interleavedCalls, Ne.symm hzero, Ne.symm hone]
      rw [hnil, interleavedStart, if_neg hzero]
      exact ⟨by decide, rfl⟩

theorem countCommitment_iff_interleaved :
    ((counted 2 interleavedCalls).countCommitment 1 5).1 = true ∧
      (∀ a ∈ interleavedCalls, a.view ≤ 1) ∧
        2 ≤ (submitters (interleavedCalls ++ [⟨false, 1, 5⟩]) 1 5).card :=
  have htrue : ((counted 2 interleavedCalls).countCommitment 1 5).1 = true := by decide
  ⟨htrue, (countCommitment_iff (by decide) consecutive_interleavedCalls).mp htrue⟩

end Concrete

end MinBFT
