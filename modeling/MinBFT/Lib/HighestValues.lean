import Mathlib.Data.Finset.Card
import Mathlib.Tactic.Common

/-!
# Counting with a bounded list of highest values

Participants announce growing values. Instead of the last value of each participant, a list of fixed
length keeps high values in descending order: a new value replaces the first smaller one. The list
counts exactly as long as all participants start at one value and step by one (`Exact`): there is
no smaller value precisely when as many participants as the list is long, and one more, have
announced at least the new one.
-/

namespace HighestValues

/-- Replace the first value below `x`; `none` when there is none. -/
def record (x : ℕ) : List ℕ → Option (List ℕ)
  | [] => none
  | y :: ys => if y < x then some (x :: ys) else (record x ys).map (y :: ·)

def atLeast (z : ℕ) (ys : List ℕ) : ℕ := ys.countP (z ≤ ·)

theorem atLeast_cons (z y : ℕ) (ys : List ℕ) :
    atLeast z (y :: ys) = atLeast z ys + if z ≤ y then 1 else 0 := by
  simp [atLeast, List.countP_cons]

theorem atLeast_eq_zero {z : ℕ} {ys : List ℕ} (h : ∀ y ∈ ys, y < z) : atLeast z ys = 0 := by
  rw [atLeast, List.countP_eq_zero]
  intro y hy
  have := h y hy
  simp only [decide_eq_true_eq]
  omega

theorem atLeast_replicate_zero {z : ℕ} (hz : 1 ≤ z) (k : ℕ) :
    atLeast z (List.replicate k 0) = 0 := by
  apply atLeast_eq_zero
  intro y hy
  rw [List.eq_of_mem_replicate hy]
  exact hz

theorem atLeast_of_record_eq_none {x : ℕ} {ys : List ℕ} (h : record x ys = none) :
    atLeast x ys = ys.length := by
  induction ys with
  | nil => rfl
  | cons y ys ih =>
      rw [record] at h
      split_ifs at h with hlt
      rw [atLeast_cons, ih (Option.map_eq_none_iff.mp h), if_pos (Nat.not_lt.mp hlt),
        List.length_cons]

/-- What recording a value does to a descending list. -/
theorem record_eq_some {x : ℕ} {ys ys' : List ℕ} (hsorted : ys.Pairwise (· ≥ ·))
    (h : record x ys = some ys') :
    ys'.Pairwise (· ≥ ·) ∧ ys'.length = ys.length ∧ atLeast x ys < ys.length ∧
      (∀ y ∈ ys', y = x ∨ y ∈ ys) ∧
      ∀ z, atLeast z ys' =
        if z ≤ x then max (atLeast z ys) (atLeast x ys + 1) else atLeast z ys := by
  induction ys generalizing ys' with
  | nil => cases h
  | cons y ys ih =>
      obtain ⟨hy, hys⟩ := List.pairwise_cons.mp hsorted
      rw [record] at h
      split_ifs at h with hlt
      · cases h
        have hzero : ∀ z, y < z → atLeast z ys = 0 := fun z hz =>
          atLeast_eq_zero fun a ha => (hy a ha).trans_lt hz
        refine ⟨List.pairwise_cons.mpr ⟨fun a ha => (hy a ha).trans hlt.le, hys⟩, rfl, ?_, ?_, ?_⟩
        · rw [atLeast_cons, hzero x hlt, if_neg (Nat.not_le.mpr hlt)]
          exact Nat.succ_pos _
        · intro a ha
          exact (List.mem_cons.mp ha).imp_right fun ha => .tail y ha
        · intro z
          rw [atLeast_cons, atLeast_cons, atLeast_cons, hzero x hlt]
          by_cases hzy : z ≤ y
          · simp only [hzy, hzy.trans hlt.le, if_true, Nat.not_le.mpr hlt, if_false]
            omega
          · rw [hzero z (Nat.not_le.mp hzy)]
            simp only [hzy, Nat.not_le.mpr hlt, if_false]
            split_ifs <;> rfl
      · obtain ⟨ys₁, hrec, rfl⟩ := Option.map_eq_some_iff.mp h
        obtain ⟨hsorted', hlen, hlt', hmem, hcount⟩ := ih hys hrec
        have hxy : x ≤ y := Nat.not_lt.mp hlt
        refine ⟨List.pairwise_cons.mpr ⟨?_, hsorted'⟩, by simp [hlen], ?_, ?_, ?_⟩
        · intro a ha
          rcases hmem a ha with rfl | ha
          · exact hxy
          · exact hy a ha
        · rw [atLeast_cons, if_pos hxy, List.length_cons]
          omega
        · intro a ha
          rcases List.mem_cons.mp ha with rfl | ha
          · exact .inr List.mem_cons_self
          · exact (hmem a ha).imp_right fun ha => .tail y ha
        · intro z
          rw [atLeast_cons, atLeast_cons, atLeast_cons, hcount z, if_pos hxy]
          by_cases hzx : z ≤ x
          · simp only [hzx, hzx.trans hxy, if_true]
            omega
          · simp only [hzx, if_false]

theorem pairwise_record {ys : List ℕ} (hs : ys.Pairwise (· ≥ ·)) (x : ℕ) :
    ((record x ys).getD ys).Pairwise (· ≥ ·) := by
  cases hrec : record x ys with
  | none => exact hs
  | some ys' => exact (record_eq_some hs hrec).1

theorem length_record {ys : List ℕ} (hs : ys.Pairwise (· ≥ ·)) (x : ℕ) :
    ((record x ys).getD ys).length = ys.length := by
  cases hrec : record x ys with
  | none => rfl
  | some ys' => exact (record_eq_some hs hrec).2.1

section Participants

variable {ι : Type} {R : Finset ι} {last : ι → Option ℕ}

def reached (R : Finset ι) (last : ι → Option ℕ) (z : ℕ) : ℕ :=
  (R.filter fun r => ∃ l ∈ last r, z ≤ l).card

theorem reached_update [DecidableEq ι] {r : ι} (hr : r ∈ R) {x : ℕ} (hlt : ∀ l ∈ last r, l < x)
    (z : ℕ) :
    reached R (Function.update last r (some x)) z =
      reached R last z + if z ≤ x ∧ ∀ l ∈ last r, l < z then 1 else 0 := by
  unfold reached
  split_ifs with h
  · have hset : (R.filter fun a => ∃ l ∈ Function.update last r (some x) a, z ≤ l) =
        insert r (R.filter fun a => ∃ l ∈ last a, z ≤ l) := by
      ext a
      by_cases ha : a = r
      · subst ha
        simp [hr, h.1]
      · simp [ha]
    rw [hset, Finset.card_insert_of_notMem]
    rintro hmem
    obtain ⟨-, l, hl, hzl⟩ := Finset.mem_filter.mp hmem
    exact absurd hzl (Nat.not_le.mpr (h.2 l hl))
  · congr 1
    ext a
    by_cases ha : a = r
    · subst ha
      simp only [Finset.mem_filter, Function.update_self, Option.mem_some_iff, exists_eq_left']
      refine and_congr_right fun _ => ⟨fun hzx => ?_, ?_⟩
      · by_contra hno
        refine h ⟨hzx, fun l hl => ?_⟩
        by_contra hge
        exact hno ⟨l, hl, Nat.not_lt.mp hge⟩
      · rintro ⟨l, hl, hzl⟩
        exact hzl.trans (hlt l hl).le
    · simp [ha]

/-- A participant between two values makes a difference. -/
theorem reached_add_one_le {r : ι} (hr : r ∈ R) {l x z : ℕ} (hl : l ∈ last r) (hzl : z ≤ l)
    (hlx : l < x) : reached R last x + 1 ≤ reached R last z := by
  apply Nat.succ_le_of_lt
  apply Finset.card_lt_card
  refine ⟨?_, ?_⟩
  · intro a ha
    obtain ⟨haR, l', hl', hxl⟩ := Finset.mem_filter.mp ha
    exact Finset.mem_filter.mpr ⟨haR, l', hl', by omega⟩
  · intro hsub
    obtain ⟨-, l', hl', hxl⟩ := Finset.mem_filter.mp
      (hsub (Finset.mem_filter.mpr ⟨hr, l, hl, hzl⟩))
    cases Option.mem_unique hl hl'
    omega

theorem reached_le_of_le {x z : ℕ} (h : z ≤ x) : reached R last x ≤ reached R last z := by
  apply Finset.card_le_card
  intro a ha
  obtain ⟨haR, l, hl, hxl⟩ := Finset.mem_filter.mp ha
  exact Finset.mem_filter.mpr ⟨haR, l, hl, h.trans hxl⟩

/-- The list counts participants exactly, up to its length. -/
def Exact (R : Finset ι) (last : ι → Option ℕ) (ys : List ℕ) : Prop :=
  ∀ z, 1 ≤ z → atLeast z ys = min ys.length (reached R last z)

theorem Exact.init (h : ∀ r ∈ R, ∀ l ∈ last r, l = 0) (k : ℕ) :
    Exact R last (List.replicate k 0) := by
  intro z hz
  have hnone : reached R last z = 0 := by
    rw [reached, Finset.card_eq_zero, Finset.filter_eq_empty_iff]
    rintro r hr ⟨l, hl, hzl⟩
    have := h r hr l hl
    omega
  rw [atLeast_replicate_zero hz, hnone, Nat.min_zero]

/-- A value by which a participant joins the others or moves on by one. -/
def Stepwise (R : Finset ι) (last : ι → Option ℕ) (r : ι) (x : ℕ) : Prop :=
  (∃ l, last r = some l ∧ x = l + 1) ∨
    last r = none ∧ ∀ a ∈ R, ∀ l ∈ last a, x ≤ l

theorem Exact.record [DecidableEq ι] {ys : List ℕ} (h : Exact R last ys)
    (hs : ys.Pairwise (· ≥ ·)) {r : ι} (hr : r ∈ R) {x : ℕ} (hx : 1 ≤ x)
    (hstep : Stepwise R last r x) :
    Exact R (Function.update last r (some x)) ((HighestValues.record x ys).getD ys) := by
  have hlt : ∀ l ∈ last r, l < x := by
    intro l hl
    rcases hstep with ⟨l', hl', rfl⟩ | ⟨hnone, -⟩
    · cases Option.mem_unique hl hl'
      exact Nat.lt_succ_self l
    · rw [hnone] at hl
      cases hl
  -- below the new value, either the participant is already counted, or nobody lies in between
  have hbelow : ∀ z, z ≤ x →
      (¬∀ l ∈ last r, l < z) ∧ reached R last x + 1 ≤ reached R last z ∨
      (∀ l ∈ last r, l < z) ∧ reached R last z = reached R last x := by
    intro z hzx
    rcases hstep with ⟨l, hl, rfl⟩ | ⟨hnone, hall⟩
    · rcases Nat.lt_or_ge l z with hlz | hzl
      · obtain rfl : z = l + 1 := by omega
        exact .inr ⟨fun l' hl' => Option.mem_unique hl hl' ▸ hlz, rfl⟩
      · exact .inl ⟨fun hall => absurd hzl (Nat.not_le.mpr (hall l hl)),
          reached_add_one_le hr hl hzl (Nat.lt_succ_self l)⟩
    · refine .inr ⟨by simp [hnone], ?_⟩
      unfold reached
      congr 1
      ext a
      simp only [Finset.mem_filter]
      refine and_congr_right fun haR => ⟨?_, ?_⟩
      · rintro ⟨l, hl, -⟩
        exact ⟨l, hl, hall a haR l hl⟩
      · rintro ⟨l, hl, hxl⟩
        exact ⟨l, hl, hzx.trans hxl⟩
  intro z hz
  rw [reached_update hr hlt]
  have hzcount := h z hz
  have hxcount := h x hx
  cases hrec : HighestValues.record x ys with
  | none =>
      have hfull := atLeast_of_record_eq_none hrec
      rw [Option.getD_none]
      split_ifs with hzx
      · have hle : reached R last x ≤ reached R last z := reached_le_of_le hzx.1
        omega
      · exact hzcount
  | some ys' =>
      obtain ⟨-, hlen, hroom, -, hcount⟩ := record_eq_some hs hrec
      rw [Option.getD_some, hcount z, hlen]
      by_cases hzx : z ≤ x
      · rcases hbelow z hzx with ⟨hold, hmore⟩ | ⟨hnew, heq⟩
        · rw [if_pos hzx, if_neg (fun hc => hold hc.2)]
          omega
        · rw [if_pos hzx, if_pos ⟨hzx, hnew⟩]
          omega
      · rw [if_neg hzx, if_neg (fun hc => hzx hc.1)]
        exact hzcount

/-- With exact counting, there is no smaller value precisely when enough participants have announced
at least the new one. -/
theorem Exact.record_eq_none_iff [DecidableEq ι] {ys : List ℕ} (h : Exact R last ys)
    (hs : ys.Pairwise (· ≥ ·)) {r : ι} (hr : r ∈ R) {x : ℕ} (hx : 1 ≤ x)
    (hlt : ∀ l ∈ last r, l < x) :
    HighestValues.record x ys = none ↔
      ys.length + 1 ≤ reached R (Function.update last r (some x)) x := by
  have hcount := h x hx
  rw [reached_update hr hlt, if_pos ⟨le_rfl, hlt⟩]
  cases hrec : HighestValues.record x ys with
  | none =>
      have hfull := atLeast_of_record_eq_none hrec
      simp only [true_iff]
      omega
  | some ys' =>
      obtain ⟨-, -, hroom, -⟩ := record_eq_some hs hrec
      simp only [reduceCtorEq, false_iff]
      omega

end Participants

end HighestValues
