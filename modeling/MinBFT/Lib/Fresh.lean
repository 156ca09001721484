import Mathlib.Data.Finset.Card
import Mathlib.Tactic.Common

/-!
# At-most-once delivery by sequence numbers

Items carry a key and a sequence number. For each key the last sequence number delivered is kept,
and an item is delivered only if its own is greater. `fresh` lists the items delivered out of a
sequence.
-/

namespace Fresh

variable {α ι : Type} [DecidableEq ι] (key : α → ι) (seq : α → ℕ)

/-- The last sequence numbers after one more item. -/
def update (last : ι → ℕ) (a : α) : ι → ℕ :=
  if seq a ≤ last (key a) then last else Function.update last (key a) (seq a)

def lastAfter (last : ι → ℕ) (l : List α) : ι → ℕ := l.foldl (update key seq) last

def fresh (last : ι → ℕ) : List α → List α
  | [] => []
  | a :: l => if seq a ≤ last (key a) then fresh last l else a :: fresh (update key seq last a) l

variable {key seq} {last : ι → ℕ}

theorem update_of_le {a : α} (h : seq a ≤ last (key a)) : update key seq last a = last := if_pos h

theorem lastAfter_cons (a : α) (l : List α) :
    lastAfter key seq last (a :: l) = lastAfter key seq (update key seq last a) l := rfl

theorem lastAfter_append (l r : List α) :
    lastAfter key seq last (l ++ r) = lastAfter key seq (lastAfter key seq last l) r :=
  List.foldl_append

theorem fresh_cons_of_le {a : α} (l : List α) (h : seq a ≤ last (key a)) :
    fresh key seq last (a :: l) = fresh key seq last l := if_pos h

theorem fresh_cons_of_lt {a : α} (l : List α) (h : last (key a) < seq a) :
    fresh key seq last (a :: l) = a :: fresh key seq (update key seq last a) l :=
  if_neg (Nat.not_le.mpr h)

theorem fresh_append (l r : List α) :
    fresh key seq last (l ++ r) =
      fresh key seq last l ++ fresh key seq (lastAfter key seq last l) r := by
  induction l generalizing last with
  | nil => rfl
  | cons a l ih =>
      rw [List.cons_append, lastAfter_cons]
      rcases Nat.lt_or_ge (last (key a)) (seq a) with h | h
      · rw [fresh_cons_of_lt _ h, fresh_cons_of_lt _ h, ih, List.cons_append]
      · rw [fresh_cons_of_le _ h, fresh_cons_of_le _ h, ih, update_of_le h]

theorem fresh_prefix {l r : List α} (h : l <+: r) :
    fresh key seq last l <+: fresh key seq last r := by
  obtain ⟨t, rfl⟩ := h
  rw [fresh_append]
  exact List.prefix_append _ _

theorem le_update (a : α) (i : ι) : last i ≤ update key seq last a i := by
  unfold update
  split_ifs with h
  · exact le_rfl
  · by_cases hi : i = key a
    · subst hi
      rw [Function.update_self]
      omega
    · rw [Function.update_of_ne hi]

theorem seq_le_update (a : α) : seq a ≤ update key seq last a (key a) := by
  unfold update
  split_ifs with h
  · exact h
  · rw [Function.update_self]

theorem le_lastAfter (l : List α) (i : ι) : last i ≤ lastAfter key seq last l i := by
  induction l generalizing last with
  | nil => exact le_rfl
  | cons a l ih => exact (le_update a i).trans ih

theorem seq_le_lastAfter {l : List α} {a : α} (h : a ∈ l) :
    seq a ≤ lastAfter key seq last l (key a) := by
  induction l generalizing last with
  | nil => cases h
  | cons b l ih =>
      rw [lastAfter_cons]
      rcases List.mem_cons.mp h with rfl | h
      · exact (seq_le_update a).trans (le_lastAfter l _)
      · exact ih h

/-- Items already covered change nothing. -/
theorem fresh_eq_nil {l : List α} (h : ∀ a ∈ l, seq a ≤ last (key a)) :
    fresh key seq last l = [] ∧ lastAfter key seq last l = last := by
  induction l with
  | nil => exact ⟨rfl, rfl⟩
  | cons a l ih =>
      have ha := h a List.mem_cons_self
      rw [fresh_cons_of_le _ ha, lastAfter_cons, update_of_le ha]
      exact ih fun b hb => h b (.tail a hb)

/-- A sequence may be delivered again from its beginning and only its continuation counts. -/
theorem lastAfter_again (l r : List α) :
    lastAfter key seq (lastAfter key seq last l) (l ++ r) = lastAfter key seq last (l ++ r) ∧
      fresh key seq (lastAfter key seq last l) (l ++ r) =
        fresh key seq (lastAfter key seq last l) r := by
  have hcovered : ∀ a ∈ l, seq a ≤ lastAfter key seq last l (key a) := fun _ => seq_le_lastAfter
  obtain ⟨hnil, hsame⟩ := fresh_eq_nil hcovered
  rw [lastAfter_append, hsame, lastAfter_append, fresh_append, hnil, hsame]
  exact ⟨rfl, rfl⟩

/-- The sequence `r`, delivered after `l`, has the effect of going on to `l'`: it repeats something,
it starts over and goes further, or it comes next. -/
inductive Absorbs (l r : List α) : List α → Prop where
  | again (h : r ⊆ l) : Absorbs l r l
  | anew (h : l <+: r) : Absorbs l r r
  | next : Absorbs l r (l ++ r)

variable (key seq last) in
theorem fresh_append_of_subset {l d : List α} (h : d ⊆ l) :
    fresh key seq last (l ++ d) = fresh key seq last l ∧
      lastAfter key seq last (l ++ d) = lastAfter key seq last l := by
  obtain ⟨hnil, hsame⟩ := @fresh_eq_nil α ι _ key seq (lastAfter key seq last l) d
    fun a ha => seq_le_lastAfter (h ha)
  rw [fresh_append, hnil, List.append_nil, lastAfter_append, hsame]
  exact ⟨rfl, rfl⟩

variable (key seq last) in
/-- Delivering only the beginning `d` of `r` has the effect of going on to a beginning of `l'`. -/
theorem Absorbs.fresh_append {l r l' d : List α} (h : Absorbs l r l') (hd : d <+: r) :
    ∃ l'', l'' <+: l' ∧ fresh key seq last (l ++ d) = fresh key seq last l'' ∧
      lastAfter key seq last (l ++ d) = lastAfter key seq last l'' ∧ (d = r → l'' = l') := by
  cases h with
  | again hsub =>
      obtain ⟨hfresh, hlast⟩ := fresh_append_of_subset key seq last
        (List.Subset.trans hd.subset hsub)
      exact ⟨l, List.prefix_refl l, hfresh, hlast, fun _ => rfl⟩
  | anew hpre =>
      rcases List.prefix_or_prefix_of_prefix hd hpre with hle | ⟨t, rfl⟩
      · obtain ⟨hfresh, hlast⟩ := fresh_append_of_subset key seq last hle.subset
        exact ⟨l, hpre, hfresh, hlast, fun heq => hpre.eq_of_length_le (heq ▸ hle.length_le)⟩
      · obtain ⟨hlast, hfresh⟩ := @lastAfter_again α ι _ key seq last l t
        refine ⟨l ++ t, hd, ?_, ?_, id⟩
        · rw [Fresh.fresh_append, hfresh, ← Fresh.fresh_append]
        · rw [lastAfter_append, hlast]
  | next =>
      exact ⟨l ++ d, List.prefix_append_right_inj l |>.mpr hd, rfl, rfl, fun heq => heq ▸ rfl⟩

/-- A sequence in which the numbers of each key grow is delivered whole. -/
theorem fresh_eq_self {l : List α} (hpos : ∀ a ∈ l, last (key a) < seq a)
    (hinc : l.Pairwise fun a b => key a = key b → seq a < seq b) : fresh key seq last l = l := by
  induction l generalizing last with
  | nil => rfl
  | cons a l ih =>
      obtain ⟨ha, hl⟩ := List.pairwise_cons.mp hinc
      have hlt := hpos a List.mem_cons_self
      rw [fresh_cons_of_lt _ hlt, ih _ hl]
      intro b hb
      unfold update
      rw [if_neg (Nat.not_le.mpr hlt)]
      by_cases hkey : key b = key a
      · rw [hkey, Function.update_self]
        exact ha b hb hkey.symm
      · rw [Function.update_of_ne hkey]
        exact hpos b (.tail a hb)

end Fresh
