import Mathlib.Data.List.Basic

/-!
# Objects that refer to older objects

A store is the list of the objects allocated so far, the latest first. The reference to an object is
the number of objects older than it, which later allocations do not change. An object refers to
older ones only, so what a reference stands for is a recursion over the store, and invariants of
objects can speak about the part of the store below them.

`Allocates` is a triple for computations that do nothing but allocate. They extend the store, so
what is known about older references can be framed.
-/

namespace Store

variable {α β : Type}

def get? : List α → ℕ → Option α
  | [], _ => none
  | o :: older, ref => if ref = older.length then some o else get? older ref

/-- What a reference stands for, given what an object stands for once its references are
resolved. -/
def read (interp : (ℕ → Option β) → α → Option β) : List α → ℕ → Option β
  | [], _ => none
  | o :: older, ref =>
      if ref = older.length then interp (read interp older) o else read interp older ref

def modify (f : α → α) : List α → ℕ → List α
  | [], _ => []
  | o :: older, ref => if ref = older.length then f o :: older else o :: modify f older ref

def Forall (P : List α → α → Prop) : List α → Prop
  | [] => True
  | o :: older => P older o ∧ Forall P older

def reachable (refs : α → List ℕ) (p : α → Bool) : List α → ℕ → Bool
  | [], _ => false
  | o :: older, ref =>
      if ref = older.length then p o && (refs o).all (reachable refs p older)
      else reachable refs p older ref

@[simp] theorem get?_top (o : α) (older : List α) : get? (o :: older) older.length = some o :=
  if_pos rfl

@[simp] theorem read_top (interp : (ℕ → Option β) → α → Option β) (o : α) (older : List α) :
    read interp (o :: older) older.length = interp (read interp older) o :=
  if_pos rfl

theorem get?_of_ne {o : α} {older : List α} {ref : ℕ} (h : ref ≠ older.length) :
    get? (o :: older) ref = get? older ref :=
  if_neg h

theorem read_of_ne {interp : (ℕ → Option β) → α → Option β} {o : α} {older : List α} {ref : ℕ}
    (h : ref ≠ older.length) : read interp (o :: older) ref = read interp older ref :=
  if_neg h

@[simp] theorem length_modify (f : α → α) (s : List α) (ref : ℕ) :
    (modify f s ref).length = s.length := by
  induction s with
  | nil => rfl
  | cons o older ih =>
      rw [modify]
      split_ifs
      · rfl
      · rw [List.length_cons, List.length_cons, ih]

/-- What a change of one object leaves as it is stays the same behind every reference. -/
theorem get?_modify_map {γ : Type} {f : α → α} {k : α → γ} (hf : ∀ o, k (f o) = k o)
    (s : List α) (ref ref' : ℕ) :
    (get? (modify f s ref) ref').map k = (get? s ref').map k := by
  induction s with
  | nil => rfl
  | cons o older ih =>
      rw [modify]
      split_ifs with h
      · rw [get?, get?]
        split_ifs
        · rw [Option.map_some, Option.map_some, hf]
        · rfl
      · rw [get?, get?, length_modify]
        split_ifs
        · rfl
        · exact ih

theorem forall_modify {P : List α → α → Prop} {f : α → α} {s : List α} {ref : ℕ}
    (hobject : ∀ older o, P older o → P older (f o))
    (holder : ∀ older o ref, P older o → P (modify f older ref) o) (h : Forall P s) :
    Forall P (modify f s ref) := by
  induction s with
  | nil => exact h
  | cons o older ih =>
      rw [modify]
      split_ifs
      · exact ⟨hobject older o h.1, h.2⟩
      · exact ⟨holder older o ref h.1, ih h.2⟩

/-- Induction over what can be reached from a reference: a property passes from the objects referred
to to the one that refers to them, and it does not depend on later allocations. -/
theorem reachable_induction {P : List α → α → Prop} {refs : α → List ℕ} {p : α → Bool}
    {Q : List α → ℕ → Prop}
    (object : ∀ older o, P older o → p o = true → (∀ r ∈ refs o, Q older r) →
      Q (o :: older) older.length)
    (later : ∀ older o ref, ref ≠ older.length → Q older ref → Q (o :: older) ref)
    {s : List α} (hs : Forall P s) {ref : ℕ} (href : reachable refs p s ref = true) : Q s ref := by
  induction s generalizing ref with
  | nil => cases href
  | cons o older ih =>
      rw [reachable] at href
      split_ifs at href with htop
      · subst htop
        rw [Bool.and_eq_true, List.all_eq_true] at href
        exact object older o hs.1 href.1 fun r hr => ih hs.2 (href.2 r hr)
      · exact later older o ref htop (ih hs.2 href)

theorem lt_of_read {interp : (ℕ → Option β) → α → Option β} {s : List α} {ref : ℕ} {b : β}
    (h : read interp s ref = some b) : ref < s.length := by
  induction s with
  | nil => cases h
  | cons o older ih =>
      rw [List.length_cons]
      by_cases htop : ref = older.length
      · exact htop ▸ Nat.lt_succ_self _
      · rw [read_of_ne htop] at h
        exact Nat.lt_trans (ih h) (Nat.lt_succ_self _)

/-- What does not depend on later allocations holds in every extension of the store. -/
theorem of_suffix {Q : List α → ℕ → Prop}
    (later : ∀ older o ref, ref ≠ older.length → Q older ref → Q (o :: older) ref)
    {s s' : List α} (h : s <:+ s') {ref : ℕ} (hlt : ref < s.length) (hQ : Q s ref) : Q s' ref := by
  obtain ⟨new, rfl⟩ := h
  induction new with
  | nil => exact hQ
  | cons o new ih =>
      have hle : s.length ≤ (new ++ s).length := by
        rw [List.length_append]
        exact Nat.le_add_left _ _
      exact later _ o ref (Nat.ne_of_lt (Nat.lt_of_lt_of_le hlt hle)) ih

/-! ## Allocation -/

abbrev Alloc (α β : Type) := StateT (List α) Option β

def alloc (o : α) : Alloc α ℕ := fun s => some (s.length, o :: s)

/-- From a store that satisfies `I` and `P` the computation only extends the store, keeps `I` and
establishes `Q`, if it succeeds. -/
def Allocates (I P : List α → Prop) (x : Alloc α β) (Q : β → List α → Prop) : Prop :=
  ∀ s b s', I s → P s → x s = some (b, s') → I s' ∧ s <:+ s' ∧ Q b s'

namespace Allocates

variable {γ : Type} {I P F : List α → Prop} {x : Alloc α β} {Q Q' : β → List α → Prop}

theorem pure {b : β} (h : ∀ s, P s → Q b s) : Allocates I P (Pure.pure b : Alloc α β) Q := by
  intro s b' s' hI hP hx
  cases hx
  exact ⟨hI, List.suffix_refl s, h s hP⟩

theorem bind {f : β → Alloc α γ} {R : γ → List α → Prop} (hx : Allocates I P x Q)
    (hf : ∀ b, Allocates I (Q b) (f b) R) : Allocates I P (x >>= f) R := by
  intro s c s' hI hP hrun
  obtain ⟨⟨b, s₁⟩, hb, hc⟩ := Option.bind_eq_some_iff.mp hrun
  obtain ⟨hI₁, hsuffix, hQ⟩ := hx s b s₁ hI hP hb
  obtain ⟨hI', hsuffix', hR⟩ := hf b s₁ c s' hI₁ hQ hc
  exact ⟨hI', hsuffix.trans hsuffix', hR⟩

theorem mono (hx : Allocates I P x Q) (hQ : ∀ b s, Q b s → Q' b s) : Allocates I P x Q' := by
  intro s b s' hI hP hrun
  obtain ⟨hI', hsuffix, h⟩ := hx s b s' hI hP hrun
  exact ⟨hI', hsuffix, hQ b s' h⟩

/-- What later allocations leave alone can be carried along. -/
theorem frame (hF : ∀ s s', s <:+ s' → F s → F s') (hx : Allocates I (fun _ => True) x Q) :
    Allocates I F x (fun b s => F s ∧ Q b s) := by
  intro s b s' hI hFs hrun
  obtain ⟨hI', hsuffix, hQ⟩ := hx s b s' hI trivial hrun
  exact ⟨hI', hsuffix, hF s s' hsuffix hFs, hQ⟩

theorem object {o : α} {Q : ℕ → List α → Prop}
    (h : ∀ s, I s → P s → I (o :: s) ∧ Q s.length (o :: s)) : Allocates I P (alloc o) Q := by
  intro s b s' hI hP hrun
  cases hrun
  obtain ⟨hI', hQ⟩ := h s hI hP
  exact ⟨hI', List.suffix_cons o s, hQ⟩

/-- One more element before those of a list. -/
theorem cons {δ : Type} {Q : δ → β → List α → Prop} {a : δ} {as : List δ} {xs : Alloc α (List β)}
    (hQ : ∀ a b s s', s <:+ s' → Q a b s → Q a b s')
    (hx : Allocates I (fun _ => True) x (Q a))
    (hxs : Allocates I (fun _ => True) xs fun bs s => List.Forall₂ (Q · · s) as bs) :
    Allocates I (fun _ => True) (do let b ← x; let bs ← xs; return b :: bs)
      fun bs s => List.Forall₂ (Q · · s) (a :: as) bs := by
  refine hx.bind fun b => (hxs.frame (hQ a b)).bind fun bs => pure fun s h => ?_
  exact .cons h.1 h.2

theorem mapM {δ : Type} {Q : δ → β → List α → Prop} {f : δ → Alloc α β} {as : List δ}
    (hQ : ∀ a b s s', s <:+ s' → Q a b s → Q a b s')
    (hf : ∀ a ∈ as, Allocates I (fun _ => True) (f a) (Q a)) :
    Allocates I (fun _ => True) (as.mapM f) fun bs s => List.Forall₂ (Q · · s) as bs := by
  induction as with
  | nil => exact pure fun _ _ => .nil
  | cons a as ih =>
      rw [List.mapM_cons]
      exact cons hQ (hf a List.mem_cons_self) (ih fun b hb => hf b (List.mem_cons_of_mem a hb))

end Allocates

end Store
