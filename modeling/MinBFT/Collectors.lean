import MinBFT.Output

/-!
# Collecting view-change and new-view certificates

The closures returned by `makeReqViewChangeCollector` and `makeViewChangeCollector`.
-/

namespace MinBFT

structure ReqViewChangeCollector where
  view : UInt64
  collected : List ReqViewChange

namespace ReqViewChangeCollector

def init : ReqViewChangeCollector := ⟨0, []⟩

/-- Whether the message had an effect, and the certificate when it is complete. Only requests for
the very next view are collected, one for each replica. -/
def collect (certSize : ℕ) (rvc : ReqViewChange) (c : ReqViewChangeCollector) :
    Bool × Option (List ReqViewChange) × ReqViewChangeCollector :=
  if rvc.newView ≠ c.view + 1 ∨ rvc.replicaID ∈ c.collected.map (·.replicaID) then
    (false, none, c)
  else
    let collected := c.collected ++ [rvc]
    if collected.length < certSize then (true, none, { c with collected })
    else (true, some collected, ⟨c.view + 1, []⟩)

/-- The three things `collect` can do. -/
theorem collect_cases (certSize : ℕ) (rvc : ReqViewChange) (c : ReqViewChangeCollector) :
    ((rvc.newView ≠ c.view + 1 ∨ rvc.replicaID ∈ c.collected.map (·.replicaID)) ∧
        c.collect certSize rvc = (false, none, c)) ∨
      rvc.newView = c.view + 1 ∧ rvc.replicaID ∉ c.collected.map (·.replicaID) ∧
        ((c.collected.length + 1 < certSize ∧
            c.collect certSize rvc = (true, none, ⟨c.view, c.collected ++ [rvc]⟩)) ∨
          certSize ≤ c.collected.length + 1 ∧
            c.collect certSize rvc = (true, some (c.collected ++ [rvc]), ⟨c.view + 1, []⟩)) := by
  unfold collect
  by_cases hignore : rvc.newView ≠ c.view + 1 ∨ rvc.replicaID ∈ c.collected.map (·.replicaID)
  · exact .inl ⟨hignore, if_pos hignore⟩
  · rw [if_neg hignore]
    rw [not_or, not_not] at hignore
    refine .inr ⟨hignore.1, hignore.2, ?_⟩
    simp only [List.length_append, List.length_singleton]
    by_cases hlen : c.collected.length + 1 < certSize
    · exact .inl ⟨hlen, if_pos hlen⟩
    · exact .inr ⟨Nat.not_lt.mp hlen, if_neg hlen⟩

/-- What a certificate consists of. -/
theorem of_cert {certSize : ℕ} {rvc : ReqViewChange} {c : ReqViewChangeCollector}
    {cert : List ReqViewChange} (h : (c.collect certSize rvc).2.1 = some cert) :
    rvc.newView = c.view + 1 ∧ rvc.replicaID ∉ c.collected.map (·.replicaID) ∧
      certSize ≤ c.collected.length + 1 ∧ cert = c.collected ++ [rvc] ∧
      (c.collect certSize rvc).2.2 = ⟨c.view + 1, []⟩ := by
  rcases collect_cases certSize rvc c with ⟨-, heq⟩ | ⟨hview, hnew, ⟨-, heq⟩ | ⟨hlen, heq⟩⟩
  · rw [heq] at h
    cases h
  · rw [heq] at h
    cases h
  · rw [heq] at h ⊢
    cases h
    exact ⟨hview, hnew, hlen, rfl, rfl⟩

theorem mem_of_mem_collect {certSize : ℕ} {rvc x : ReqViewChange} {c : ReqViewChangeCollector}
    (hx : x ∈ (c.collect certSize rvc).2.2.collected) : x = rvc ∨ x ∈ c.collected := by
  rcases collect_cases certSize rvc c with ⟨-, heq⟩ | ⟨-, -, ⟨-, heq⟩ | ⟨-, heq⟩⟩
  · rw [heq] at hx
    exact .inr hx
  · rw [heq] at hx
    simpa [or_comm] using hx
  · rw [heq] at hx
    exact absurd hx List.not_mem_nil

end ReqViewChangeCollector

/-- The first slot of the certificate is reserved for the replica's own ViewChange. -/
structure ViewChangeCollector where
  view : UInt64
  own : Option ViewChange
  others : List ViewChange

namespace ViewChangeCollector

variable (p : Params)

def init : ViewChangeCollector := ⟨0, none, []⟩

def moveTo (view : UInt64) (c : ViewChangeCollector) : ViewChangeCollector :=
  if view > c.view then ⟨view, none, []⟩ else c

def insert (vc : ViewChange) (c : ViewChangeCollector) : Option ViewChangeCollector :=
  if vc.replicaID = p.id then some { c with own := some vc }
  else if c.others.length + 1 < p.config.viewChangeCertSize.toNat then
    some { c with others := c.others ++ [vc] }
  else none

/-- The certificate, once the own slot is filled and there are enough others. -/
def complete (c : ViewChangeCollector) : Option (List ViewChange) :=
  c.own.bind fun own =>
    if c.others.length + 1 < p.config.viewChangeCertSize.toNat then none
    else some (own :: c.others)

def collect (vc : ViewChange) (c : ViewChangeCollector) :
    Bool × Option (List ViewChange) × ViewChangeCollector :=
  if vc.newView < c.view then (false, none, c)
  else
    let c := c.moveTo vc.newView
    if !isPrimary c.view p.id p.config.n then (false, none, c)
    else match c.insert p vc with
      | none => (false, none, c)
      | some c => match c.complete p with
        | none => (true, none, c)
        | some cert => (true, some cert, ⟨c.view + 1, none, []⟩)

def members (c : ViewChangeCollector) : List ViewChange := c.own.toList ++ c.others

variable {p} {c c' : ViewChangeCollector} {vc : ViewChange}

theorem moveTo_view (h : ¬ vc.newView < c.view) : (c.moveTo vc.newView).view = vc.newView := by
  unfold moveTo
  split_ifs with hgt
  · rfl
  · exact UInt64.le_antisymm (UInt64.not_lt.mp h) (UInt64.not_lt.mp hgt)

theorem members_moveTo (view : UInt64) : (c.moveTo view).members ⊆ c.members := by
  unfold moveTo
  split_ifs
  · exact List.nil_subset _
  · exact List.Subset.refl _

theorem view_insert (h : c.insert p vc = some c') : c'.view = c.view := by
  unfold insert at h
  split_ifs at h <;> (cases h; rfl)

theorem mem_insert (h : c.insert p vc = some c') {x : ViewChange} (hx : x ∈ c'.members) :
    x = vc ∨ x ∈ c.members := by
  unfold insert at h
  split_ifs at h
  · cases h
    simp only [members, Option.toList_some, List.singleton_append, List.mem_cons] at hx
    exact hx.imp_right fun hx => List.mem_append_right _ hx
  · cases h
    simp only [members, List.mem_append, List.mem_singleton] at hx ⊢
    tauto

theorem complete_eq_some {cert : List ViewChange} (h : c.complete p = some cert) :
    ∃ own, c.own = some own ∧ cert = own :: c.others ∧
      p.config.viewChangeCertSize.toNat ≤ c.others.length + 1 := by
  obtain ⟨own, hown, h⟩ := Option.bind_eq_some_iff.mp h
  split_ifs at h with hlen
  cases h
  exact ⟨own, hown, rfl, Nat.not_lt.mp hlen⟩

/-- The things `collect` can do: ignore a ViewChange for an earlier view, only move to a later view,
put the ViewChange into the certificate, or complete it. -/
inductive Collected (p : Params) (vc : ViewChange) (c : ViewChangeCollector) :
    Bool × Option (List ViewChange) × ViewChangeCollector → Prop where
  | ignored (hlt : vc.newView < c.view) : Collected p vc c (false, none, c)
  | moved (hge : ¬ vc.newView < c.view)
      (hout : isPrimary vc.newView p.id p.config.n = false ∨
        (c.moveTo vc.newView).insert p vc = none) :
      Collected p vc c (false, none, c.moveTo vc.newView)
  | inserted {c' : ViewChangeCollector} (hge : ¬ vc.newView < c.view)
      (hprimary : isPrimary vc.newView p.id p.config.n = true)
      (hinsert : (c.moveTo vc.newView).insert p vc = some c')
      (hopen : c'.complete p = none) : Collected p vc c (true, none, c')
  | completed {c' : ViewChangeCollector} {cert : List ViewChange} (hge : ¬ vc.newView < c.view)
      (hprimary : isPrimary vc.newView p.id p.config.n = true)
      (hinsert : (c.moveTo vc.newView).insert p vc = some c')
      (hcert : c'.complete p = some cert) :
      Collected p vc c (true, some cert, ⟨vc.newView + 1, none, []⟩)

theorem collect_cases (vc : ViewChange) (c : ViewChangeCollector) :
    Collected p vc c (c.collect p vc) := by
  unfold collect
  by_cases hlt : vc.newView < c.view
  · rw [if_pos hlt]
    exact .ignored hlt
  · simp only [if_neg hlt, moveTo_view hlt]
    cases hprimary : isPrimary vc.newView p.id p.config.n with
    | false => exact .moved hlt (.inl hprimary)
    | true =>
        cases hinsert : (c.moveTo vc.newView).insert p vc with
        | none => exact .moved hlt (.inr hinsert)
        | some c' =>
            cases hcert : c'.complete p with
            | none =>
                simp only [Bool.not_true, Bool.false_eq_true, if_false, hcert]
                exact .inserted hlt hprimary hinsert hcert
            | some cert =>
                simp only [Bool.not_true, Bool.false_eq_true, if_false, hcert,
                  view_insert hinsert, moveTo_view hlt]
                exact .completed hlt hprimary hinsert hcert

theorem mem_of_mem_collect {x : ViewChange} (hx : x ∈ (c.collect p vc).2.2.members) :
    x = vc ∨ x ∈ c.members := by
  have h := @collect_cases p vc c
  generalize c.collect p vc = res at h hx
  cases h with
  | ignored => exact .inr hx
  | moved => exact .inr (members_moveTo _ hx)
  | inserted _ _ hinsert => exact (mem_insert hinsert hx).imp_right (members_moveTo _ ·)
  | completed => exact absurd hx List.not_mem_nil

theorem mem_of_mem_cert {cert : List ViewChange} (h : (c.collect p vc).2.1 = some cert)
    {x : ViewChange} (hx : x ∈ cert) : x = vc ∨ x ∈ c.members := by
  have hcases := @collect_cases p vc c
  generalize c.collect p vc = res at h hcases
  cases hcases with
  | completed _ _ hinsert hcert =>
      cases h
      obtain ⟨own, hown, rfl, -⟩ := complete_eq_some hcert
      refine (mem_insert hinsert ?_).imp_right (members_moveTo _ ·)
      simpa [members, hown] using hx
  | _ => cases h

theorem isPrimary_of_cert {cert : List ViewChange} (h : (c.collect p vc).2.1 = some cert) :
    isPrimary vc.newView p.id p.config.n = true := by
  have hcases := @collect_cases p vc c
  generalize c.collect p vc = res at h hcases
  cases hcases with
  | completed _ hprimary => exact hprimary
  | _ => cases h

/-- What holds of the own ViewChange while it is collected and when it is in a certificate. -/
theorem own_collect {Q : ViewChange → Prop}
    (h : ∀ x, c.own = some x → x.newView = c.view ∧ Q x) (hvc : vc.replicaID = p.id → Q vc) :
    (∀ x, (c.collect p vc).2.2.own = some x → x.newView = (c.collect p vc).2.2.view ∧ Q x) ∧
      ∀ cert, (c.collect p vc).2.1 = some cert → ∃ x ∈ cert, x.newView = vc.newView ∧ Q x := by
  have hmove : ∀ x, (c.moveTo vc.newView).own = some x →
      x.newView = (c.moveTo vc.newView).view ∧ Q x := by
    unfold moveTo
    split_ifs
    · exact fun x hx => nomatch hx
    · exact h
  have hinsert : ∀ {c'}, ¬ vc.newView < c.view → (c.moveTo vc.newView).insert p vc = some c' →
      ∀ x, c'.own = some x → x.newView = c'.view ∧ Q x := by
    intro c' hge hins x hx
    rw [view_insert hins]
    unfold insert at hins
    split_ifs at hins with hown
    · cases hins
      cases hx
      exact ⟨(moveTo_view hge).symm, hvc hown⟩
    · cases hins
      exact hmove x hx
  have hcases := @collect_cases p vc c
  generalize c.collect p vc = res at hcases
  cases hcases with
  | ignored => exact ⟨h, fun _ hc => nomatch hc⟩
  | moved => exact ⟨hmove, fun _ hc => nomatch hc⟩
  | inserted hge _ hins => exact ⟨hinsert hge hins, fun _ hc => nomatch hc⟩
  | completed hge _ hins hcert =>
      refine ⟨fun x hx => (nomatch hx), ?_⟩
      rintro _ ⟨⟩
      obtain ⟨own, hown, rfl, -⟩ := complete_eq_some hcert
      obtain ⟨hview, hq⟩ := hinsert hge hins own hown
      exact ⟨own, List.mem_cons_self, hview.trans ((view_insert hins).trans (moveTo_view hge)), hq⟩

theorem le_view_moveTo (view : UInt64) : c.view ≤ (c.moveTo view).view := by
  unfold moveTo
  split_ifs with hgt
  · exact UInt64.le_of_lt hgt
  · exact UInt64.le_refl _

/-- The collector moves to later views, and past the view of a certificate. -/
theorem view_collect (vc : ViewChange) (c : ViewChangeCollector) :
    ((c.collect p vc).2.1 = none ∧ c.view ≤ (c.collect p vc).2.2.view) ∨
      (∃ cert, (c.collect p vc).2.1 = some cert) ∧ c.view ≤ vc.newView ∧
        (c.collect p vc).2.2.view = vc.newView + 1 := by
  have hcases := @collect_cases p vc c
  generalize c.collect p vc = res at hcases
  cases hcases with
  | ignored => exact .inl ⟨rfl, UInt64.le_refl _⟩
  | moved => exact .inl ⟨rfl, le_view_moveTo _⟩
  | inserted _ _ hinsert =>
      refine .inl ⟨rfl, ?_⟩
      rw [view_insert hinsert]
      exact le_view_moveTo _
  | completed hge => exact .inr ⟨⟨_, rfl⟩, UInt64.not_lt.mp hge, rfl⟩

end ViewChangeCollector

end MinBFT
