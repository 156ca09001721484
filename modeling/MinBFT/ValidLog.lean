import MinBFT.Embedded

/-!
# Validated message logs, read forwards

`validateMessageLog` walks a log from its last message. Here are the consequences in the order the
messages were generated: all come from one replica, their counters are consecutive and end right
below the counter of the ViewChange that carries the log, and only the first may start a view.
-/

namespace MinBFT

namespace BackwardsLog

variable {replicaID : UInt32} {view : UInt64}

theorem concat {l : List CertifiedMessage} {m : CertifiedMessage} {cv : UInt64} :
    BackwardsLog replicaID view (l ++ [m]).reverse cv ↔
      m.replicaID = replicaID ∧ m.counter + 1 = cv ∧
        (∀ v, m.startsView = some v → v = view ∧ l = []) ∧
        (m.startsView = none → l = [] → view = 0 ∧ m.counter = 1) ∧
        BackwardsLog replicaID view l.reverse m.counter := by
  rw [List.reverse_append, List.reverse_singleton, List.singleton_append, BackwardsLog]
  simp only [List.reverse_eq_nil_iff]

theorem replicaID_eq {l : List CertifiedMessage} {cv : UInt64}
    (h : BackwardsLog replicaID view l.reverse cv) {m : CertifiedMessage} (hm : m ∈ l) :
    m.replicaID = replicaID := by
  induction l using List.reverseRecOn generalizing cv with
  | nil => cases hm
  | append_singleton l x ih =>
      rw [concat] at h
      rcases List.mem_append.mp hm with hm | hm
      · exact ih h.2.2.2.2 hm
      · rw [List.mem_singleton.mp hm]
        exact h.1

theorem startsView_of_mem_tail {l : List CertifiedMessage} {cv : UInt64}
    (h : BackwardsLog replicaID view l.reverse cv) {m : CertifiedMessage} (hm : m ∈ l.tail) :
    m.startsView = none := by
  induction l using List.reverseRecOn generalizing cv with
  | nil => cases hm
  | append_singleton l x ih =>
      rw [concat] at h
      cases l with
      | nil => cases hm
      | cons y l =>
          rw [List.cons_append, List.tail_cons, List.mem_append, List.mem_singleton] at hm
          rcases hm with hm | rfl
          · exact ih h.2.2.2.2 hm
          · by_contra hne
            obtain ⟨v, hv⟩ := Option.ne_none_iff_exists'.mp hne
            exact List.cons_ne_nil y l (h.2.2.1 v hv).2

/-- The first entry starts the log's view, unless the log reaches down to counter one in view
zero. -/
theorem head {l : List CertifiedMessage} {m : CertifiedMessage} {cv : UInt64}
    (h : BackwardsLog replicaID view (m :: l).reverse cv) :
    m.startsView = some view ∨ (m.startsView = none ∧ view = 0 ∧ m.counter = 1) := by
  induction l using List.reverseRecOn generalizing cv with
  | nil =>
      have hm := concat (l := []).mp h
      cases hv : m.startsView with
      | none => exact Or.inr ⟨rfl, hm.2.2.2.1 hv rfl⟩
      | some v => exact Or.inl (congrArg some (hm.2.2.1 v hv).1)
  | append_singleton l x ih =>
      rw [← List.cons_append, concat] at h
      exact ih h.2.2.2.2

/-- Nonzero counters in a valid log are consecutive numbers that end right below `cv`. -/
theorem counters {l : List CertifiedMessage} {cv : UInt64}
    (h : BackwardsLog replicaID view l.reverse cv) (hcv : cv ≠ 0)
    (hpos : ∀ m ∈ l, m.counter ≠ 0) :
    l.length < cv.toNat ∧
      l.map (·.counter.toNat) = List.range' (cv.toNat - l.length) l.length := by
  induction l using List.reverseRecOn generalizing cv with
  | nil =>
      have : cv.toNat ≠ 0 := fun hz => hcv (UInt64.toNat_inj.mp hz)
      exact ⟨by simp; omega, rfl⟩
  | append_singleton l x ih =>
      rw [concat] at h
      have hx : x.counter ≠ 0 := hpos x (by simp)
      obtain ⟨hlen, hmap⟩ := ih h.2.2.2.2 hx fun m hm => hpos m (by simp [hm])
      have hsucc : cv.toNat = x.counter.toNat + 1 := by
        have hlt : x.counter.toNat + 1 < 2 ^ 64 := by
          by_contra hge
          have hmax := x.counter.toNat_lt
          apply hcv
          rw [← h.2.1]
          apply UInt64.toNat_inj.mp
          rw [UInt64.toNat_add]
          have : x.counter.toNat + 1 = 2 ^ 64 := by omega
          simp [this]
        rw [← h.2.1, UInt64.toNat_add]
        simpa using hlt
      refine ⟨by simp; omega, ?_⟩
      rw [List.map_append, hmap, List.length_append, List.length_singleton, List.range'_concat]
      congr 1
      · congr 1
        omega
      · simp only [List.map_cons, List.map_nil, List.cons.injEq, and_true]
        omega

end BackwardsLog

section

variable {crypto : Crypto}

theorem Hereditarily.uiValid {m : CertifiedMessage}
    (h : HereditarilySound crypto (.certified m)) : UIValid crypto m := h.self.1

theorem Hereditarily.validLog {vc : ViewChange}
    (h : HereditarilySound crypto (.certified (.viewChange vc))) :
    (vc.messageLog = [] → vc.newView - 1 = 0 ∧ vc.ui.counter = 1) ∧
      BackwardsLog vc.replicaID (vc.newView - 1) vc.messageLog.reverse vc.ui.counter :=
  validateMessageLog_eq_ok.mp h.self.2.2

theorem Hereditarily.log_counters {vc : ViewChange}
    (h : HereditarilySound crypto (.certified (.viewChange vc))) :
    vc.messageLog.length < vc.ui.counter.toNat ∧
      vc.messageLog.map (·.counter.toNat) =
        List.range' (vc.ui.counter.toNat - vc.messageLog.length) vc.messageLog.length :=
  h.validLog.2.counters h.uiValid.1 fun _ hm => (h.messageLog hm).uiValid.1

/-- A message whose counter is among those of a log is found there. -/
theorem exists_mem_messageLog {vc : ViewChange} {a : CertifiedMessage}
    (huniq : UniqueUI crypto) (h : HereditarilySound crypto (.certified (.viewChange vc)))
    (ha : UIValid crypto a) (hid : a.replicaID = vc.replicaID)
    (hlow : vc.ui.counter.toNat - vc.messageLog.length ≤ a.counter.toNat)
    (hhigh : a.counter.toNat < vc.ui.counter.toNat) :
    ∃ x ∈ vc.messageLog, SameAuthen crypto.sha256 a x := by
  obtain ⟨hlen, hmap⟩ := h.log_counters
  have hmem : a.counter.toNat ∈ vc.messageLog.map (·.counter.toNat) := by
    rw [hmap, List.mem_range'_1]
    omega
  obtain ⟨x, hx, hcv⟩ := List.mem_map.mp hmem
  refine ⟨x, hx, huniq.sameAuthen ha (h.messageLog hx).uiValid ?_ (UInt64.toNat_inj.mp hcv.symm)⟩
  rw [hid, h.validLog.2.replicaID_eq hx]

theorem mem_tail_of_viewChange_mem_withoutLeading {l : List CertifiedMessage} {vc : ViewChange}
    (h : CertifiedMessage.viewChange vc ∈ withoutLeading l) :
    CertifiedMessage.viewChange vc ∈ l.tail := by
  cases l with
  | nil => cases h
  | cons x l => cases x <;> simp_all [withoutLeading]

/-- Log entries other than a leading ViewChange are proposals or commitments to proposals. -/
theorem proposed_of_mem_withoutLeading {vc : ViewChange} {m : CertifiedMessage}
    (h : HereditarilySound crypto (.certified (.viewChange vc)))
    (hm : m ∈ withoutLeading vc.messageLog) :
    (∃ p, m.proposed = .prepare p) ∨ ∃ nv, m.proposed = .newView nv := by
  have hsound := h.messageLog (mem_of_mem_withoutLeading hm)
  cases m with
  | prepare p => exact Or.inl ⟨p, rfl⟩
  | commit c => exact hsound.self.2
  | newView nv => exact Or.inr ⟨nv, rfl⟩
  | viewChange lead =>
      have := h.validLog.2.startsView_of_mem_tail (mem_tail_of_viewChange_mem_withoutLeading hm)
      cases this

end

end MinBFT
