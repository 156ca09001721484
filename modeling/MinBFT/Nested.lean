import MinBFT.Embedded

/-!
# Everything inside a message

`nested` lists a message and all that is embedded in it at any depth, which makes hereditary
properties decidable whenever the property itself is.
-/

namespace MinBFT

mutual

def CertifiedMessage.nested : CertifiedMessage → List Message
  | .prepare m => [.certified (.prepare m), .request m.request]
  | .commit m => .certified (.commit m) :: m.nested
  | .viewChange m => .certified (.viewChange m) :: m.nested
  | .newView m => .certified (.newView m) :: m.nested

def Commit.nested : Commit → List Message
  | ⟨_, proposal, _⟩ => proposal.nested

def ViewChange.nested : ViewChange → List Message
  | ⟨_, _, messageLog, viewChangeCert, _⟩ =>
      viewChangeCert.map .reqViewChange ++ nestedLog messageLog

def NewView.nested : NewView → List Message
  | ⟨_, _, newViewCert, _⟩ => nestedCert newViewCert

def nestedLog : List CertifiedMessage → List Message
  | [] => []
  | m :: log => m.nested ++ nestedLog log

def nestedCert : List ViewChange → List Message
  | [] => []
  | vc :: cert => .certified (.viewChange vc) :: (vc.nested ++ nestedCert cert)

end

namespace Message

def nested : Message → List Message
  | .certified m => m.nested
  | m => [m]

/-- Induction over a message and the messages directly embedded in it. -/
@[elab_as_elim]
theorem embeddedInduction {P : Message → Prop}
    (step : ∀ m, (∀ x ∈ m.embedded, P x) → P m) (m : Message) : P m := by
  have hleaf : ∀ m : Message, m.embedded = [] → P m := by
    intro m hm
    refine step m fun x hx => ?_
    rw [hm] at hx
    cases hx
  have hcert : ∀ m : CertifiedMessage, P (.certified m) := by
    intro m
    induction m using CertifiedMessage.embeddedInduction with
    | prepare m =>
        refine step _ fun x hx => ?_
        cases List.mem_singleton.mp hx
        exact hleaf _ rfl
    | commit m ih =>
        refine step _ fun x hx => ?_
        cases List.mem_singleton.mp hx
        exact ih
    | viewChange m ih =>
        refine step _ fun x hx => ?_
        rcases List.mem_append.mp hx with h | h
        · obtain ⟨rvc, -, rfl⟩ := List.mem_map.mp h
          exact hleaf _ rfl
        · obtain ⟨y, hy, rfl⟩ := List.mem_map.mp h
          exact ih y hy
    | newView m ih =>
        refine step _ fun x hx => ?_
        obtain ⟨vc, hvc, rfl⟩ := List.mem_map.mp hx
        exact ih vc hvc
  cases m with
  | certified m => exact hcert m
  | _ => exact hleaf _ rfl

theorem nestedLog_eq (log : List CertifiedMessage) :
    nestedLog log = (log.map Message.certified).flatMap nested := by
  induction log with
  | nil => rfl
  | cons m log ih => rw [nestedLog, ih]; rfl

theorem nestedCert_eq (cert : List ViewChange) :
    nestedCert cert =
      (cert.map fun vc => Message.certified (.viewChange vc)).flatMap nested := by
  induction cert with
  | nil => rfl
  | cons vc cert ih =>
      rw [nestedCert, ih, List.map_cons, List.flatMap_cons, nested, CertifiedMessage.nested]
      rfl

theorem nested_eq (m : Message) : m.nested = m :: m.embedded.flatMap nested := by
  cases m with
  | certified m =>
      cases m with
      | prepare m => rw [nested, CertifiedMessage.nested]; rfl
      | commit m =>
          rw [nested, CertifiedMessage.nested]
          cases m
          rw [Commit.nested]
          simp [embedded, nested]
      | viewChange m =>
          rw [nested, CertifiedMessage.nested]
          cases m with
          | mk r v log cert ui =>
              rw [ViewChange.nested, nestedLog_eq, embedded, List.flatMap_append]
              congr 2
              induction cert with
              | nil => rfl
              | cons rvc cert ih => rw [List.map_cons, List.flatMap_cons, ← ih]; rfl
      | newView m =>
          rw [nested, CertifiedMessage.nested]
          cases m
          rw [NewView.nested, nestedCert_eq]
          rfl
  | _ => rfl

theorem self_mem_nested (m : Message) : m ∈ m.nested := by
  rw [nested_eq]
  exact List.mem_cons_self

theorem mem_nested {m x : Message} :
    x ∈ m.nested ↔ x = m ∨ ∃ y ∈ m.embedded, x ∈ y.nested := by
  rw [nested_eq, List.mem_cons, List.mem_flatMap]

/-- What is embedded in something nested is nested. -/
theorem mem_nested_of_embedded {m x y : Message} (h : x ∈ m.nested) (hy : y ∈ x.embedded) :
    y ∈ m.nested := by
  induction m using embeddedInduction with
  | step m ih =>
      rcases mem_nested.mp h with rfl | ⟨z, hz, hx⟩
      · exact mem_nested.mpr (.inr ⟨y, hy, self_mem_nested y⟩)
      · exact mem_nested.mpr (.inr ⟨z, hz, ih z hz hx⟩)

theorem nested_subset {m x : Message} (h : x ∈ m.nested) : x.nested ⊆ m.nested := by
  intro y hy
  induction x using embeddedInduction with
  | step x ih =>
      rcases mem_nested.mp hy with rfl | ⟨z, hz, hy⟩
      · exact h
      · exact ih z hz (mem_nested_of_embedded h hz) hy

end Message

theorem hereditarily_iff {P : Message → Prop} {m : Message} :
    Hereditarily P m ↔ ∀ x ∈ m.nested, P x := by
  induction m using Message.embeddedInduction with
  | step m ih =>
      constructor
      · intro h x hx
        rcases Message.mem_nested.mp hx with rfl | ⟨y, hy, hx⟩
        · exact h.self
        · exact (ih y hy).mp (h.of_embedded hy) x hx
      · intro h
        refine ⟨h m m.self_mem_nested, fun y hy => (ih y hy).mpr fun x hx => ?_⟩
        exact h x (Message.mem_nested.mpr (.inr ⟨y, hy, hx⟩))

theorem Hereditarily.of_nested {P : Message → Prop} {m x : Message} (h : Hereditarily P m)
    (hx : x ∈ m.nested) : Hereditarily P x := by
  induction m using Message.embeddedInduction with
  | step m ih =>
      rcases Message.mem_nested.mp hx with rfl | ⟨y, hy, hx⟩
      · exact h
      · exact ih y hy (h.of_embedded hy) hx

end MinBFT
