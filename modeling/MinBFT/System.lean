import MinBFT.Interleaving
import MinBFT.Quorums

/-!
# Replicas and their adversary

A system consists of the correct replicas. Everything else is the adversary: it delivers to any of
them any message at any time, in the name of any client and any other replica. It cannot make a
correct replica's USIG certify a message, and it cannot sign in that replica's name.
-/

namespace MinBFT

structure Network where
  config : Config
  crypto : Crypto
  correct : Finset UInt32

namespace Network

/-- At most `f` of the replicas are faulty, and cryptography works as it should. -/
structure Admissible (net : Network) : Prop where
  tolerant : net.config.Tolerant
  sha256 : Function.Injective net.crypto.sha256
  uniqueUI : UniqueUI net.crypto
  replicas : net.correct ⊆ replicas net.config.n
  faulty : (MinBFT.replicas net.config.n \ net.correct).card ≤ net.config.f.toNat

def params (net : Network) (i : UInt32) : Params := ⟨i, net.config, net.crypto⟩

theorem Admissible.lt {net : Network} (h : net.Admissible) {i : UInt32} (hi : i ∈ net.correct) :
    (net.params i).id < (net.params i).config.n := mem_replicas.mp (h.replicas hi)

/-- Among more than `f` replicas there is a correct one. -/
theorem Admissible.exists_correct {net : Network} (h : net.Admissible) {ids : List UInt32}
    (hnodup : ids.Nodup) (hlt : ∀ id ∈ ids, id < net.config.n)
    (hlen : net.config.f.toNat + 1 ≤ ids.length) : ∃ id ∈ ids, id ∈ net.correct := by
  by_contra hno
  have hsub : ids.toFinset ⊆ MinBFT.replicas net.config.n \ net.correct := by
    intro id hid
    rw [List.mem_toFinset] at hid
    rw [Finset.mem_sdiff, mem_replicas]
    exact ⟨hlt id hid, fun hcorrect => hno ⟨id, hid, hcorrect⟩⟩
  have hcard := Finset.card_le_card hsub
  rw [List.toFinset_card_of_nodup hnodup] at hcard
  have hfaulty := h.faulty
  omega

theorem Admissible.nonempty {net : Network} (h : net.Admissible) :
    net.correct.Nonempty := by
  by_contra hempty
  rw [Finset.not_nonempty_iff_eq_empty] at hempty
  have hfaulty := h.faulty
  have htol := h.tolerant
  unfold Config.Tolerant at htol
  rw [hempty, Finset.sdiff_empty] at hfaulty
  rw [card_replicas] at hfaulty
  omega

/-- The correct replicas are enough for a commit certificate. -/
theorem Admissible.commitCertSize_le {net : Network} (h : net.Admissible) :
    net.config.commitCertSize.toNat ≤ net.correct.card := by
  have hfaulty := h.faulty
  rw [Finset.card_sdiff_of_subset h.replicas, card_replicas] at hfaulty
  rw [Config.toNat_commitCertSize h.tolerant]
  omega

end Network

structure System where
  nodes : UInt32 → Node

namespace System

variable (net : Network)

def init : System := ⟨fun i => .init (net.params i)⟩

def hasSigned (generated : List Message) (m : ReqViewChange) : Bool :=
  generated.any fun
    | .reqViewChange g => g.newView == m.newView
    | _ => false

def authentic (sys : System) (m : Message) : Bool :=
  m.nested.all fun
    | .certified m => decide (m.replicaID ∉ net.correct) || m.counter == 0 ||
        !m.uiAccepted net.crypto ||
        Node.hasGenerated (net.params m.replicaID)
          (sys.nodes m.replicaID).replica.output.generated m
    | .reqViewChange m => decide (m.replicaID ∉ net.correct) ||
        !net.crypto.verifyMessageAuthenTag .replicaAuthen m.replicaID m.authenBytes m.signature ||
        hasSigned (sys.nodes m.replicaID).replica.output.generated m
    | _ => true

def admitted (sys : System) : Label → Bool
  | .receive m => sys.authentic net m
  | _ => true

def step (sys : System) (i : UInt32) (l : Label) : Option System :=
  if i ∈ net.correct ∧ sys.admitted net l = true then
    ((sys.nodes i).step (net.params i) l).map fun s => ⟨Function.update sys.nodes i s⟩
  else none

inductive Reachable (C : UInt32 → Replica → Message → Prop) : System → Prop where
  | init : Reachable C (System.init net)
  | step {sys sys' : System} {i : UInt32} {l : Label} (h : Reachable C sys)
      (hstep : sys.step net i l = some sys')
      (hcond : ∀ m, (sys.nodes i).processing l = some m → C i (sys.nodes i).replica m) :
      Reachable C sys'

def exec (cond : UInt32 → Replica → Message → Bool) (sys : System) :
    List (UInt32 × Label) → Option System
  | [] => some sys
  | (i, l) :: ls =>
      if ((sys.nodes i).processing l).all (cond i (sys.nodes i).replica) then
        (sys.step net i l).bind fun sys' => sys'.exec cond ls else none

variable {net} {C : UInt32 → Replica → Message → Prop} {sys sys' : System}

theorem step_cases {i : UInt32} {l : Label} (h : sys.step net i l = some sys') :
    i ∈ net.correct ∧ sys.admitted net l = true ∧
      ∃ s, (sys.nodes i).step (net.params i) l = some s ∧
        sys'.nodes = Function.update sys.nodes i s := by
  unfold step at h
  split_ifs at h with hc
  obtain ⟨s, hs, rfl⟩ := Option.map_eq_some_iff.mp h
  exact ⟨hc.1, hc.2, s, hs, rfl⟩

/-- What a correct replica goes through is a run of its node. -/
theorem Reachable.node (h : Reachable net C sys) (i : UInt32) :
    (sys.nodes i).Reachable (net.params i) (C i) := by
  induction h with
  | init => exact .init
  | @step sys sys' j l _ hstep hcond ih =>
      obtain ⟨-, -, s, hs, hnodes⟩ := step_cases hstep
      rw [hnodes]
      by_cases hij : i = j
      · subst hij
        rw [Function.update_self]
        exact .step ih hs hcond
      · rw [Function.update_of_ne hij]
        exact ih

theorem reachable_of_exec {cond : UInt32 → Replica → Message → Bool}
    (hcond : ∀ i r m, cond i r m = true → C i r m) {ls : List (UInt32 × Label)}
    (h : Reachable net C sys) (hexec : sys.exec net cond ls = some sys') :
    Reachable net C sys' := by
  induction ls generalizing sys with
  | nil =>
      cases hexec
      exact h
  | cons l ls ih =>
      rw [exec] at hexec
      split_ifs at hexec with hall
      obtain ⟨sys₁, hstep, hexec⟩ := Option.bind_eq_some_iff.mp hexec
      refine ih (.step h hstep fun m hm => hcond _ _ _ ?_) hexec
      rwa [hm] at hall

/-- A state with a property that an execution from the initial state is found to end in. -/
theorem exists_reachable {cond : UInt32 → Replica → Message → Bool}
    (hcond : ∀ i r m, cond i r m = true → C i r m) {P : System → Bool}
    {ls : List (UInt32 × Label)} (h : ((System.init net).exec net cond ls).any P = true) :
    ∃ sys, Reachable net C sys ∧ P sys = true := by
  obtain ⟨sys, hexec, hsys⟩ := (Option.any_eq_true P _).mp h
  exact ⟨sys, reachable_of_exec hcond .init hexec, hsys⟩

end System

end MinBFT
