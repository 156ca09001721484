import Mathlib.Logic.Relation
import MinBFT.Lib.Counter
import MinBFT.Requests
import MinBFT.Validation

/-!
# Generated messages

What a replica generates goes to its message log, from which peers and the replica itself take it.
Certified messages get a UI from the local USIG, which counts up from one; a ReqViewChange is
signed. The UI lock makes assigning a UI and appending to the log one step.

Here the authenticator returns all tags it is asked for. What happens when it returns an error is
the subject of `MinBFT.Process`.
-/

namespace MinBFT

structure Params where
  id : UInt32
  config : Config
  crypto : Crypto

structure Output where
  log : List Message
  /-- How often the log has been reset. -/
  resets : ℕ
  usigCounter : UInt64
  /-- The views for which a request or view-change timer has been started. A timer may have fired
  already when it is stopped, so stopping leaves this unchanged. -/
  timers : List UInt64
  /-- Everything ever appended to the log. -/
  generated : List Message

namespace Output

variable (p : Params)

def init : Output := ⟨[], 0, 0, [], []⟩

/-- `consumeGeneratedMessage` for a message to the peers. -/
def append (m : Message) (o : Output) : Output :=
  { o with log := o.log ++ [m], generated := o.generated ++ [m] }

def nextUI (authenBytes : Bytes) (o : Output) : UI :=
  ⟨o.usigCounter + 1, p.crypto.usigCert p.id (o.usigCounter + 1) authenBytes⟩

/-- The message with the UI it is given, unless the authenticator returns an error; its
authenticated content does not depend on the UI. -/
def assignUI (mk : UI → CertifiedMessage) (o : Output) : CertifiedMessage :=
  mk (o.nextUI p ((mk ⟨0, []⟩).authenBytes p.crypto.sha256))

/-- `handleGeneratedMessage` for a certified message, given but for its UI. -/
def generate (mk : UI → CertifiedMessage) (o : Output) : Output :=
  { o with usigCounter := o.usigCounter + 1 }.append (.certified (o.assignUI p mk))

def generateReqViewChange (newView : UInt64) (o : Output) : Output :=
  o.append (.reqViewChange ⟨p.id, newView,
    p.crypto.replicaSignature p.id (ReqViewChange.mk p.id newView []).authenBytes⟩)

def resetLog (o : Output) : Output := { o with log := [], resets := o.resets + 1 }

def startTimer (view : UInt64) (o : Output) : Output := { o with timers := view :: o.timers }

def applyRequest (view : UInt64) (o : Output) (request : Request) : Output :=
  if isPrimary view p.id p.config.n then
    (o.startTimer view).generate p fun ui => .prepare ⟨p.id, view, request, ui⟩
  else o.startTimer view

/-- `applyPendingRequests`; `order` is the order in which the pending requests come. -/
def applyPendingRequests (pendingReqs : RequestList) (order : List Request) (view : UInt64)
    (o : Output) : Output :=
  (pendingReqs.all order).foldl (applyRequest p view) o

def certified (msgs : List Message) : List CertifiedMessage :=
  msgs.filterMap fun
    | .certified m => some m
    | _ => none

theorem mem_certified {msgs : List Message} {m : CertifiedMessage} :
    m ∈ certified msgs ↔ .certified m ∈ msgs := by
  rw [certified, List.mem_filterMap]
  constructor
  · rintro ⟨x, hx, heq⟩
    cases x with
    | certified y => cases heq; exact hx
    | _ => cases heq
  · exact fun h => ⟨_, h, rfl⟩

@[simp] theorem certified_append (a b : List Message) :
    certified (a ++ b) = certified a ++ certified b := List.filterMap_append

@[simp] theorem certified_nil : certified [] = [] := rfl

@[simp] theorem certified_singleton (m : CertifiedMessage) :
    certified [.certified m] = [m] := rfl

@[simp] theorem certified_reqViewChange (m : ReqViewChange) :
    certified [.reqViewChange m] = [] := rfl

variable {p}

@[simp] theorem generated_generate (mk : UI → CertifiedMessage) (o : Output) :
    (o.generate p mk).generated = o.generated ++ [.certified (o.assignUI p mk)] := rfl

@[simp] theorem log_generate (mk : UI → CertifiedMessage) (o : Output) :
    (o.generate p mk).log = o.log ++ [.certified (o.assignUI p mk)] := rfl

@[simp] theorem usigCounter_generate (mk : UI → CertifiedMessage) (o : Output) :
    (o.generate p mk).usigCounter = o.usigCounter + 1 := rfl

/-- One thing that can happen to the output. A generated message is the replica's own and differs
only in the UI it is given. -/
inductive Step (p : Params) : Output → Output → Prop where
  | generate {mk : UI → CertifiedMessage} (o : Output) (hid : ∀ ui, (mk ui).replicaID = p.id)
      (hui : ∀ ui, (mk ui).ui = ui) : Step p o (o.generate p mk)
  | reqViewChange (o : Output) (newView : UInt64) : Step p o (o.generateReqViewChange p newView)
  | resetLog (o : Output) : Step p o o.resetLog
  | startTimer (o : Output) (view : UInt64) : Step p o (o.startTimer view)

abbrev Steps (p : Params) : Output → Output → Prop := Relation.ReflTransGen (Step p)

theorem applyRequest_steps (view : UInt64) (o : Output) (r : Request) :
    Steps p o (o.applyRequest p view r) := by
  have hstart := Relation.ReflTransGen.single (Step.startTimer (p := p) o view)
  unfold applyRequest
  split_ifs
  · exact hstart.tail (.generate _ (fun _ => rfl) fun _ => rfl)
  · exact hstart

theorem applyPendingRequests_steps (pendingReqs : RequestList) (order : List Request)
    (view : UInt64) (o : Output) :
    Steps p o (o.applyPendingRequests p pendingReqs order view) := by
  unfold applyPendingRequests
  induction pendingReqs.all order generalizing o with
  | nil => exact .refl
  | cons r rs ih => exact (applyRequest_steps view o r).trans (ih _)

theorem Steps.generated_prefix {o o' : Output} (h : Steps p o o') :
    o.generated <+: o'.generated := by
  induction h with
  | refl => exact List.prefix_refl _
  | tail _ hstep ih =>
      cases hstep with
      | generate => exact ih.trans (List.prefix_append _ _)
      | reqViewChange => exact ih.trans (List.prefix_append _ _)
      | resetLog => exact ih
      | startTimer => exact ih

/-- The log holds the last of the generated messages. -/
theorem Steps.log_suffix {o o' : Output} (h : Steps p o o') (hlog : o.log <:+ o.generated) :
    o'.log <:+ o'.generated := by
  have happend : ∀ {o : Output} (m : Message), o.log <:+ o.generated →
      o.log ++ [m] <:+ o.generated ++ [m] := by
    rintro o m ⟨before, hbefore⟩
    exact ⟨before, by rw [← hbefore, List.append_assoc]⟩
  induction h with
  | refl => exact hlog
  | tail _ hstep ih =>
      cases hstep with
      | generate => exact happend _ ih
      | reqViewChange => exact happend _ ih
      | resetLog => exact List.nil_suffix
      | startTimer => exact ih

/-- Every certified message generated is the replica's own. -/
theorem Steps.replicaID {o o' : Output} (h : Steps p o o')
    (hid : ∀ m ∈ certified o.generated, m.replicaID = p.id) :
    ∀ m ∈ certified o'.generated, m.replicaID = p.id := by
  induction h with
  | refl => exact hid
  | tail _ hstep ih =>
      cases hstep with
      | generate _ hmk =>
          intro m hm
          rw [generated_generate, certified_append, List.mem_append] at hm
          rcases hm with hm | hm
          · exact ih m hm
          · cases List.mem_singleton.mp hm
            exact hmk _
      | reqViewChange =>
          intro m hm
          rw [generateReqViewChange, append, certified_append, certified_reqViewChange,
            List.append_nil] at hm
          exact ih m hm
      | resetLog => exact ih
      | startTimer => exact ih

/-- As long as no counter has wrapped to zero, the certified messages carry the counters from one on
in the order in which they have been generated. -/
def Counted (o : Output) : Prop :=
  (∀ m ∈ certified o.generated, m.counter ≠ 0) →
    (certified o.generated).map (·.counter.toNat) =
        List.range' 1 (certified o.generated).length ∧
      o.usigCounter.toNat = (certified o.generated).length

theorem counter_assignUI {mk : UI → CertifiedMessage} (hui : ∀ ui, (mk ui).ui = ui)
    (o : Output) : (o.assignUI p mk).counter = o.usigCounter + 1 := by
  rw [CertifiedMessage.counter, assignUI, hui]
  rfl

theorem counted_generate {mk : UI → CertifiedMessage} (hui : ∀ ui, (mk ui).ui = ui) {o : Output}
    (h : o.Counted) : (o.generate p mk).Counted := by
  intro hpos
  simp only [generated_generate, certified_append, certified_singleton, List.mem_append,
    List.mem_singleton] at hpos
  obtain ⟨hmap, husig⟩ := h fun m hm => hpos m (.inl hm)
  have hne := hpos _ (.inr rfl)
  rw [counter_assignUI hui] at hne
  have hnext := UInt64.toNat_add_one_of_ne_zero hne
  rw [usigCounter_generate, generated_generate, certified_append, certified_singleton,
    List.map_append, hmap, List.map_singleton, counter_assignUI hui, hnext, husig,
    List.length_append, List.length_singleton, List.range'_concat, Nat.one_mul, Nat.add_comm 1]
  exact ⟨rfl, rfl⟩

theorem Steps.counted {o o' : Output} (h : Steps p o o') (hcount : o.Counted) : o'.Counted := by
  induction h with
  | refl => exact hcount
  | tail _ hstep ih =>
      cases hstep with
      | generate _ _ hui => exact counted_generate hui ih
      | reqViewChange =>
          simp only [Counted, generateReqViewChange, append, certified_append,
            certified_reqViewChange, List.append_nil]
          exact ih
      | resetLog => exact ih
      | startTimer => exact ih

end Output

end MinBFT
