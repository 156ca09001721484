import MinBFT.Node

/-!
# Runs on concrete messages

An authenticator that accepts a UI precisely when a ledger lists a message with it satisfies the
assumption on UIs whenever sender and counter determine the content of the messages in the ledger.
Messages are written down with empty certificates and signatures.
-/

namespace MinBFT

namespace Concrete

def ledgerCrypto (ledger : List CertifiedMessage) : Crypto where
  sha256 := id
  verifyMessageAuthenTag := fun role replicaID authenBytes tag =>
    match role with
    | .usigAuthen => ledger.any fun m => m.replicaID == replicaID &&
        m.authenBytes id == authenBytes && m.ui.marshalBinary == tag
    | _ => true
  usigCert := fun _ _ _ => []
  replicaSignature := fun _ _ => []

def consistent (ledger : List CertifiedMessage) : Bool :=
  ledger.all fun m => ledger.all fun m' =>
    m.replicaID != m'.replicaID || m.counter != m'.counter ||
      m.authenBytes id == m'.authenBytes id

theorem marshalBinary_counter {ui ui' : UI} (h : ui.marshalBinary = ui'.marshalBinary) :
    ui.counter = ui'.counter :=
  (BigEndian.uint64_append_inj h).1

theorem uniqueUI_ledgerCrypto {ledger : List CertifiedMessage} (h : consistent ledger = true) :
    UniqueUI (ledgerCrypto ledger) := by
  intro replicaID ui ui' b b' hcv _ hb hb'
  obtain ⟨m, hm, heq⟩ := List.any_eq_true.mp hb
  obtain ⟨m', hm', heq'⟩ := List.any_eq_true.mp hb'
  simp only [Bool.and_eq_true, beq_iff_eq] at heq heq'
  obtain ⟨⟨hid, rfl⟩, hui⟩ := heq
  obtain ⟨⟨hid', rfl⟩, hui'⟩ := heq'
  have hcounter : m.counter = m'.counter := by
    rw [CertifiedMessage.counter, CertifiedMessage.counter, marshalBinary_counter hui,
      marshalBinary_counter hui', hcv]
  have hpair := List.all_eq_true.mp (List.all_eq_true.mp h m hm) m' hm'
  simpa [hid, hid', hcounter] using hpair

theorem injective_sha256_ledgerCrypto (ledger : List CertifiedMessage) :
    Function.Injective (ledgerCrypto ledger).sha256 := Function.injective_id

/-- Validation of a concrete message, with all that is nested in it, by evaluation. -/
def accepted (crypto : Crypto) (config : Config) (m : Message) : Bool :=
  m.nested.all fun x => match validateMessage crypto config x with
    | .ok _ => true
    | .error _ => false

theorem hereditarilyValid_of_accepted {crypto : Crypto} {config : Config} {m : Message}
    (h : accepted crypto config m = true) : HereditarilyValid crypto config m := by
  refine hereditarily_iff.mpr fun x hx => ?_
  have hx' := List.all_eq_true.mp h x hx
  unfold Valid
  cases hval : validateMessage crypto config x with
  | ok _ => rfl
  | error e =>
      rw [hval] at hx'
      cases hx'

/-- A new goroutine, which gets the index `i`, handles the message from beginning to end. -/
def handling (i : ℕ) (m : Message) : List Label :=
  .receive m :: List.replicate (2 * m.nested.length) (.run i [])

def ownHandling (m : Message) : List Label :=
  .fetch :: .supply :: List.replicate (2 * m.nested.length) (.own [])

def request (clientID : UInt32) (sequence : UInt64) : Request :=
  ⟨clientID, sequence, [sequence.toUInt8], []⟩

def prepare (replicaID : UInt32) (view : UInt64) (request : Request) (cv : UInt64) : Prepare :=
  ⟨replicaID, view, request, ⟨cv, []⟩⟩

def commit (replicaID : UInt32) (proposal : CertifiedMessage) (cv : UInt64) : CertifiedMessage :=
  .commit ⟨replicaID, proposal, ⟨cv, []⟩⟩

def reqViewChange (replicaID : UInt32) (newView : UInt64) : ReqViewChange :=
  ⟨replicaID, newView, []⟩

def viewChange (replicaID : UInt32) (newView : UInt64) (messageLog : List CertifiedMessage)
    (requesters : List UInt32) (cv : UInt64) : ViewChange :=
  ⟨replicaID, newView, messageLog, requesters.map (reqViewChange · newView), ⟨cv, []⟩⟩

def newView (replicaID : UInt32) (view : UInt64) (cert : List ViewChange) (cv : UInt64) : NewView :=
  ⟨replicaID, view, cert, ⟨cv, []⟩⟩

end Concrete

end MinBFT
