import MinBFT.Messages
import MinBFT.Lib.BigEndian

/-!
# Authenticated content of a message

`authenBytes` is `messages.AuthenBytes`: the byte string a signature or a USIG certificate covers.
The first bytes name the message kind, every field but the last has a fixed width, and an operation
enters through its SHA-256 sum. A ViewChange is covered only by its new view number and a NewView
only by its view number and the identifiers of its ViewChanges.

The inversion theorems below read the covered fields back. Those that concern an operation need
`sha256` to be injective.
-/

namespace MinBFT

open BigEndian

/-- A message kind, as the ASCII bytes that start the authenticated content. -/
def tagBytes (tag : String) : Bytes := tag.toList.map fun c => UInt8.ofNat c.toNat

section Content

variable (sha256 : Bytes → Bytes)

def hashsum (data : Bytes) : Bytes := sha256 data

def Request.writeAuthenBytes (m : Request) : Bytes :=
  uint64 m.sequence ++ hashsum sha256 m.operation

def Request.authenBytes (m : Request) : Bytes :=
  tagBytes "REQUEST" ++ m.writeAuthenBytes sha256

def Reply.authenBytes (m : Reply) : Bytes :=
  tagBytes "REPLY" ++ (uint32 m.clientID ++ (uint64 m.sequence ++ hashsum sha256 m.result))

def Prepare.authenBytes (m : Prepare) : Bytes :=
  tagBytes "PREPARE" ++
    (uint64 m.view ++ (uint32 m.request.clientID ++ m.request.writeAuthenBytes sha256))

def ReqViewChange.authenBytes (m : ReqViewChange) : Bytes :=
  tagBytes "REQ-VIEW-CHANGE" ++ uint64 m.newView

def ViewChange.authenBytes (m : ViewChange) : Bytes :=
  tagBytes "VIEW-CHANGE" ++ uint64 m.newView

def certIDs (cert : List ViewChange) : List (UInt32 × UInt64) :=
  cert.map fun vc => (vc.replicaID, vc.ui.counter)

def writeCertIDs : List (UInt32 × UInt64) → Bytes
  | [] => []
  | (replicaID, counter) :: ids => uint32 replicaID ++ (uint64 counter ++ writeCertIDs ids)

def NewView.authenBytes (m : NewView) : Bytes :=
  tagBytes "NEW-VIEW" ++ (uint64 m.newView ++ writeCertIDs (certIDs m.newViewCert))

mutual

def CertifiedMessage.authenBytes : CertifiedMessage → Bytes
  | .prepare m => m.authenBytes sha256
  | .commit m => m.authenBytes
  | .viewChange m => m.authenBytes
  | .newView m => m.authenBytes

def Commit.authenBytes : Commit → Bytes
  | ⟨_, proposal, _⟩ => tagBytes "COMMIT" ++ (uint32 proposal.replicaID ++
      (proposal.authenBytes ++ uint64 proposal.counter))

end

end Content

theorem writeCertIDs_inj {ids ids' : List (UInt32 × UInt64)}
    (h : writeCertIDs ids = writeCertIDs ids') : ids = ids' := by
  induction ids generalizing ids' with
  | nil =>
      cases ids' with
      | nil => rfl
      | cons p ids' =>
          have := congrArg List.length h
          simp only [writeCertIDs, List.length_nil, List.length_append, length_uint32] at this
          omega
  | cons p ids ih =>
      cases ids' with
      | nil =>
          have := congrArg List.length h
          simp [writeCertIDs] at this
      | cons p' ids' =>
          obtain ⟨hid, h⟩ := uint32_append_inj h
          obtain ⟨hcounter, h⟩ := uint64_append_inj h
          rw [ih h, Prod.ext hid hcounter]

/-- Two strings that start with distinct kind tags differ, as no tag is a beginning of another. -/
theorem tagBytes_append_ne {a b s t : Bytes} (h : (a.zip b).any fun p => p.1 != p.2) :
    a ++ s ≠ b ++ t := by
  induction a generalizing b with
  | nil => simp at h
  | cons x a ih =>
      cases b with
      | nil => simp at h
      | cons y b =>
          intro heq
          obtain ⟨rfl, htail⟩ := List.cons_eq_cons.mp heq
          exact ih (by simpa using h) htail

section Inversion

variable {sha256 : Bytes → Bytes}

theorem Request.writeAuthenBytes_inj (hsha : Function.Injective sha256) {m m' : Request}
    (h : m.writeAuthenBytes sha256 = m'.writeAuthenBytes sha256) :
    m.sequence = m'.sequence ∧ m.operation = m'.operation := by
  obtain ⟨hseq, hop⟩ := uint64_append_inj h
  exact ⟨hseq, hsha hop⟩

theorem Prepare.authenBytes_inj (hsha : Function.Injective sha256) {m m' : Prepare}
    (h : m.authenBytes sha256 = m'.authenBytes sha256) :
    m.view = m'.view ∧ m.request.clientID = m'.request.clientID ∧
      m.request.sequence = m'.request.sequence ∧ m.request.operation = m'.request.operation := by
  obtain ⟨hview, h⟩ := uint64_append_inj (List.append_cancel_left h)
  obtain ⟨hclient, h⟩ := uint32_append_inj h
  exact ⟨hview, hclient, Request.writeAuthenBytes_inj hsha h⟩

theorem ViewChange.authenBytes_inj {m m' : ViewChange} (h : m.authenBytes = m'.authenBytes) :
    m.newView = m'.newView := by
  have h' : uint64 m.newView ++ [] = uint64 m'.newView ++ [] := by
    simpa using List.append_cancel_left h
  exact (uint64_append_inj h').1

theorem NewView.authenBytes_inj {m m' : NewView} (h : m.authenBytes = m'.authenBytes) :
    m.newView = m'.newView ∧ certIDs m.newViewCert = certIDs m'.newViewCert := by
  obtain ⟨hview, h⟩ := uint64_append_inj (List.append_cancel_left h)
  exact ⟨hview, writeCertIDs_inj h⟩

theorem Commit.authenBytes_eq (m : Commit) :
    m.authenBytes sha256 = tagBytes "COMMIT" ++ (uint32 m.proposal.replicaID ++
      (m.proposal.authenBytes sha256 ++ uint64 m.proposal.counter)) := by
  cases m
  rw [Commit.authenBytes]

theorem Commit.authenBytes_inj {m m' : Commit}
    (h : m.authenBytes sha256 = m'.authenBytes sha256) :
    m.proposal.replicaID = m'.proposal.replicaID ∧
      m.proposal.authenBytes sha256 = m'.proposal.authenBytes sha256 ∧
      m.proposal.counter = m'.proposal.counter := by
  rw [Commit.authenBytes_eq, Commit.authenBytes_eq] at h
  obtain ⟨hid, h⟩ := uint32_append_inj (List.append_cancel_left h)
  exact ⟨hid, append_uint64_inj h⟩

inductive Kind where
  | prepare
  | commit
  | viewChange
  | newView
deriving DecidableEq, Repr

def Kind.tag : Kind → String
  | prepare => "PREPARE"
  | commit => "COMMIT"
  | viewChange => "VIEW-CHANGE"
  | newView => "NEW-VIEW"

def CertifiedMessage.kind : CertifiedMessage → Kind
  | .prepare _ => .prepare
  | .commit _ => .commit
  | .viewChange _ => .viewChange
  | .newView _ => .newView

theorem CertifiedMessage.authenBytes_tag (sha256 : Bytes → Bytes) (m : CertifiedMessage) :
    ∃ rest, m.authenBytes sha256 = tagBytes m.kind.tag ++ rest := by
  cases m with
  | prepare m => exact ⟨_, by rw [CertifiedMessage.authenBytes]; rfl⟩
  | commit m => exact ⟨_, by rw [CertifiedMessage.authenBytes, Commit.authenBytes_eq]; rfl⟩
  | viewChange m => exact ⟨_, by rw [CertifiedMessage.authenBytes]; rfl⟩
  | newView m => exact ⟨_, by rw [CertifiedMessage.authenBytes]; rfl⟩

theorem CertifiedMessage.kind_eq_of_authenBytes_eq {m m' : CertifiedMessage}
    (h : m.authenBytes sha256 = m'.authenBytes sha256) : m.kind = m'.kind := by
  obtain ⟨s, hs⟩ := m.authenBytes_tag sha256
  obtain ⟨t, ht⟩ := m'.authenBytes_tag sha256
  rw [hs, ht] at h
  by_contra hne
  refine tagBytes_append_ne ?_ h
  revert hne
  cases m.kind <;> cases m'.kind <;> decide

theorem CertifiedMessage.eq_prepare_of_authenBytes_eq {p : Prepare} {m : CertifiedMessage}
    (h : (CertifiedMessage.prepare p).authenBytes sha256 = m.authenBytes sha256) :
    ∃ p', m = .prepare p' ∧ p.authenBytes sha256 = p'.authenBytes sha256 := by
  have hk := kind_eq_of_authenBytes_eq h
  cases m with
  | prepare p' => exact ⟨p', rfl, by simpa only [CertifiedMessage.authenBytes] using h⟩
  | commit _ => cases hk
  | viewChange _ => cases hk
  | newView _ => cases hk

theorem CertifiedMessage.eq_commit_of_authenBytes_eq {c : Commit} {m : CertifiedMessage}
    (h : (CertifiedMessage.commit c).authenBytes sha256 = m.authenBytes sha256) :
    ∃ c', m = .commit c' ∧ c.authenBytes sha256 = c'.authenBytes sha256 := by
  have hk := kind_eq_of_authenBytes_eq h
  cases m with
  | prepare _ => cases hk
  | commit c' => exact ⟨c', rfl, by simpa only [CertifiedMessage.authenBytes] using h⟩
  | viewChange _ => cases hk
  | newView _ => cases hk

theorem CertifiedMessage.eq_viewChange_of_authenBytes_eq {vc : ViewChange} {m : CertifiedMessage}
    (h : (CertifiedMessage.viewChange vc).authenBytes sha256 = m.authenBytes sha256) :
    ∃ vc', m = .viewChange vc' ∧ vc.newView = vc'.newView := by
  have hk := kind_eq_of_authenBytes_eq h
  cases m with
  | prepare _ => cases hk
  | commit _ => cases hk
  | viewChange vc' =>
      simp only [CertifiedMessage.authenBytes] at h
      exact ⟨vc', rfl, ViewChange.authenBytes_inj h⟩
  | newView _ => cases hk

theorem CertifiedMessage.eq_newView_of_authenBytes_eq {nv : NewView} {m : CertifiedMessage}
    (h : (CertifiedMessage.newView nv).authenBytes sha256 = m.authenBytes sha256) :
    ∃ nv', m = .newView nv' ∧ nv.authenBytes = nv'.authenBytes := by
  have hk := kind_eq_of_authenBytes_eq h
  cases m with
  | prepare _ => cases hk
  | commit _ => cases hk
  | viewChange _ => cases hk
  | newView nv' => exact ⟨nv', rfl, by simpa only [CertifiedMessage.authenBytes] using h⟩

end Inversion

end MinBFT
