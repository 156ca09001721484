import MinBFT.Authen

/-!
# Authenticated content is unambiguous

`AuthenContent` is what a signature or a USIG certificate is meant to vouch for. `AuthenBytes` is
the encoding of this content, and no two contents have the same encoding: tags are not prefixes of
each other, and after the tag at most one field has no fixed width.
-/

namespace MinBFT

open BigEndian

inductive AuthenContent where
  | request (sequence : UInt64) (operation : Bytes)
  | reply (clientID : UInt32) (sequence : UInt64) (result : Bytes)
  | prepare (view : UInt64) (clientID : UInt32) (sequence : UInt64) (operation : Bytes)
  | commit (replicaID : UInt32) (proposal : AuthenContent) (counter : UInt64)
  | reqViewChange (view : UInt64)
  | viewChange (view : UInt64)
  | newView (view : UInt64) (ids : List (UInt32 × UInt64))

mutual

def CertifiedMessage.authenContent : CertifiedMessage → AuthenContent
  | .prepare m => .prepare m.view m.request.clientID m.request.sequence m.request.operation
  | .commit m => m.authenContent
  | .viewChange m => .viewChange m.newView
  | .newView m => .newView m.newView (certIDs m.newViewCert)

def Commit.authenContent : Commit → AuthenContent
  | ⟨_, proposal, _⟩ => .commit proposal.replicaID proposal.authenContent proposal.counter

end

/-- A Hello is not authenticated. -/
def Message.authenContent : Message → Option AuthenContent
  | .hello _ => none
  | .request m => some (.request m.sequence m.operation)
  | .reply m => some (.reply m.clientID m.sequence m.result)
  | .reqViewChange m => some (.reqViewChange m.newView)
  | .certified m => some m.authenContent

/-- `AuthenBytes`; `none` stands for the panic on a message that is not authenticated. -/
def Message.authenBytes (sha256 : Bytes → Bytes) : Message → Option Bytes
  | .hello _ => none
  | .request m => some (m.authenBytes sha256)
  | .reply m => some (m.authenBytes sha256)
  | .reqViewChange m => some m.authenBytes
  | .certified m => some (m.authenBytes sha256)

namespace AuthenContent

def tag : AuthenContent → String
  | request .. => "REQUEST"
  | reply .. => "REPLY"
  | prepare .. => "PREPARE"
  | commit .. => "COMMIT"
  | reqViewChange .. => "REQ-VIEW-CHANGE"
  | viewChange .. => "VIEW-CHANGE"
  | newView .. => "NEW-VIEW"

variable {sha256 : Bytes → Bytes}

def fields (sha256 : Bytes → Bytes) : AuthenContent → Bytes
  | request sequence operation => uint64 sequence ++ hashsum sha256 operation
  | reply clientID sequence result =>
      uint32 clientID ++ (uint64 sequence ++ hashsum sha256 result)
  | prepare view clientID sequence operation =>
      uint64 view ++ (uint32 clientID ++ (uint64 sequence ++ hashsum sha256 operation))
  | commit replicaID proposal counter =>
      uint32 replicaID ++ ((tagBytes proposal.tag ++ proposal.fields sha256) ++ uint64 counter)
  | reqViewChange view => uint64 view
  | viewChange view => uint64 view
  | .newView view ids => uint64 view ++ writeCertIDs ids

def bytes (sha256 : Bytes → Bytes) (c : AuthenContent) : Bytes :=
  tagBytes c.tag ++ c.fields sha256

def tags : List String :=
  ["REQUEST", "REPLY", "PREPARE", "COMMIT", "REQ-VIEW-CHANGE", "VIEW-CHANGE", "NEW-VIEW"]

theorem tag_mem_tags (c : AuthenContent) : c.tag ∈ tags := by
  cases c <;> simp [tag, tags]

/-- No tag is a beginning of another. -/
theorem tags_differ : ∀ a ∈ tags, ∀ b ∈ tags, a ≠ b →
    ((tagBytes a).zip (tagBytes b)).any fun p => p.1 != p.2 := by
  decide

theorem tag_fields_of_bytes_eq {c c' : AuthenContent} (h : c.bytes sha256 = c'.bytes sha256) :
    c.tag = c'.tag ∧ c.fields sha256 = c'.fields sha256 := by
  have htag : c.tag = c'.tag := by
    by_contra hne
    exact tagBytes_append_ne (tags_differ _ c.tag_mem_tags _ c'.tag_mem_tags hne) h
  rw [bytes, bytes, htag] at h
  exact ⟨htag, List.append_cancel_left h⟩

theorem bytes_injective (hsha : Function.Injective sha256) :
    Function.Injective (bytes sha256) := by
  intro c
  -- only the proposal of a Commit is a content in turn
  induction c with
  | request sequence operation =>
      intro c' h
      obtain ⟨htag, hfields⟩ := tag_fields_of_bytes_eq h
      cases c' with
      | request =>
          obtain ⟨rfl, hop⟩ := uint64_append_inj hfields
          rw [hsha hop]
      | _ => simp [tag] at htag
  | reply clientID sequence result =>
      intro c' h
      obtain ⟨htag, hfields⟩ := tag_fields_of_bytes_eq h
      cases c' with
      | reply =>
          obtain ⟨rfl, hrest⟩ := uint32_append_inj hfields
          obtain ⟨rfl, hresult⟩ := uint64_append_inj hrest
          rw [hsha hresult]
      | _ => simp [tag] at htag
  | prepare view clientID sequence operation =>
      intro c' h
      obtain ⟨htag, hfields⟩ := tag_fields_of_bytes_eq h
      cases c' with
      | prepare =>
          obtain ⟨rfl, hrest⟩ := uint64_append_inj hfields
          obtain ⟨rfl, hrequest⟩ := uint32_append_inj hrest
          obtain ⟨rfl, hop⟩ := uint64_append_inj hrequest
          rw [hsha hop]
      | _ => simp [tag] at htag
  | commit replicaID proposal counter ih =>
      intro c' h
      obtain ⟨htag, hfields⟩ := tag_fields_of_bytes_eq h
      cases c' with
      | commit =>
          obtain ⟨rfl, hrest⟩ := uint32_append_inj hfields
          obtain ⟨hprop, rfl⟩ := append_uint64_inj hrest
          rw [ih hprop]
      | _ => simp [tag] at htag
  | reqViewChange view =>
      intro c' h
      obtain ⟨htag, hfields⟩ := tag_fields_of_bytes_eq h
      cases c' with
      | reqViewChange => rw [uint64_injective hfields]
      | _ => simp [tag] at htag
  | viewChange view =>
      intro c' h
      obtain ⟨htag, hfields⟩ := tag_fields_of_bytes_eq h
      cases c' with
      | viewChange => rw [uint64_injective hfields]
      | _ => simp [tag] at htag
  | newView view ids =>
      intro c' h
      obtain ⟨htag, hfields⟩ := tag_fields_of_bytes_eq h
      cases c' with
      | newView =>
          obtain ⟨rfl, hrest⟩ := uint64_append_inj hfields
          rw [writeCertIDs_inj hrest]
      | _ => simp [tag] at htag

end AuthenContent

theorem CertifiedMessage.authenBytes_eq (sha256 : Bytes → Bytes) (m : CertifiedMessage) :
    m.authenBytes sha256 = m.authenContent.bytes sha256 := by
  induction m using CertifiedMessage.embeddedInduction with
  | prepare m => rw [CertifiedMessage.authenBytes, CertifiedMessage.authenContent]; rfl
  | commit m ih =>
      rw [CertifiedMessage.authenBytes, Commit.authenBytes_eq, ih, CertifiedMessage.authenContent]
      cases m
      rw [Commit.authenContent]
      rfl
  | viewChange m => rw [CertifiedMessage.authenBytes, CertifiedMessage.authenContent]; rfl
  | newView m => rw [CertifiedMessage.authenBytes, CertifiedMessage.authenContent]; rfl

theorem Message.authenBytes_eq (sha256 : Bytes → Bytes) (m : Message) :
    m.authenBytes sha256 = m.authenContent.map (AuthenContent.bytes sha256) := by
  cases m with
  | certified m => exact congrArg some (m.authenBytes_eq sha256)
  | _ => rfl

/-- Messages with the same authenticated bytes are of one kind and agree in the content
authenticated. -/
theorem authenContent_eq_of_authenBytes_eq {sha256 : Bytes → Bytes}
    (hsha : Function.Injective sha256) {m m' : Message}
    (h : m.authenBytes sha256 = m'.authenBytes sha256) : m.authenContent = m'.authenContent := by
  rw [m.authenBytes_eq, m'.authenBytes_eq] at h
  exact Option.map_injective (AuthenContent.bytes_injective hsha) h

namespace Concrete

/-- Neither the client nor the signature of a Request is part of the content. -/
theorem authenContent_of_requests :
    (Message.request ⟨0, 1, [5], [1]⟩).authenBytes id =
        (Message.request ⟨7, 1, [5], []⟩).authenBytes id ∧
      (Message.request ⟨0, 1, [5], [1]⟩).authenContent =
        (Message.request ⟨7, 1, [5], []⟩).authenContent :=
  ⟨rfl, authenContent_eq_of_authenBytes_eq Function.injective_id rfl⟩

end Concrete

end MinBFT
