import MinBFT.Authen

/-!
# Signed tags

`sample/authentication/crypto.go`: the tag of a message is an ECDSA signature. What is signed is
meant to be the digest of the message, but `HashScheme.New().Sum(m)` is the message followed by the
digest of nothing. ECDSA looks at no more of it than the first 32 bytes, so that a tag binds the
first 32 bytes of the message and what follows them is free.

Of the libraries used here, ECDSA signatures on curve P-256 and their ASN.1 encoding are parameters.
-/

namespace MinBFT

namespace Authentication

structure Ecdsa (Priv Pub Sig Nonce : Type) where
  publicKey : Priv → Pub
  sign : Priv → Bytes → Nonce → Sig
  verify : Pub → Bytes → Sig → Bool

/-- A signature is valid for what has been signed, as far as it is looked at, and for nothing
else. -/
structure Ecdsa.Ideal {Priv Pub Sig Nonce : Type} (ec : Ecdsa Priv Pub Sig Nonce) : Prop where
  sign_take : ∀ key md nonce, ec.sign key (md.take 32) nonce = ec.sign key md nonce
  verify_take : ∀ key md sig, ec.verify key (md.take 32) sig = ec.verify key md sig
  verify_sign : ∀ key md md' nonce,
    ec.verify (ec.publicKey key) md' (ec.sign key md nonce) = true ↔ md'.take 32 = md.take 32

/-- `encoding/asn1` for signatures. What follows an encoded signature is returned with it. -/
structure Asn1 (Sig : Type) where
  marshal : Sig → Bytes
  unmarshal : Bytes → Option (Sig × Bytes)
  unmarshal_marshal : ∀ sig, unmarshal (marshal sig) = some (sig, [])

inductive PrivateKey (Priv : Type) where
  | ecdsa (key : Priv)
  | other (id : ℕ)

inductive PublicKey (Pub : Type) where
  | ecdsa (key : Pub)
  | other (id : ℕ)

/-- Errors, wrapped as in the source. -/
inductive TagError where
  | signing
  | privateKeyFormat
  | invalidSignature
  | sgx (status : UInt32)
  | createUI (e : TagError)
  | unmarshalUI
  | marshalPublicKey
  | keyFingerprint (e : TagError)
  | certEpoch
  | uiCertificate (e : TagError)
  | serializePublicKey
  | usigIdentity (e : TagError)
  | usigIDEpoch
  | parsePublicKey
  | usigID (e : TagError)
  | uiCert (e : TagError)
  | epochMismatch
  | expectedECDSA
  | unmarshalSignature
  | extraBytes
  | signatureNotValid

inductive TagFault where
  | error (e : TagError)
  /-- The signature is not ASN.1-DER encoded, or there is no scheme for the role. -/
  | panic

section Schemes

variable {Priv Pub Sig Nonce : Type}

/-- `SignatureCipher`. Signing may find that no random bytes can be read. -/
structure SignatureCipher (Priv Pub Nonce : Type) where
  sign : Bytes → PrivateKey Priv → Option Nonce → Except TagFault Bytes
  verify : Bytes → Bytes → PublicKey Pub → Except TagFault Bool

def ecdsaSigCipher (ec : Ecdsa Priv Pub Sig Nonce) (asn1 : Asn1 Sig) :
    SignatureCipher Priv Pub Nonce where
  sign md privKey rand :=
    match privKey with
    | .ecdsa key =>
        match rand with
        | none => .error (.error .signing)
        | some nonce => .ok (asn1.marshal (ec.sign key md nonce))
    | .other _ => .error (.error .privateKeyFormat)
  verify md sig pubKey :=
    match asn1.unmarshal sig with
    | none => .error .panic
    | some (ecdsaSig, _) =>
        match pubKey with
        | .ecdsa key => .ok (ec.verify key md ecdsaSig)
        | .other _ => .ok false

/-- `Sum` of a `hash.Hash` appends the digest of what has been written to its argument. -/
def sum (hash : Bytes → Bytes) (written b : Bytes) : Bytes := b ++ hash written

structure PublicAuthenScheme (Priv Pub Nonce : Type) where
  hashScheme : Bytes → Bytes
  sigCipher : SignatureCipher Priv Pub Nonce

namespace PublicAuthenScheme

variable (a : PublicAuthenScheme Priv Pub Nonce)

def generateAuthenticationTag (m : Bytes) (privKey : PrivateKey Priv) (rand : Option Nonce) :
    Except TagFault Bytes :=
  let md := sum a.hashScheme [] m
  a.sigCipher.sign md privKey rand

def verifyAuthenticationTag (m sig : Bytes) (pubKey : PublicKey Pub) : Except TagFault Unit := do
  let md := sum a.hashScheme [] m
  if !(← a.sigCipher.verify md sig pubKey) then throw (.error .invalidSignature)

end PublicAuthenScheme

def ecdsaScheme (sha256 : Bytes → Bytes) (ec : Ecdsa Priv Pub Sig Nonce) (asn1 : Asn1 Sig) :
    PublicAuthenScheme Priv Pub Nonce := ⟨sha256, ecdsaSigCipher ec asn1⟩

variable {sha256 : Bytes → Bytes} {ec : Ecdsa Priv Pub Sig Nonce} {asn1 : Asn1 Sig}

theorem generateAuthenticationTag_eq_ok {key : Priv} {rand : Option Nonce} {m tag : Bytes}
    (h : (ecdsaScheme sha256 ec asn1).generateAuthenticationTag m (.ecdsa key) rand = .ok tag) :
    ∃ nonce, tag = asn1.marshal (ec.sign key (m ++ sha256 []) nonce) := by
  cases rand with
  | none => cases h
  | some nonce =>
      cases h
      exact ⟨nonce, rfl⟩

theorem verifyAuthenticationTag_marshal (key : Pub) (m : Bytes) (sig : Sig) :
    (ecdsaScheme sha256 ec asn1).verifyAuthenticationTag m (asn1.marshal sig) (.ecdsa key) =
      if ec.verify key (m ++ sha256 []) sig then .ok ()
      else .error (.error .invalidSignature) := by
  have hverify : (ecdsaSigCipher ec asn1).verify (m ++ sha256 []) (asn1.marshal sig) (.ecdsa key) =
      .ok (ec.verify key (m ++ sha256 []) sig) := by
    simp only [ecdsaSigCipher, asn1.unmarshal_marshal]
  unfold PublicAuthenScheme.verifyAuthenticationTag ecdsaScheme sum
  dsimp only
  rw [hverify]
  cases ec.verify key (m ++ sha256 []) sig <;> rfl

/-- The signature is decoded first, whatever the key is. -/
theorem ecdsaScheme_cases (sha256 : Bytes → Bytes) (ec : Ecdsa Priv Pub Sig Nonce)
    (asn1 : Asn1 Sig) (m tag : Bytes) (pubKey : PublicKey Pub) :
    (asn1.unmarshal tag = none ∧
      (ecdsaScheme sha256 ec asn1).verifyAuthenticationTag m tag pubKey = .error .panic) ∨
    ∃ sig rest, asn1.unmarshal tag = some (sig, rest) ∧
      ((∃ key, pubKey = .ecdsa key ∧ ec.verify key (m ++ sha256 []) sig = true ∧
        (ecdsaScheme sha256 ec asn1).verifyAuthenticationTag m tag pubKey = .ok ()) ∨
      (ecdsaScheme sha256 ec asn1).verifyAuthenticationTag m tag pubKey =
        .error (.error .invalidSignature)) := by
  unfold PublicAuthenScheme.verifyAuthenticationTag ecdsaScheme ecdsaSigCipher sum
  dsimp only
  cases asn1.unmarshal tag with
  | none => exact .inl ⟨rfl, rfl⟩
  | some parts =>
      obtain ⟨sig, rest⟩ := parts
      refine .inr ⟨sig, rest, rfl, ?_⟩
      cases pubKey with
      | other n => exact .inr rfl
      | ecdsa key =>
          dsimp only
          cases hverify : ec.verify key (m ++ sha256 []) sig with
          | false => exact .inr rfl
          | true => exact .inl ⟨key, rfl, hverify, rfl⟩

/-- What a tag is for: its message and all others with the same first 32 bytes, where a shorter
message is continued by the digest of nothing. -/
theorem verifyAuthenticationTag_iff (hideal : ec.Ideal) {key : Priv} {rand : Option Nonce}
    {m m' tag : Bytes}
    (h : (ecdsaScheme sha256 ec asn1).generateAuthenticationTag m (.ecdsa key) rand = .ok tag) :
    (ecdsaScheme sha256 ec asn1).verifyAuthenticationTag m' tag (.ecdsa (ec.publicKey key)) =
        .ok () ↔
      (m' ++ sha256 []).take 32 = (m ++ sha256 []).take 32 := by
  obtain ⟨nonce, rfl⟩ := generateAuthenticationTag_eq_ok h
  rw [verifyAuthenticationTag_marshal, ← hideal.verify_sign]
  split_ifs with hverify
  · exact iff_of_true rfl hverify
  · exact iff_of_false (fun h => nomatch h) hverify

end Schemes

/-- Behind its kind and sequence number, there is room for 17 bytes of the operation's digest among
the first 32 bytes of a Request. -/
theorem take_authenBytes (sha256 : Bytes → Bytes) (req : Request) :
    (req.authenBytes sha256 ++ sha256 []).take 32 =
      (tagBytes "REQUEST" ++ BigEndian.uint64 req.sequence) ++
        (sha256 req.operation ++ sha256 []).take 17 := by
  have hlen : (tagBytes "REQUEST" ++ BigEndian.uint64 req.sequence).length = 15 := by
    rw [List.length_append, BigEndian.length_uint64]
    rfl
  have hbytes : req.authenBytes sha256 ++ sha256 [] =
      (tagBytes "REQUEST" ++ BigEndian.uint64 req.sequence) ++
        (sha256 req.operation ++ sha256 []) := by
    unfold Request.authenBytes Request.writeAuthenBytes hashsum
    rw [List.append_assoc, List.append_assoc, List.append_assoc]
  rw [hbytes, List.take_append, hlen, List.take_of_length_le (by rw [hlen]; decide)]

section Binding

variable {Priv Pub Sig Nonce : Type} {ec : Ecdsa Priv Pub Sig Nonce}

/-- A tag is rejected for precisely the messages whose first 32 bytes are different, and for
precisely the Requests whose operations have digests with different first 17 bytes. -/
theorem rejected_iff (hideal : ec.Ideal) (sha256 : Bytes → Bytes) (asn1 : Asn1 Sig) (key : Priv)
    (rand : Option Nonce) (tag : Bytes) :
    (∀ m m',
      (ecdsaScheme sha256 ec asn1).generateAuthenticationTag m (.ecdsa key) rand = .ok tag →
      ((ecdsaScheme sha256 ec asn1).verifyAuthenticationTag m' tag (.ecdsa (ec.publicKey key)) ≠
          .ok () ↔
        (m' ++ sha256 []).take 32 ≠ (m ++ sha256 []).take 32)) ∧
    ∀ req req' : Request, req.sequence = req'.sequence →
      (ecdsaScheme sha256 ec asn1).generateAuthenticationTag (req.authenBytes sha256) (.ecdsa key)
        rand = .ok tag →
      ((ecdsaScheme sha256 ec asn1).verifyAuthenticationTag (req'.authenBytes sha256) tag
          (.ecdsa (ec.publicKey key)) ≠ .ok () ↔
        (sha256 req'.operation ++ sha256 []).take 17 ≠
          (sha256 req.operation ++ sha256 []).take 17) := by
  constructor
  · intro m m' hgen
    exact not_congr (verifyAuthenticationTag_iff hideal hgen)
  · intro req req' hseq hgen
    refine not_congr ((verifyAuthenticationTag_iff hideal hgen).trans ?_)
    rw [take_authenBytes, take_authenBytes, hseq]
    exact List.append_right_inj _

end Binding

end Authentication

namespace Concrete

open Authentication

def plainEcdsa : Ecdsa Unit Unit Bytes Unit where
  publicKey _ := ()
  sign _ md _ := md.take 32
  verify _ md sig := md.take 32 == sig

theorem ideal_plainEcdsa : plainEcdsa.Ideal where
  sign_take _ md _ := by simp [plainEcdsa]
  verify_take _ md _ := by simp [plainEcdsa, List.take_take]
  verify_sign _ _ _ _ := beq_iff_eq

def plainAsn1 : Asn1 Bytes := ⟨id, fun b => some (b, []), fun _ => rfl⟩

/-- A digest that is different for different data, and begins with 17 zeros. -/
def paddingHash (data : Bytes) : Bytes := List.replicate 17 0 ++ data

def plainScheme : PublicAuthenScheme Unit Unit Unit := ecdsaScheme paddingHash plainEcdsa plainAsn1

theorem rejected_iff_plain :
    plainScheme.generateAuthenticationTag [1, 2] (.ecdsa ()) (some ()) =
        .ok ([1, 2] ++ List.replicate 17 0) ∧
      plainScheme.verifyAuthenticationTag [1, 3] ([1, 2] ++ List.replicate 17 0) (.ecdsa ()) ≠
        .ok () :=
  ⟨rfl, ((rejected_iff ideal_plainEcdsa paddingHash plainAsn1 () (some ()) _).1 [1, 2] [1, 3]
    rfl).mpr (by decide)⟩

def unsignedRequest (seq : UInt64) (operation : Bytes) : Request := ⟨0, seq, operation, []⟩

/-- Tags accepted for other messages: one of 33 bytes, and one of another Request. -/
theorem tag_accepted_for_other : plainEcdsa.Ideal ∧ Function.Injective paddingHash ∧
    (∃ m m' tag, m ≠ m' ∧
      plainScheme.generateAuthenticationTag m (.ecdsa ()) (some ()) = .ok tag ∧
      plainScheme.verifyAuthenticationTag m' tag (.ecdsa ()) = .ok ()) ∧
    ∃ req req' : Request, ∃ tag, req.sequence = req'.sequence ∧
      paddingHash req.operation ≠ paddingHash req'.operation ∧
      plainScheme.generateAuthenticationTag (req.authenBytes paddingHash) (.ecdsa ()) (some ()) =
        .ok tag ∧
      plainScheme.verifyAuthenticationTag (req'.authenBytes paddingHash) tag (.ecdsa ()) =
        .ok () := by
  refine ⟨ideal_plainEcdsa, fun _ _ h => List.append_cancel_left h, ?_, ?_⟩
  · exact ⟨List.replicate 32 0 ++ [0], List.replicate 32 0 ++ [1], List.replicate 32 0, by decide,
      rfl, rfl⟩
  · exact ⟨unsignedRequest 1 [0], unsignedRequest 1 [1], _, rfl, by decide, rfl, rfl⟩

end Concrete

end MinBFT
