import Mathlib.Logic.Denumerable
import MinBFT.Authentication
import MinBFT.Enclave
import MinBFT.Encoding
import MinBFT.Lib.EState
import MinBFT.Lib.LittleEndian

/-!
# USIG tags

The Go side of the USIG (`usig/sgx`) and `SGXUSIGAuthenticationScheme` of
`sample/authentication/crypto.go`. The tag of a message is a UI with a certificate that consists of
the epoch of the enclave instance and its signature. A verifier accepts whatever epoch it sees first
for a key, and no other one from then on.

A verifier accepts the tags that an instance makes, unless it knows the key with another epoch. If
all signatures with a key come from enclave instances, the tags that a verifier has accepted for the
key bind their counter values to one digest each.

The SGX library represents numbers by words or bytes in little-endian order, and the enclave signs a
packed structure. All calls on a verifier are sequential since it is locked.
-/

namespace MinBFT

namespace USIG

open BigEndian LittleEndian Authentication USIGEnclave

structure Signature where
  x : List UInt32
  y : List UInt32

structure SgxPublicKey where
  gx : Bytes
  gy : Bytes

structure X509 (Pub : Type) where
  marshalPKIXPublicKey : PublicKey Pub → Option Bytes
  parsePKIXPublicKey : Bytes → Option (PublicKey Pub)

/-- The libraries in use. Signatures are pairs of numbers. A public key can be on any curve, and
`p256` is the one with the given coordinates on curve P-256. -/
structure Libraries (Priv Pub Nonce : Type) where
  sha256 : Bytes → Digest
  p256 : ℕ × ℕ → Pub
  ecdsa : Ecdsa Priv Pub (ℤ × ℤ) Nonce
  asn1 : Asn1 (ℤ × ℤ)
  x509 : X509 Pub
  sgx : Sgx Priv Signature Nonce

variable {Priv Pub Nonce : Type}

/-! ## From SGX to Go -/

def sgxUint32SliceToBigInt (sgxArr : List UInt32) : ℕ :=
  value (sgxArr.reverse.flatMap fun w : UInt32 =>
    [(w >>> 24).toUInt8, (w >>> 16).toUInt8, (w >>> 8).toUInt8, (w >>> 0).toUInt8])

def sgxUint8SliceToBigInt (sgxArr : Bytes) : ℕ := value sgxArr.reverse

def sgxEC256SigToASN1 (asn1 : Asn1 (ℤ × ℤ)) (sgxSig : Signature) : Bytes :=
  asn1.marshal (sgxUint32SliceToBigInt sgxSig.x, sgxUint32SliceToBigInt sgxSig.y)

def sgxEC256PubKeyToGo (p256 : ℕ × ℕ → Pub) (sgxPubKey : SgxPublicKey) : PublicKey Pub :=
  .ecdsa (p256 (sgxUint8SliceToBigInt sgxPubKey.gx, sgxUint8SliceToBigInt sgxPubKey.gy))

theorem sgxUint32SliceToBigInt_words {n : ℕ} (h : n < 2 ^ 256) :
    sgxUint32SliceToBigInt (words 8 n) = n := by
  unfold sgxUint32SliceToBigInt
  simp only [← uint32_eq_shifts]
  exact value_words (by rw [← pow_mul]; exact h)

theorem sgxUint8SliceToBigInt_reverse {n : ℕ} (h : n < 2 ^ 256) :
    sgxUint8SliceToBigInt (bigEndian 32 n).reverse = n := by
  rw [sgxUint8SliceToBigInt, List.reverse_reverse]
  exact value_bigEndian (by norm_num; exact h)

/-! ## UIs -/

def makeCert (epoch : UInt64) (signature : Bytes) : Bytes := uint64 epoch ++ signature

def parseCert (cert : Bytes) : Option (UInt64 × Bytes) := readUint64 cert

/-- `ParseCert`. -/
def readCert (cert : Bytes) : Except TagError (UInt64 × Bytes) :=
  match parseCert cert with
  | none => .error .certEpoch
  | some parts => .ok parts

theorem readCert_makeCert (epoch : UInt64) (signature : Bytes) :
    readCert (makeCert epoch signature) = .ok (epoch, signature) := by
  rw [readCert, parseCert, makeCert, readUint64_uint64]

def littleEndian (n : UInt64) : Bytes :=
  [n.toUInt8, (n >>> 8).toUInt8, (n >>> 16).toUInt8, (n >>> 24).toUInt8, (n >>> 32).toUInt8,
    (n >>> 40).toUInt8, (n >>> 48).toUInt8, (n >>> 56).toUInt8]

section Verifying

variable (lib : Libraries Priv Pub Nonce)

def messageDigest (message : Bytes) : Digest := lib.sha256 message

def makeID (epoch : UInt64) (publicKey : PublicKey Pub) : Except TagError Bytes :=
  match lib.x509.marshalPKIXPublicKey publicKey with
  | none => .error .serializePublicKey
  | some publicKeyBytes => .ok (uint64 epoch ++ publicKeyBytes)

def parseID (usigID : Bytes) : Except TagError (UInt64 × PublicKey Pub) :=
  match readUint64 usigID with
  | none => .error .usigIDEpoch
  | some (epoch, rest) =>
      match lib.x509.parsePKIXPublicKey rest with
      | none => .error .parsePublicKey
      | some pubKey => .ok (epoch, pubKey)

def verifySignature (pubKey : PublicKey Pub) (digest : Digest) (epoch counter : UInt64)
    (signature : Bytes) : Except TagError Unit :=
  match pubKey with
  | .other _ => .error .expectedECDSA
  | .ecdsa ecdsaPubKey =>
      let hash := lib.sha256 (digest.bytes ++ littleEndian epoch ++ littleEndian counter)
      match lib.asn1.unmarshal signature with
      | none => .error .unmarshalSignature
      | some (ecdsaSignature, rest) =>
          if rest.length ≠ 0 then .error .extraBytes
          else if !lib.ecdsa.verify ecdsaPubKey hash.bytes ecdsaSignature then
            .error .signatureNotValid
          else .ok ()

def verifyUI (message : Bytes) (ui : UI) (usigID : Bytes) : Except TagError Unit := do
  let (epoch, pubKey) ← (parseID lib usigID).mapError .usigID
  let (uiEpoch, signature) ← (readCert ui.cert).mapError .uiCert
  if uiEpoch ≠ epoch then throw .epochMismatch
  verifySignature lib pubKey (messageDigest lib message) epoch ui.counter signature

/-- The first 8 bytes of the digest of the serialized key. -/
def makeUSIGKeyFingerprint (pubKey : PublicKey Pub) : Except TagError Bytes :=
  match lib.x509.marshalPKIXPublicKey pubKey with
  | none => .error .marshalPublicKey
  | some pubKeyBytes => .ok ((lib.sha256 pubKeyBytes).bytes.take 8)

/-- The captured epochs by key fingerprint. -/
abbrev Epochs := Bytes → Option UInt64

/-- The captured epoch, or that of the first valid UI, which is going to be captured. -/
def expectedEpoch (captured : Option UInt64) (ui : UI) : Except TagError UInt64 :=
  match captured with
  | some epoch => .ok epoch
  | none => ((readCert ui.cert).mapError TagError.uiCertificate).map (·.1)

/-- `SGXUSIGAuthenticationScheme.VerifyAuthenticationTag`. -/
def verifyAuthenticationTag (m sig : Bytes) (pubKey : PublicKey Pub) :
    EStateM TagError Epochs Unit := do
  let ui ← MonadExcept.ofExcept ((UI.unmarshalBinary sig).mapError fun _ => TagError.unmarshalUI)
  let fingerprint ← MonadExcept.ofExcept
    ((makeUSIGKeyFingerprint lib pubKey).mapError TagError.keyFingerprint)
  let epochs ← get
  let epoch ← MonadExcept.ofExcept (expectedEpoch (epochs fingerprint) ui)
  let usigID ← MonadExcept.ofExcept ((makeID lib epoch pubKey).mapError TagError.usigIdentity)
  MonadExcept.ofExcept (verifyUI lib m ui usigID)
  set (Function.update epochs fingerprint (some epoch))

end Verifying

/-- The serialized key is read back as one for which the signature is valid. -/
def Certified (lib : Libraries Priv Pub Nonce) (pubKey : PublicKey Pub) (m : Bytes)
    (epoch counter : UInt64) (signature : Bytes) : Prop :=
  ∃ publicKeyBytes pubKey', lib.x509.marshalPKIXPublicKey pubKey = some publicKeyBytes ∧
    lib.x509.parsePKIXPublicKey publicKeyBytes = some pubKey' ∧
    verifySignature lib pubKey' (messageDigest lib m) epoch counter signature = .ok ()

section Verified

variable {lib : Libraries Priv Pub Nonce} {pubKey : PublicKey Pub} {m : Bytes} {epoch : UInt64}

theorem verifyUI_makeID {usigID : Bytes} (hid : makeID lib epoch pubKey = .ok usigID) (ui : UI) :
    verifyUI lib m ui usigID = .ok () ↔ ∃ signature, readCert ui.cert = .ok (epoch, signature) ∧
      Certified lib pubKey m epoch ui.counter signature := by
  unfold makeID at hid
  split at hid
  · cases hid
  · next publicKeyBytes hmarshal =>
      cases hid
      unfold verifyUI parseID
      rw [readUint64_uint64]
      dsimp only
      cases hparse : lib.x509.parsePKIXPublicKey publicKeyBytes with
      | none =>
          refine iff_of_false (fun h => nomatch h) ?_
          rintro ⟨_, -, b, _, hb, hpub, -⟩
          cases hmarshal.symm.trans hb
          cases hparse.symm.trans hpub
      | some pubKey' =>
          cases hcert : readCert ui.cert with
          | error e =>
              refine iff_of_false (fun h => nomatch h) ?_
              rintro ⟨_, h, -⟩
              cases h
          | ok parts =>
              obtain ⟨uiEpoch, signature⟩ := parts
              simp only [Except.mapError, bind, Except.bind, throw, throwThe, MonadExceptOf.throw,
                ne_eq, ite_not]
              constructor
              · intro h
                split_ifs at h with hepoch
                exact ⟨signature, by rw [hepoch], publicKeyBytes, pubKey', hmarshal, hparse, h⟩
              · rintro ⟨_, heq, b, _, hb, hpub, hverify⟩
                cases heq
                cases hmarshal.symm.trans hb
                cases hparse.symm.trans hpub
                rwa [if_pos rfl]

def Expects (epochs : Epochs) (fingerprint : Bytes) (epoch : UInt64) : Prop :=
  epochs fingerprint = none ∨ epochs fingerprint = some epoch

structure Accepts (lib : Libraries Priv Pub Nonce) (m sig : Bytes) (pubKey : PublicKey Pub)
    (epochs epochs' : Epochs) (ui : UI) (epoch : UInt64) (signature : Bytes) : Prop where
  unmarshal : UI.unmarshalBinary sig = .ok ui
  cert : readCert ui.cert = .ok (epoch, signature)
  certified : Certified lib pubKey m epoch ui.counter signature
  captured : ∃ fingerprint, makeUSIGKeyFingerprint lib pubKey = .ok fingerprint ∧
    Expects epochs fingerprint epoch ∧ epochs' = Function.update epochs fingerprint (some epoch)

variable {sig : Bytes} {epochs epochs' : Epochs}

theorem expects_of_expectedEpoch {ui : UI} {fingerprint : Bytes}
    (h : expectedEpoch (epochs fingerprint) ui = .ok epoch) : Expects epochs fingerprint epoch := by
  unfold expectedEpoch at h
  split at h
  · next e he =>
      cases h
      exact .inr he
  · next hnone => exact .inl hnone

theorem Expects.expectedEpoch {ui : UI} {fingerprint signature : Bytes}
    (h : Expects epochs fingerprint epoch) (hcert : readCert ui.cert = .ok (epoch, signature)) :
    expectedEpoch (epochs fingerprint) ui = .ok epoch := by
  rcases h with h | h
  · rw [h, USIG.expectedEpoch, hcert]
    rfl
  · rw [h, USIG.expectedEpoch]

/-- A call that is rejected leaves the captured epochs alone. -/
theorem verifyAuthenticationTag_cases (lib : Libraries Priv Pub Nonce) (m sig : Bytes)
    (pubKey : PublicKey Pub) (epochs : Epochs) :
    (∃ e, verifyAuthenticationTag lib m sig pubKey epochs = .error e epochs) ∨
      ∃ epochs' ui epoch signature, Accepts lib m sig pubKey epochs epochs' ui epoch signature ∧
        verifyAuthenticationTag lib m sig pubKey epochs = .ok () epochs' := by
  unfold verifyAuthenticationTag
  cases hui : UI.unmarshalBinary sig with
  | error e => exact .inl ⟨_, rfl⟩
  | ok ui =>
      cases hfp : makeUSIGKeyFingerprint lib pubKey with
      | error e => exact .inl ⟨_, rfl⟩
      | ok fingerprint =>
          simp only [Except.mapError, EStateM.bind_apply, EStateM.ofExcept_ok, EStateM.get_apply]
          cases hepoch : expectedEpoch (epochs fingerprint) ui with
          | error e => exact .inl ⟨_, rfl⟩
          | ok epoch =>
              simp only [EStateM.ofExcept_ok]
              cases hid : makeID lib epoch pubKey with
              | error e => exact .inl ⟨_, rfl⟩
              | ok usigID =>
                  simp only [EStateM.ofExcept_ok]
                  cases hverify : verifyUI lib m ui usigID with
                  | error e => exact .inl ⟨_, rfl⟩
                  | ok _ =>
                      obtain ⟨signature, hcert, hcertified⟩ := (verifyUI_makeID hid ui).mp hverify
                      exact .inr ⟨_, ui, epoch, signature, ⟨hui, hcert, hcertified, fingerprint,
                        hfp, expects_of_expectedEpoch hepoch, rfl⟩, rfl⟩

theorem Accepts.verifyAuthenticationTag {ui : UI} {signature : Bytes}
    (h : Accepts lib m sig pubKey epochs epochs' ui epoch signature) :
    verifyAuthenticationTag lib m sig pubKey epochs = .ok () epochs' := by
  obtain ⟨hui, hcert, hcertified, fingerprint, hfp, hexpects, rfl⟩ := h
  have hid : ∃ usigID, makeID lib epoch pubKey = .ok usigID := by
    obtain ⟨b, _, hb, -⟩ := hcertified
    exact ⟨uint64 epoch ++ b, by rw [makeID, hb]⟩
  obtain ⟨usigID, hid⟩ := hid
  have hverify := (verifyUI_makeID hid ui).mpr ⟨signature, hcert, hcertified⟩
  unfold USIG.verifyAuthenticationTag
  rw [hui, hfp]
  simp only [Except.mapError, EStateM.bind_apply, EStateM.ofExcept_ok, EStateM.get_apply,
    hexpects.expectedEpoch hcert, hid, hverify, EStateM.set_apply]

end Verified

/-! ## Creating UIs -/

/-- `sgx.USIG`: the enclave instance and the epoch as read when it was created. -/
structure Instance (Priv : Type) where
  enclave : Enclave Priv SgxPublicKey
  epoch : UInt64

/-- What happens in a call of `CreateUI`: whether the enclave can be entered, and what the library
calls in it do. -/
structure CreateCalls (Nonce : Type) where
  entry : Status
  openContext : Status
  sign : Status
  nonce : Nonce

section Creating

variable (lib : Libraries Priv Pub Nonce)

/-- `New`, on an enclave whose memory is `s`. If it succeeds, so does getting the epoch. -/
def new (s : Enclave Priv SgxPublicKey) (sealedDataSize : Option UInt32)
    (calls : InitCalls Priv SgxPublicKey) : Except TagError (Instance Priv) :=
  let (s, response) := ecallInit lib.sgx s sealedDataSize calls
  if response.status ≠ success then .error (.sgx response.status)
  else
    match (ecallGetEpoch s : Response SgxPublicKey Signature).out with
    | .epoch epoch => .ok ⟨s, epoch⟩
    | _ => .ok ⟨s, 0⟩

/-- What `CreateUI` makes of the out parameters, which are zero if not written. -/
def uiFromOut (epoch : UInt64) : Out SgxPublicKey Signature → UI
  | .ui counter signature => ⟨counter, makeCert epoch (sgxEC256SigToASN1 lib.asn1
      (signature.getD ⟨List.replicate 8 0, List.replicate 8 0⟩))⟩
  | _ => ⟨0, makeCert epoch (sgxEC256SigToASN1 lib.asn1
      ⟨List.replicate 8 0, List.replicate 8 0⟩)⟩

def createUI (u : Instance Priv) (message : Bytes) (calls : CreateCalls Nonce) :
    Instance Priv × Except TagError UI :=
  if calls.entry ≠ success then (u, .error (.sgx calls.entry))
  else
    let (s, response) := ecallCreateUI lib.sgx u.enclave (messageDigest lib message)
      calls.openContext calls.sign calls.nonce
    let u := { u with enclave := s }
    if response.status ≠ success then (u, .error (.sgx response.status))
    else (u, .ok (uiFromOut lib u.epoch response.out))

def generateAuthenticationTag (u : Instance Priv) (m : Bytes) (calls : CreateCalls Nonce) :
    Instance Priv × Except TagError Bytes :=
  let (u, result) := createUI lib u m calls
  match result with
  | .ok ui => (u, .ok ui.marshalBinary)
  | .error e => (u, .error (.createUI e))

end Creating

def Instance.publicKey (lib : Libraries Priv Pub Nonce) (u : Instance Priv) : PublicKey Pub :=
  sgxEC256PubKeyToGo lib.p256 u.enclave.pubKey

/-! ## Completeness -/

/-- A key pair in the enclave. The coordinates of the public key are little-endian. -/
def Paired (lib : Libraries Priv Pub Nonce) (privKey : Priv) (pubKey : SgxPublicKey) : Prop :=
  ∃ x y, x < 2 ^ 256 ∧ y < 2 ^ 256 ∧ lib.ecdsa.publicKey privKey = lib.p256 (x, y) ∧
    pubKey = ⟨(bigEndian 32 x).reverse, (bigEndian 32 y).reverse⟩

/-- What is assumed of the libraries. -/
structure Libraries.Sound (lib : Libraries Priv Pub Nonce) : Prop where
  correct : ∀ key md nonce,
    lib.ecdsa.verify (lib.ecdsa.publicKey key) md (lib.ecdsa.sign key md nonce) = true
  /-- `sgx_ecdsa_sign` signs the digest of its input, and returns little-endian numbers. -/
  sgxSign : ∀ key data nonce, ∃ r s : ℕ, r < 2 ^ 256 ∧ s < 2 ^ 256 ∧
    lib.ecdsa.sign key (lib.sha256 data).bytes nonce = (↑r, ↑s) ∧
    lib.sgx.ecdsaSign key data nonce = ⟨words 8 r, words 8 s⟩
  serializable : ∀ key, ∃ b, lib.x509.marshalPKIXPublicKey (.ecdsa (lib.ecdsa.publicKey key)) =
    some b ∧ lib.x509.parsePKIXPublicKey b = some (.ecdsa (lib.ecdsa.publicKey key))
  parse_marshal : ∀ pubKey pubKey' b, lib.x509.marshalPKIXPublicKey pubKey = some b →
    lib.x509.parsePKIXPublicKey b = some pubKey' → pubKey' = pubKey

section Completeness

variable {lib : Libraries Priv Pub Nonce}

theorem Paired.publicKey {privKey : Priv} {pubKey : SgxPublicKey}
    (h : Paired lib privKey pubKey) :
    sgxEC256PubKeyToGo lib.p256 pubKey = .ecdsa (lib.ecdsa.publicKey privKey) := by
  obtain ⟨x, y, hx, hy, hpub, rfl⟩ := h
  rw [sgxEC256PubKeyToGo, sgxUint8SliceToBigInt_reverse hx, sgxUint8SliceToBigInt_reverse hy, hpub]

/-- The packed structure that the enclave signs is what `VerifySignature` composes. -/
theorem bytes_certData (digest : Digest) (epoch counter : UInt64) :
    digest.bytes ++ littleEndian epoch ++ littleEndian counter =
      CertData.bytes ⟨digest, epoch, counter⟩ := by
  rw [CertData.bytes, reverse_uint64, reverse_uint64]
  rfl

theorem Libraries.Sound.sgxEC256SigToASN1_eq (hlib : lib.Sound) (key : Priv) (data : Bytes)
    (nonce : Nonce) : sgxEC256SigToASN1 lib.asn1 (lib.sgx.ecdsaSign key data nonce) =
      lib.asn1.marshal (lib.ecdsa.sign key (lib.sha256 data).bytes nonce) := by
  obtain ⟨r, s, hr, hs, hsign, hsgx⟩ := hlib.sgxSign key data nonce
  rw [sgxEC256SigToASN1, hsgx, hsign, sgxUint32SliceToBigInt_words hr,
    sgxUint32SliceToBigInt_words hs]

/-- A signature made in the enclave is valid outside. -/
theorem Libraries.Sound.verifySignature (hlib : lib.Sound) (key : Priv) (digest : Digest)
    (epoch counter : UInt64) (nonce : Nonce) :
    verifySignature lib (.ecdsa (lib.ecdsa.publicKey key)) digest epoch counter
      (sgxEC256SigToASN1 lib.asn1
        (lib.sgx.ecdsaSign key (CertData.bytes ⟨digest, epoch, counter⟩) nonce)) = .ok () := by
  rw [hlib.sgxEC256SigToASN1_eq, USIG.verifySignature, lib.asn1.unmarshal_marshal, bytes_certData]
  simp [hlib.correct]

theorem generateKey_success {s : Enclave Priv SgxPublicKey} {calls : InitCalls Priv SgxPublicKey}
    (h : (generateKey s calls).2 = success) :
    (generateKey s calls).1 = { s with privKey := calls.privKey, pubKey := calls.pubKey } := by
  unfold generateKey at h ⊢
  split_ifs at h ⊢ with hopen
  · exact absurd h hopen
  · rfl

theorem unsealKey_success {s : Enclave Priv SgxPublicKey} {size : UInt32}
    {calls : InitCalls Priv SgxPublicKey} (h : (unsealKey lib.sgx s size calls).2 = success) :
    (unsealKey lib.sgx s size calls).1 =
      { s with privKey := calls.privKey, pubKey := calls.pubKey } := by
  unfold unsealKey at h ⊢
  split_ifs at h ⊢ with hsize
  · cases h
  all_goals rfl

theorem ecallInit_success {s : Enclave Priv SgxPublicKey} {sealedDataSize : Option UInt32}
    {calls : InitCalls Priv SgxPublicKey}
    (h : (ecallInit lib.sgx s sealedDataSize calls).2.status = success) :
    (ecallInit lib.sgx s sealedDataSize calls).1 =
      ⟨calls.privKey, calls.pubKey, calls.epoch, true, s.counter⟩ := by
  unfold ecallInit at h ⊢
  split_ifs at h ⊢ with hinit hrand
  · cases h
  · exact absurd h hrand
  · cases sealedDataSize with
    | none =>
        dsimp only at h ⊢
        split_ifs at h ⊢ with hret
        · exact absurd h hret
        · rw [generateKey_success (not_not.mp hret)]
    | some size =>
        dsimp only at h ⊢
        split_ifs at h ⊢ with hret
        · exact absurd h hret
        · rw [unsealKey_success (not_not.mp hret)]

/-- What a new instance is. -/
theorem new_eq_ok {s : Enclave Priv SgxPublicKey} {sealedDataSize : Option UInt32}
    {calls : InitCalls Priv SgxPublicKey} {u : Instance Priv}
    (h : new lib s sealedDataSize calls = .ok u) :
    u = ⟨⟨calls.privKey, calls.pubKey, calls.epoch, true, s.counter⟩, calls.epoch⟩ := by
  unfold new at h
  dsimp only at h
  split_ifs at h with hstatus
  rw [ecallInit_success (not_not.mp hstatus)] at h
  exact (Except.ok.inj h).symm

theorem ecallCreateUI_success {s : Enclave Priv SgxPublicKey} {digest : Digest}
    {opened signed : Status} {nonce : Nonce}
    (h : (ecallCreateUI lib.sgx s digest opened signed nonce).2.status = success) :
    (ecallCreateUI lib.sgx s digest opened signed nonce).2.out = .ui s.counter
      (some (lib.sgx.ecdsaSign s.privKey (CertData.bytes ⟨digest, s.epoch, s.counter⟩) nonce)) := by
  unfold ecallCreateUI at h ⊢
  split_ifs at h ⊢ with hinit hopened hsigned
  · cases h
  · exact absurd h hopened
  · exact absurd h hsigned
  · rfl

/-- The UI that an instance creates. -/
theorem createUI_eq_ok {u : Instance Priv} {m : Bytes} {calls : CreateCalls Nonce} {ui : UI}
    (h : (createUI lib u m calls).2 = .ok ui) :
    ui = ⟨u.enclave.counter, makeCert u.epoch (sgxEC256SigToASN1 lib.asn1
      (lib.sgx.ecdsaSign u.enclave.privKey (CertData.bytes
        ⟨messageDigest lib m, u.enclave.epoch, u.enclave.counter⟩) calls.nonce))⟩ := by
  unfold createUI at h
  dsimp only at h
  split_ifs at h with hentry hstatus
  rw [ecallCreateUI_success (not_not.mp hstatus)] at h
  exact (Except.ok.inj h).symm

theorem generateAuthenticationTag_eq_ok {u u' : Instance Priv} {m tag : Bytes}
    {calls : CreateCalls Nonce}
    (h : generateAuthenticationTag lib u m calls = (u', .ok tag)) :
    ∃ ui, (createUI lib u m calls).2 = .ok ui ∧ tag = UI.marshalBinary ui := by
  unfold generateAuthenticationTag at h
  dsimp only at h
  cases hui : (createUI lib u m calls).2 with
  | error e =>
      rw [hui] at h
      cases h
  | ok ui =>
      rw [hui] at h
      cases h
      exact ⟨ui, rfl, rfl⟩

theorem Libraries.Sound.certified (hlib : lib.Sound) {privKey : Priv} {pubKey : SgxPublicKey}
    (hpaired : Paired lib privKey pubKey) (m : Bytes) (epoch counter : UInt64) (nonce : Nonce) :
    Certified lib (sgxEC256PubKeyToGo lib.p256 pubKey) m epoch counter (sgxEC256SigToASN1 lib.asn1
      (lib.sgx.ecdsaSign privKey (CertData.bytes ⟨messageDigest lib m, epoch, counter⟩)
        nonce)) := by
  obtain ⟨b, hmarshal, hparse⟩ := hlib.serializable privKey
  rw [hpaired.publicKey]
  exact ⟨b, _, hmarshal, hparse, hlib.verifySignature privKey _ epoch counter nonce⟩

/-- A verifier accepts the tag of an instance if it expects the instance's epoch. -/
theorem Libraries.Sound.accepts (hlib : lib.Sound) {u u' : Instance Priv} {m tag : Bytes}
    {calls : CreateCalls Nonce} (hepoch : u.enclave.epoch = u.epoch)
    (hpaired : Paired lib u.enclave.privKey u.enclave.pubKey)
    (h : generateAuthenticationTag lib u m calls = (u', .ok tag)) {epochs : Epochs}
    {fingerprint : Bytes} (hfp : makeUSIGKeyFingerprint lib (u.publicKey lib) = .ok fingerprint)
    (hexpects : Expects epochs fingerprint u.epoch) :
    ∃ epochs', USIG.verifyAuthenticationTag lib m tag (u.publicKey lib) epochs =
      .ok () epochs' := by
  obtain ⟨ui, hcreate, rfl⟩ := generateAuthenticationTag_eq_ok h
  have hui := createUI_eq_ok hcreate
  rw [hepoch] at hui
  obtain ⟨signature, rfl, hcertified⟩ : ∃ signature,
      ui = ⟨u.enclave.counter, makeCert u.epoch signature⟩ ∧
        Certified lib (u.publicKey lib) m u.epoch u.enclave.counter signature :=
    ⟨_, hui, hlib.certified hpaired m u.epoch u.enclave.counter calls.nonce⟩
  have haccepts : Accepts lib m (UI.marshalBinary ⟨u.enclave.counter, makeCert u.epoch signature⟩)
      (u.publicKey lib) epochs (Function.update epochs fingerprint (some u.epoch)) _ u.epoch
      signature :=
    ⟨UI.unmarshalBinary_marshalBinary _, readCert_makeCert _ _, hcertified, fingerprint, hfp,
      hexpects, rfl⟩
  exact ⟨_, haccepts.verifyAuthenticationTag⟩

end Completeness

/-! ## Calls on a verifier -/

structure TagCall (Pub : Type) where
  m : Bytes
  tag : Bytes
  pubKey : PublicKey Pub

def tagUI (tag : Bytes) : Option UI := (UI.unmarshalBinary tag).toOption

def tagEpoch (tag : Bytes) : Option UInt64 :=
  (tagUI tag).bind fun ui => (parseCert ui.cert).map (·.1)

def tagCounter (tag : Bytes) : Option UInt64 := (tagUI tag).map (·.counter)

def tagSignature (lib : Libraries Priv Pub Nonce) (tag : Bytes) : Option (ℤ × ℤ) :=
  (tagUI tag).bind fun ui => (parseCert ui.cert).bind fun parts =>
    (lib.asn1.unmarshal parts.2).map (·.1)

structure Verifier (Pub : Type) where
  epochs : Epochs
  accepted : List (TagCall Pub)

def newVerifier : Verifier Pub := ⟨fun _ => none, []⟩

section Calls

variable (lib : Libraries Priv Pub Nonce)

def Verifier.call (v : Verifier Pub) (c : TagCall Pub) : Verifier Pub :=
  match verifyAuthenticationTag lib c.m c.tag c.pubKey v.epochs with
  | .ok _ epochs => ⟨epochs, v.accepted ++ [c]⟩
  | .error _ epochs => ⟨epochs, v.accepted⟩

def Verifier.calls (v : Verifier Pub) (cs : List (TagCall Pub)) : Verifier Pub :=
  cs.foldl (Verifier.call lib) v

end Calls

def Passed (lib : Libraries Priv Pub Nonce) (epochs : Epochs) (c : TagCall Pub) : Prop :=
  ∃ ui epoch signature fingerprint, UI.unmarshalBinary c.tag = .ok ui ∧
    readCert ui.cert = .ok (epoch, signature) ∧
    Certified lib c.pubKey c.m epoch ui.counter signature ∧
    makeUSIGKeyFingerprint lib c.pubKey = .ok fingerprint ∧ epochs fingerprint = some epoch

section Sequences

variable {lib : Libraries Priv Pub Nonce} {epochs epochs' : Epochs} {c c' : TagCall Pub}
  {v : Verifier Pub}

/-- Whatever is captured stays so. -/
theorem Accepts.captured_mono {m sig : Bytes} {pubKey : PublicKey Pub} {ui : UI}
    {epoch e : UInt64} {signature fp : Bytes}
    (h : Accepts lib m sig pubKey epochs epochs' ui epoch signature) (he : epochs fp = some e) :
    epochs' fp = some e := by
  obtain ⟨-, -, -, fingerprint, -, hexpects, rfl⟩ := h
  by_cases hfp : fp = fingerprint
  · subst hfp
    rw [Function.update_self]
    rcases hexpects with hnone | hsome
    · cases hnone.symm.trans he
    · exact hsome.symm.trans he
  · rwa [Function.update_of_ne hfp]

theorem Passed.call (h : ∀ c ∈ v.accepted, Passed lib v.epochs c) (c : TagCall Pub) :
    ∀ c' ∈ (v.call lib c).accepted, Passed lib (v.call lib c).epochs c' := by
  unfold Verifier.call
  rcases verifyAuthenticationTag_cases lib c.m c.tag c.pubKey v.epochs with
    ⟨e, herror⟩ | ⟨epochs', ui, epoch, signature, haccepts, hok⟩
  · rw [herror]
    exact h
  · rw [hok]
    intro c' hc'
    rcases List.mem_append.mp hc' with hc' | hc'
    · obtain ⟨ui', epoch', signature', fp', hui', hcert', hcertified', hfp', hcap'⟩ := h c' hc'
      exact ⟨ui', epoch', signature', fp', hui', hcert', hcertified', hfp',
        haccepts.captured_mono hcap'⟩
    · cases List.mem_singleton.mp hc'
      obtain ⟨hui, hcert, hcertified, fingerprint, hfp, -, rfl⟩ := haccepts
      exact ⟨ui, epoch, signature, fingerprint, hui, hcert, hcertified, hfp,
        Function.update_self _ _ _⟩

theorem Passed.calls (cs : List (TagCall Pub)) (h : ∀ c ∈ v.accepted, Passed lib v.epochs c) :
    ∀ c ∈ (v.calls lib cs).accepted, Passed lib (v.calls lib cs).epochs c := by
  induction cs generalizing v with
  | nil => exact h
  | cons c cs ih => exact ih (Passed.call h c)

theorem mem_of_accepted (cs : List (TagCall Pub)) :
    ∀ c ∈ (v.calls lib cs).accepted, c ∈ v.accepted ∨ c ∈ cs := by
  induction cs generalizing v with
  | nil => exact fun c hc => .inl hc
  | cons c₁ cs ih =>
      intro c hc
      rcases ih (v := v.call lib c₁) c hc with hmem | hmem
      · unfold Verifier.call at hmem
        split at hmem
        · rcases List.mem_append.mp hmem with hmem | hmem
          · exact .inl hmem
          · cases List.mem_singleton.mp hmem
            exact .inr List.mem_cons_self
        · exact .inl hmem
      · exact .inr (List.mem_cons_of_mem _ hmem)

theorem parseCert_of_readCert {cert signature : Bytes} {epoch : UInt64}
    (h : readCert cert = .ok (epoch, signature)) : parseCert cert = some (epoch, signature) := by
  unfold readCert at h
  split at h
  · cases h
  · next parts hparts => rw [hparts, Except.ok.inj h]

theorem tagUI_of_unmarshalBinary {tag : Bytes} {ui : UI} (h : UI.unmarshalBinary tag = .ok ui) :
    tagUI tag = some ui := by
  rw [tagUI, h]
  rfl

theorem tagEpoch_eq {tag signature : Bytes} {ui : UI} {epoch : UInt64}
    (hui : UI.unmarshalBinary tag = .ok ui) (hcert : readCert ui.cert = .ok (epoch, signature)) :
    tagEpoch tag = some epoch := by
  rw [tagEpoch, tagUI_of_unmarshalBinary hui, Option.bind_some, parseCert_of_readCert hcert]
  rfl

/-- Tags that have passed for the same key carry the captured epoch. -/
theorem Passed.sameEpoch (h : Passed lib epochs c) (h' : Passed lib epochs c')
    (hkey : c.pubKey = c'.pubKey) :
    ∃ epoch, tagEpoch c.tag = some epoch ∧ tagEpoch c'.tag = some epoch := by
  obtain ⟨ui, epoch, signature, fp, hui, hcert, -, hfp, hcap⟩ := h
  obtain ⟨ui', epoch', signature', fp', hui', hcert', -, hfp', hcap'⟩ := h'
  rw [← hkey] at hfp'
  cases hfp.symm.trans hfp'
  cases hcap.symm.trans hcap'
  exact ⟨epoch, tagEpoch_eq hui hcert, tagEpoch_eq hui' hcert'⟩

theorem verifySignature_eq_ok {key : Pub} {digest : Digest} {epoch counter : UInt64}
    {signature : Bytes}
    (h : verifySignature lib (.ecdsa key) digest epoch counter signature = .ok ()) :
    ∃ sig rest, lib.asn1.unmarshal signature = some (sig, rest) ∧
      lib.ecdsa.verify key (lib.sha256 (CertData.bytes ⟨digest, epoch, counter⟩)).bytes sig =
        true := by
  unfold verifySignature at h
  rw [bytes_certData] at h
  dsimp only at h
  split at h
  · cases h
  · next sig rest hsig =>
      split_ifs at h with hrest hverify
      exact ⟨sig, rest, hsig, by simpa using hverify⟩

end Sequences

/-! ## Non-equivocation -/

/-- What is assumed of a key, with the ecalls made on all instances: the signatures in the tags that
are presented for it have been made by instances, no certified data has the digest of other data,
all instances have different epochs, and none certifies two digests for one counter value. -/
structure Held (lib : Libraries Priv Pub Nonce) {ι : Type}
    (es : ι → List (Event Priv SgxPublicKey Signature Nonce)) (key : Pub)
    (cs : List (TagCall Pub)) : Prop where
  signed : ∀ c ∈ cs, c.pubKey = .ecdsa key → ∀ sig, tagSignature lib c.tag = some sig →
    ∀ hash : Digest, lib.ecdsa.verify key hash.bytes sig = true →
      ∃ i, ∃ e ∈ es i, e.creates = true ∧ ∃ digest counter, Certifies lib.sgx e digest counter ∧
        hash = lib.sha256 (CertData.bytes ⟨digest, e.before.epoch, counter⟩)
  collisionFree : ∀ i, ∀ e ∈ es i, ∀ digest counter, Certifies lib.sgx e digest counter →
    ∀ data : CertData, lib.sha256 data.bytes =
      lib.sha256 (CertData.bytes ⟨digest, e.before.epoch, counter⟩) →
        data = ⟨digest, e.before.epoch, counter⟩
  distinct : ∀ i, ∀ e ∈ es i, ∀ j, ∀ e' ∈ es j, e.creates = true → e'.creates = true →
    e.before.epoch = e'.before.epoch → i = j
  once : ∀ i, ∀ e ∈ es i, ∀ e' ∈ es i, ∀ digest digest' counter, e.creates = true →
    e'.creates = true → Certifies lib.sgx e digest counter →
      Certifies lib.sgx e' digest' counter → digest = digest'

section Soundness

variable {lib : Libraries Priv Pub Nonce} {ι : Type}
  {es : ι → List (Event Priv SgxPublicKey Signature Nonce)} {key : Pub} {cs : List (TagCall Pub)}
  {epochs : Epochs} {c c' : TagCall Pub}

/-- A tag that has passed is one that an instance has made. -/
theorem Held.certifies (h : Held lib es key cs) (hlib : lib.Sound) (hc : c ∈ cs)
    (hpassed : Passed lib epochs c) (hkey : c.pubKey = .ecdsa key) :
    ∃ i, ∃ e ∈ es i, e.creates = true ∧ tagEpoch c.tag = some e.before.epoch ∧
      ∃ counter, tagCounter c.tag = some counter ∧
        Certifies lib.sgx e (messageDigest lib c.m) counter := by
  obtain ⟨ui, epoch, signature, -, hui, hcert, hcertified, -⟩ := hpassed
  obtain ⟨b, pubKey', hmarshal, hparse, hverify⟩ := hcertified
  rw [hkey] at hmarshal
  cases hlib.parse_marshal _ _ _ hmarshal hparse
  obtain ⟨sig, rest, hsig, hvalid⟩ := verifySignature_eq_ok hverify
  have htag : tagSignature lib c.tag = some sig := by
    rw [tagSignature, tagUI_of_unmarshalBinary hui, Option.bind_some, parseCert_of_readCert hcert,
      Option.bind_some, hsig]
    rfl
  obtain ⟨i, e, he, hcreates, digest, counter, hcertifies, hhash⟩ :=
    h.signed c hc hkey sig htag _ hvalid
  obtain ⟨hdigest, hepoch, hcounter⟩ :=
    CertData.mk.inj (h.collisionFree i e he digest counter hcertifies _ hhash)
  refine ⟨i, e, he, hcreates, ?_, counter, ?_, hdigest ▸ hcertifies⟩
  · rw [tagEpoch_eq hui hcert, hepoch]
  · rw [tagCounter, tagUI_of_unmarshalBinary hui, Option.map_some, hcounter]

theorem Held.unequivocal (h : Held lib es key cs) (hlib : lib.Sound) (hc : c ∈ cs) (hc' : c' ∈ cs)
    (hpassed : Passed lib epochs c) (hpassed' : Passed lib epochs c')
    (hkey : c.pubKey = .ecdsa key) (hkey' : c'.pubKey = .ecdsa key)
    (hcounter : tagCounter c.tag = tagCounter c'.tag) :
    messageDigest lib c.m = messageDigest lib c'.m := by
  obtain ⟨i, e, he, hcreates, hepoch, counter, hctr, hcert⟩ := h.certifies hlib hc hpassed hkey
  obtain ⟨j, e', he', hcreates', hepoch', counter', hctr', hcert'⟩ :=
    h.certifies hlib hc' hpassed' hkey'
  obtain ⟨epoch, h₁, h₂⟩ := hpassed.sameEpoch hpassed' (hkey.trans hkey'.symm)
  have hsame : e.before.epoch = e'.before.epoch :=
    (Option.some.inj (hepoch.symm.trans h₁)).trans (Option.some.inj (hepoch'.symm.trans h₂)).symm
  cases h.distinct i e he j e' he' hcreates hcreates' hsame
  cases Option.some.inj ((hctr.symm.trans hcounter).trans hctr')
  exact h.once i e he e' he' _ _ _ hcreates hcreates' hcert hcert'

/-- What USIG tags provide. -/
structure Trustworthy (lib : Libraries Priv Pub Nonce) : Prop where
  complete : ∀ s sealedDataSize calls u, new lib s sealedDataSize calls = .ok u →
    Paired lib calls.privKey calls.pubKey → ∀ ecalls m create u' tag,
    generateAuthenticationTag lib { u with enclave := final lib.sgx u.enclave ecalls } m create =
      (u', .ok tag) →
    ∀ epochs, (∀ fingerprint, makeUSIGKeyFingerprint lib (u.publicKey lib) = .ok fingerprint →
      Expects epochs fingerprint u.epoch) →
    ∃ epochs', verifyAuthenticationTag lib m tag (u.publicKey lib) epochs = .ok () epochs'
  sameEpoch : ∀ cs, ∀ c ∈ (newVerifier.calls lib cs).accepted,
    ∀ c' ∈ (newVerifier.calls lib cs).accepted, c.pubKey = c'.pubKey →
      ∃ epoch, tagEpoch c.tag = some epoch ∧ tagEpoch c'.tag = some epoch
  unchanged : ∀ m sig pubKey epochs e epochs',
    verifyAuthenticationTag lib m sig pubKey epochs = .error e epochs' → epochs' = epochs
  unequivocal : ∀ (ι : Type) (es : ι → List (Event Priv SgxPublicKey Signature Nonce)) key cs,
    Held lib es key cs → ∀ c ∈ (newVerifier.calls lib cs).accepted,
      ∀ c' ∈ (newVerifier.calls lib cs).accepted, c.pubKey = .ecdsa key → c'.pubKey = .ecdsa key →
        tagCounter c.tag = tagCounter c'.tag → messageDigest lib c.m = messageDigest lib c'.m

theorem trustworthy (hlib : lib.Sound) : Trustworthy lib := by
  have hpassed : ∀ cs, ∀ c ∈ (newVerifier.calls lib cs).accepted,
      Passed lib (newVerifier.calls lib cs).epochs c :=
    fun cs => Passed.calls cs fun _ hc => absurd hc List.not_mem_nil
  have hmem : ∀ cs, ∀ c ∈ (newVerifier.calls lib cs).accepted, c ∈ cs := fun cs c hc =>
    (mem_of_accepted cs c hc).resolve_left List.not_mem_nil
  refine ⟨?_, fun cs c hc c' hc' => (hpassed cs c hc).sameEpoch (hpassed cs c' hc'), ?_, ?_⟩
  · intro s sealedDataSize calls u hnew hpaired ecalls m create u' tag htag epochs hexpects
    have hu := new_eq_ok hnew
    have hinit : u.enclave.initialized = true := by rw [hu]
    have hsame : SameIdentity u.enclave (final lib.sgx u.enclave ecalls) :=
      (sameIdentity_final hinit ecalls).1
    obtain ⟨b, hmarshal, -⟩ := hlib.serializable calls.privKey
    have hpublic : u.publicKey lib = .ecdsa (lib.ecdsa.publicKey calls.privKey) := by
      rw [Instance.publicKey, hu]
      exact hpaired.publicKey
    have hfp : makeUSIGKeyFingerprint lib (u.publicKey lib) =
        .ok ((lib.sha256 b).bytes.take 8) := by
      rw [makeUSIGKeyFingerprint, hpublic, hmarshal]
    have hkeep : (Instance.mk (final lib.sgx u.enclave ecalls) u.epoch).publicKey lib =
        u.publicKey lib := by
      rw [Instance.publicKey, hsame.pubKey, Instance.publicKey]
    have hepoch : (final lib.sgx u.enclave ecalls).epoch = u.epoch := by rw [hsame.epoch, hu]
    have hpair : Paired lib (final lib.sgx u.enclave ecalls).privKey
        (final lib.sgx u.enclave ecalls).pubKey := by
      rw [hsame.privKey, hsame.pubKey, hu]
      exact hpaired
    have haccepts := hlib.accepts hepoch hpair htag (hkeep.symm ▸ hfp) (hexpects _ hfp)
    rwa [hkeep] at haccepts
  · intro m sig pubKey epochs e epochs' herror
    rcases verifyAuthenticationTag_cases lib m sig pubKey epochs with ⟨e', h⟩ | ⟨_, _, _, _, -, h⟩
    · cases herror.symm.trans h
      rfl
    · cases herror.symm.trans h
  · intro ι es key cs hheld c hc c' hc' hkey hkey' hcounter
    exact hheld.unequivocal hlib (hmem cs c hc) (hmem cs c' hc') (hpassed cs c hc)
      (hpassed cs c' hc') hkey hkey' hcounter

end Soundness

end USIG

namespace Concrete

open BigEndian LittleEndian Authentication USIGEnclave USIG

def otherDigest : Digest := ⟨List.replicate 32 1, rfl⟩

def certifiedData : CertData := ⟨zeroDigest, 7, 1⟩

def markingHash (b : Bytes) : Digest := if b = certifiedData.bytes then otherDigest else zeroDigest

def markingNumber (md : Bytes) : ℕ := if md = otherDigest.bytes then 1 else 0

def unaryAsn1 : Asn1 (ℤ × ℤ) where
  marshal sig := List.replicate (Encodable.encode sig) 0
  unmarshal b := (Encodable.decode b.length).map fun sig => (sig, [])
  unmarshal_marshal sig := by rw [List.length_replicate, Encodable.encodek, Option.map_some]

def oneKeyX509 : X509 (ℕ × ℕ) where
  marshalPKIXPublicKey
    | .ecdsa (1, 2) => some []
    | _ => none
  parsePKIXPublicKey _ := some (.ecdsa (1, 2))

def markingLibraries : Libraries Unit (ℕ × ℕ) Unit where
  sha256 := markingHash
  p256 := id
  ecdsa := ⟨fun _ => (1, 2), fun _ md _ => ((markingNumber md : ℤ), 0),
    fun _ md sig => sig == ((markingNumber md : ℤ), 0)⟩
  asn1 := unaryAsn1
  x509 := oneKeyX509
  sgx := ⟨1, fun _ data _ => ⟨words 8 (markingNumber (markingHash data).bytes), words 8 0⟩⟩

theorem sound_markingLibraries : markingLibraries.Sound where
  correct _ _ _ := beq_iff_eq.mpr rfl
  sgxSign _ data _ := by
    refine ⟨markingNumber (markingHash data).bytes, 0, ?_, by decide, rfl, rfl⟩
    unfold markingNumber
    split_ifs <;> decide
  serializable _ := ⟨[], rfl, rfl⟩
  parse_marshal pubKey pubKey' b h h' := by
    cases h'
    simp only [markingLibraries, oneKeyX509] at h
    split at h
    · rfl
    · cases h

def certifiedTag : Bytes := UI.marshalBinary ⟨1, makeCert 7 (unaryAsn1.marshal (1, 0))⟩

def certifiedCall : TagCall (ℕ × ℕ) := ⟨[], certifiedTag, .ecdsa (1, 2)⟩

theorem markingHash_certifiedData : markingHash certifiedData.bytes = otherDigest := if_pos rfl

theorem unmarshal_certifiedTag :
    markingLibraries.asn1.unmarshal (unaryAsn1.marshal (1, 0)) = some ((1, 0), []) :=
  unaryAsn1.unmarshal_marshal (1, 0)

theorem accepts_certifiedCall :
    Accepts markingLibraries [] certifiedTag (.ecdsa (1, 2)) (@newVerifier (ℕ × ℕ)).epochs
      (Function.update (@newVerifier (ℕ × ℕ)).epochs ((markingHash []).bytes.take 8) (some 7))
      ⟨1, makeCert 7 (unaryAsn1.marshal (1, 0))⟩ 7 (unaryAsn1.marshal (1, 0)) := by
  refine ⟨UI.unmarshalBinary_marshalBinary _, readCert_makeCert _ _, ⟨[], _, rfl, rfl, ?_⟩, _, rfl,
    .inl rfl, rfl⟩
  have hdata : CertData.mk (messageDigest markingLibraries []) 7 1 = certifiedData := by
    decide +kernel
  have hhash : markingLibraries.sha256 certifiedData.bytes = otherDigest :=
    markingHash_certifiedData
  rw [verifySignature, bytes_certData, hdata, unmarshal_certifiedTag, hhash]
  rfl

def certifyingCalls : List (Ecall Unit SgxPublicKey Unit) :=
  [.init none ⟨success, 7, success, success, (),
    ⟨(bigEndian 32 1).reverse, (bigEndian 32 2).reverse⟩, 64, 32⟩,
    .createUI zeroDigest success success ()]

def certifyingEvents : List (Event Unit SgxPublicKey Signature Unit) :=
  events markingLibraries.sgx (start () ⟨[], []⟩ 0) certifyingCalls

theorem certifies_certifyingEvents {e : Event Unit SgxPublicKey Signature Unit}
    (he : e ∈ certifyingEvents) {digest : Digest} {counter : UInt64}
    (h : Certifies markingLibraries.sgx e digest counter) :
    CertData.mk digest e.before.epoch counter = certifiedData := by
  obtain ⟨opened, signed, nonce, hcall, hout⟩ := h
  rcases List.mem_cons.mp he with rfl | he
  · cases hcall
  · cases List.mem_singleton.mp he
    cases hcall
    injection hout with hcounter
    cases hcounter
    rfl

theorem held_certifiedTag (key : ℕ × ℕ) {cs : List (TagCall (ℕ × ℕ))}
    (hcs : ∀ c ∈ cs, c.tag = certifiedTag) :
    Held markingLibraries (fun _ : Unit => certifyingEvents) key cs where
  signed c hc _ sig hsig hash hverify := by
    rw [hcs c hc] at hsig
    have htag : tagSignature markingLibraries certifiedTag = some (1, 0) := by
      rw [tagSignature, certifiedTag, tagUI_of_unmarshalBinary (UI.unmarshalBinary_marshalBinary _),
        Option.bind_some, parseCert_of_readCert (readCert_makeCert _ _), Option.bind_some,
        unmarshal_certifiedTag]
      rfl
    cases htag.symm.trans hsig
    have hnumber : (1, 0) = ((markingNumber hash.bytes : ℤ), (0 : ℤ)) := beq_iff_eq.mp hverify
    have hhash : hash.bytes = otherDigest.bytes := by
      unfold markingNumber at hnumber
      split_ifs at hnumber with heq
      · exact heq
      · cases hnumber
    refine ⟨(), certifyingEvents[1], List.getElem_mem _, rfl, zeroDigest, 1,
      ⟨success, success, (), rfl, rfl⟩, ?_⟩
    exact (Digest.ext hhash).trans markingHash_certifiedData.symm
  collisionFree _ e he digest counter hcert data hdata := by
    rw [certifies_certifyingEvents he hcert] at hdata ⊢
    have hmark : markingHash data.bytes = otherDigest := hdata.trans markingHash_certifiedData
    unfold markingHash at hmark
    split_ifs at hmark with hbytes
    · exact CertData.bytes_injective hbytes
    · exact absurd hmark (by decide)
  distinct _ _ _ _ _ _ _ _ _ := rfl
  once _ _ he _ he' _ _ _ hcreates hcreates' h h' :=
    unique_events (by decide) he he' hcreates hcreates' h h'

theorem trustworthy_markingLibraries : Trustworthy markingLibraries ∧
    (newVerifier.calls markingLibraries [certifiedCall]).accepted = [certifiedCall] ∧
    Held markingLibraries (fun _ : Unit => certifyingEvents) (1, 2) [certifiedCall] := by
  refine ⟨trustworthy sound_markingLibraries, ?_, held_certifiedTag _ (by simp [certifiedCall])⟩
  change (newVerifier.call markingLibraries certifiedCall).accepted = [certifiedCall]
  rw [Verifier.call, certifiedCall, accepts_certifiedCall.verifyAuthenticationTag]
  rfl

end Concrete

end MinBFT
