import MinBFT.KeyStore

/-!
# Authenticators

`sample/authentication/authenticator.go`: an authenticator looks up the key of a node and the scheme
of a role. Tags come unchecked from clients and peers, for any role, node ID and message.

For a node that is not in the key store, the key is nil, which no scheme accepts. A USIG tag is
rejected with an error whatever it is. A signed tag that is not ASN.1 makes the verifier panic, and
does so before the key is looked at.
-/

namespace MinBFT

namespace Authentication

open USIG USIGEnclave

variable {Priv Pub Nonce : Type}

/-! ## Authentication schemes -/

/-- The types that implement `AuthenticationScheme`. The one for USIG tags has captured epochs. -/
inductive AuthenticationScheme (Priv Pub Nonce : Type) where
  | publicAuthen (scheme : PublicAuthenScheme Priv Pub Nonce)
  | sgxUSIG (usig : Instance Priv) (epochs : Epochs)

def newSGXUSIGAuthenticationScheme (usig : Instance Priv) : AuthenticationScheme Priv Pub Nonce :=
  .sgxUSIG usig fun _ => none

def publicScheme (lib : KeyLibraries Priv Pub Nonce) : PublicAuthenScheme Priv Pub Nonce :=
  ecdsaScheme (fun b => (lib.sha256 b).bytes) lib.ecdsa lib.asn1

namespace AuthenticationScheme

variable (lib : KeyLibraries Priv Pub Nonce)

def verifyAuthenticationTag (scheme : AuthenticationScheme Priv Pub Nonce) (m sig : Bytes)
    (pubKey : PublicKey Pub) : AuthenticationScheme Priv Pub Nonce × Except TagFault Unit :=
  match scheme with
  | .publicAuthen a => (scheme, a.verifyAuthenticationTag m sig pubKey)
  | .sgxUSIG usig epochs =>
      match USIG.verifyAuthenticationTag lib.toLibraries m sig pubKey epochs with
      | .ok _ epochs => (.sgxUSIG usig epochs, .ok ())
      | .error e epochs => (.sgxUSIG usig epochs, .error (.error e))

/-- The private key is ignored by the scheme for USIG tags. -/
def generateAuthenticationTag (scheme : AuthenticationScheme Priv Pub Nonce) (m : Bytes)
    (privKey : PrivateKey Priv) (rand : Option Nonce) (calls : CreateCalls Nonce) :
    AuthenticationScheme Priv Pub Nonce × Except TagFault Bytes :=
  match scheme with
  | .publicAuthen a => (scheme, a.generateAuthenticationTag m privKey rand)
  | .sgxUSIG usig epochs =>
      let (usig, result) := USIG.generateAuthenticationTag lib.toLibraries usig m calls
      (.sgxUSIG usig epochs, result.mapError TagFault.error)

end AuthenticationScheme

/-! ## Authenticators -/

structure Authenticator (Priv Pub Nonce : Type) where
  id : UInt32
  ks : SimpleKeyStore Priv Pub
  authschemes : AuthenticationRole → Option (AuthenticationScheme Priv Pub Nonce)

inductive SuppliedUSIG (Priv : Type) where
  | nil
  | sgx (usig : Instance Priv)
  | other

inductive NewError where
  | loadKeystore (e : LoadError)
  | getSealedKey
  | createUSIG (e : TagError)
  | cannotUseKeySpec (ksName : Option KeySpec) (r : AuthenticationRole)
  | requiresSGXUSIG (ksName : KeySpec)
  | cannotFindScheme (keyspec : Option KeySpec)
  | createAuthenticator (e : NewError)

inductive NewFault where
  | error (e : NewError)
  | panic

def NewFault.ofLoad : LoadFault → NewFault
  | .error e => .error (.loadKeystore e)
  | .panic => .panic

inductive AuthenFault where
  | error (e : AuthenError)
  | panic

def AuthenFault.ofTag : TagFault → AuthenFault
  | .error e => .error (.invalidAuthenticationTag e)
  | .panic => .panic

/-- What is passed as the private key: a sealed key and nil are no ECDSA keys. -/
def NodePrivateKey.passed : Option (NodePrivateKey Priv) → PrivateKey Priv
  | none => .other 0
  | some (.ecdsa key) => .ecdsa key
  | some (.sealedKey _) => .other 1

section New

variable (lib : KeyLibraries Priv Pub Nonce)

def schemeFor (ks : SimpleKeyStore Priv Pub) (usig : SuppliedUSIG Priv) (r : AuthenticationRole) :
    Except NewError (Option (AuthenticationScheme Priv Pub Nonce)) :=
  let ksName := ks.nodeKeySpec r.value
  if decide (r = .usigAuthen) ≠ decide (ksName = some .sgxEcdsa) then
    .error (.cannotUseKeySpec ksName r)
  else
    match ksName with
    | some .ecdsa => .ok (some (.publicAuthen (publicScheme lib)))
    | some .sgxEcdsa =>
        match usig with
        | .nil => .ok none
        | .sgx sgxUSIG => .ok (some (newSGXUSIGAuthenticationScheme sgxUSIG))
        | .other => .error (.requiresSGXUSIG .sgxEcdsa)
    | none => .error (.cannotFindScheme (ks.keySpec r.value))

def addScheme (ks : SimpleKeyStore Priv Pub) (usig : SuppliedUSIG Priv)
    (authschemes : AuthenticationRole → Option (AuthenticationScheme Priv Pub Nonce))
    (r : AuthenticationRole) :
    Except NewError (AuthenticationRole → Option (AuthenticationScheme Priv Pub Nonce)) := do
  match ← schemeFor lib ks usig r with
  | some scheme => return Function.update authschemes r (some scheme)
  | none => return authschemes

/-- `new`, with the order in which `NodeRoles` returns the roles. -/
def Authenticator.new (order : RoleOrder) (id : UInt32) (ks : SimpleKeyStore Priv Pub)
    (usig : SuppliedUSIG Priv) : Except NewError (Authenticator Priv Pub Nonce) := do
  let authschemes ← (ks.nodeRoles order).foldlM (addScheme lib ks usig) fun _ => none
  return ⟨id, ks, authschemes⟩

def newAuthenticator (keySets nodeRoles : RoleOrder) (roles : List ℤ) (id : UInt32)
    (keystoreFileReader : Option Bytes) : Except NewFault (Authenticator Priv Pub Nonce) := do
  let ks ← (loadSimpleKeyStore lib keySets keystoreFileReader roles id).mapError NewFault.ofLoad
  (Authenticator.new lib nodeRoles id ks .nil).mapError (.error ∘ .createAuthenticator)

/-- The size of a sealed key, as the enclave is told. There is no sealed key if it is empty. -/
def sealedDataSize (sealedKey : Bytes) : Option UInt32 :=
  if sealedKey.length = 0 then none else some (UInt32.ofNat sealedKey.length)

/-- `NewWithSGXUSIG`. The enclave is created from its file, which may fail, and has some memory. -/
def newWithSGXUSIG (keySets nodeRoles : RoleOrder) (roles : List ℤ) (id : UInt32)
    (keystoreFileReader : Option Bytes) (enclave : Except TagError (Enclave Priv SgxPublicKey))
    (calls : InitCalls Priv SgxPublicKey) : Except NewFault (Authenticator Priv Pub Nonce) := do
  let ks ← (loadSimpleKeyStore lib keySets keystoreFileReader roles id).mapError NewFault.ofLoad
  match ks.ownerKeys (AuthenticationRole.value .usigAuthen) with
  | none => throw .panic
  | some ownerKey =>
      match ownerKey.privateKey with
      | none => throw (.error .getSealedKey)
      | some (.ecdsa _) => throw .panic
      | some (.sealedKey usigKey) => do
          let usig ← (enclave >>= fun s => USIG.new lib.toLibraries s (sealedDataSize usigKey)
            calls).mapError (.error ∘ .createUSIG)
          (Authenticator.new lib nodeRoles id ks (.sgx usig)).mapError
            (.error ∘ .createAuthenticator)

end New

namespace Authenticator

variable (lib : KeyLibraries Priv Pub Nonce) (a : Authenticator Priv Pub Nonce)

/-- `a.authschemes[role]`, with the role that the number stands for. -/
def authscheme (role : ℤ) : Option (AuthenticationRole × AuthenticationScheme Priv Pub Nonce) :=
  (AuthenticationRole.ofValue role).bind fun r => (a.authschemes r).map fun scheme => (r, scheme)

def setScheme (r : AuthenticationRole) (scheme : AuthenticationScheme Priv Pub Nonce) :
    Authenticator Priv Pub Nonce :=
  { a with authschemes := Function.update a.authschemes r (some scheme) }

def verifyMessageAuthenTag (role : ℤ) (id : UInt32) (msg authenTag : Bytes) :
    Authenticator Priv Pub Nonce × Except AuthenFault Unit :=
  match a.ks.nodePublicKey role id with
  | .error e => (a, .error (.error e))
  | .ok pk =>
      match a.authscheme role with
      | none => (a, .error (.error (.unknownRole role)))
      | some (r, authscheme) =>
          let (authscheme, result) := authscheme.verifyAuthenticationTag lib msg authenTag pk
          (a.setScheme r authscheme, result.mapError AuthenFault.ofTag)

/-- For a role without a scheme, a method of nil is called. -/
def generateMessageAuthenTag (role : ℤ) (msg : Bytes) (rand : Option Nonce)
    (calls : CreateCalls Nonce) : Authenticator Priv Pub Nonce × Except TagFault Bytes :=
  match a.authscheme role with
  | none => (a, .error .panic)
  | some (r, authscheme) =>
      let sk := NodePrivateKey.passed (a.ks.privateKey role)
      let (authscheme, result) := authscheme.generateAuthenticationTag lib msg sk rand calls
      (a.setScheme r authscheme, result)

@[simp] theorem ks_setScheme (r : AuthenticationRole)
    (scheme : AuthenticationScheme Priv Pub Nonce) : (a.setScheme r scheme).ks = a.ks := rfl

@[simp] theorem authschemes_setScheme (r : AuthenticationRole)
    (scheme : AuthenticationScheme Priv Pub Nonce) :
    (a.setScheme r scheme).authschemes = Function.update a.authschemes r (some scheme) := rfl

variable {lib} {a}

theorem authscheme_eq_some {role : ℤ} {r : AuthenticationRole}
    {scheme : AuthenticationScheme Priv Pub Nonce} (h : a.authscheme role = some (r, scheme)) :
    AuthenticationRole.ofValue role = some r ∧ a.authschemes r = some scheme := by
  unfold authscheme at h
  rw [Option.bind_eq_some_iff] at h
  obtain ⟨r', hr, h⟩ := h
  rw [Option.map_eq_some_iff] at h
  obtain ⟨scheme', hscheme, h⟩ := h
  cases h
  exact ⟨hr, hscheme⟩

end Authenticator

/-! ## Schemes and key sets -/

/-- The scheme that a role has if this is its key set. There may be none for USIG tags. -/
inductive Fits (lib : KeyLibraries Priv Pub Nonce) :
    Option (PublicKeySet Pub) → Option (AuthenticationScheme Priv Pub Nonce) → Prop where
  | absent : Fits lib none none
  | ecdsa (keys : UInt32 → Option Pub) :
      Fits lib (some ⟨.ecdsa, keys⟩) (some (.publicAuthen (publicScheme lib)))
  | withoutUSIG (keys : UInt32 → Option Pub) : Fits lib (some ⟨.sgxEcdsa, keys⟩) none
  | sgxUSIG (keys : UInt32 → Option Pub) (usig : Instance Priv) (epochs : Epochs) :
      Fits lib (some ⟨.sgxEcdsa, keys⟩) (some (.sgxUSIG usig epochs))

/-- An authenticator has the schemes that its key sets are for. -/
def Authenticator.Consistent (lib : KeyLibraries Priv Pub Nonce)
    (a : Authenticator Priv Pub Nonce) : Prop :=
  ∀ r, Fits lib (a.ks.nodePublicKeys r) (a.authschemes r)

section Consistent

variable {lib : KeyLibraries Priv Pub Nonce} {a : Authenticator Priv Pub Nonce}
  {ks : SimpleKeyStore Priv Pub} {usig : SuppliedUSIG Priv} {r : AuthenticationRole}

theorem fits_schemeFor {scheme : Option (AuthenticationScheme Priv Pub Nonce)}
    (h : schemeFor lib ks usig r = .ok scheme) : Fits lib (ks.nodePublicKeys r) scheme := by
  unfold schemeFor SimpleKeyStore.nodeKeySpec at h
  rw [SimpleKeyStore.keymap_value] at h
  dsimp only at h
  split_ifs at h
  cases hkeymap : ks.nodePublicKeys r with
  | none =>
      rw [hkeymap] at h
      cases h
  | some keymap =>
      obtain ⟨keyspec, keys⟩ := keymap
      rw [hkeymap] at h
      cases keyspec with
      | ecdsa =>
          cases h
          exact .ecdsa keys
      | sgxEcdsa =>
          cases usig with
          | nil =>
              cases h
              exact .withoutUSIG keys
          | sgx u =>
              cases h
              exact .sgxUSIG keys u _
          | other => cases h

def FitsSoFar (lib : KeyLibraries Priv Pub Nonce) (ks : SimpleKeyStore Priv Pub)
    (rest : List AuthenticationRole)
    (authschemes : AuthenticationRole → Option (AuthenticationScheme Priv Pub Nonce)) : Prop :=
  ∀ r, Fits lib (ks.nodePublicKeys r) (authschemes r) ∨ r ∈ rest ∧ authschemes r = none

theorem FitsSoFar.addScheme {rest : List AuthenticationRole}
    {authschemes authschemes' : AuthenticationRole → Option (AuthenticationScheme Priv Pub Nonce)}
    (h : FitsSoFar lib ks (r :: rest) authschemes)
    (hadd : addScheme lib ks usig authschemes r = .ok authschemes') :
    FitsSoFar lib ks rest authschemes' := by
  unfold Authentication.addScheme at hadd
  rw [Except.bind_eq_ok] at hadd
  obtain ⟨scheme, hscheme, hadd⟩ := hadd
  have hfits := fits_schemeFor hscheme
  intro r'
  by_cases hr : r' = r
  · subst hr
    apply Or.inl
    cases scheme with
    | some scheme =>
        cases hadd
        rwa [Function.update_self]
    | none =>
        cases hadd
        rcases h r' with h | ⟨-, hnone⟩
        · exact h
        · rwa [hnone]
  · have hsame : authschemes' r' = authschemes r' := by
      cases scheme with
      | some scheme =>
          cases hadd
          rw [Function.update_of_ne hr]
      | none =>
          cases hadd
          rfl
    rw [hsame]
    apply (h r').imp_right
    rintro ⟨hmem, hnone⟩
    exact ⟨(List.mem_cons.mp hmem).resolve_left hr, hnone⟩

theorem consistent_of_new {order : RoleOrder} {id : UInt32}
    (h : Authenticator.new lib order id ks usig = .ok a) : a.Consistent lib ∧ a.ks = ks := by
  unfold Authenticator.new at h
  rw [Except.bind_eq_ok] at h
  obtain ⟨authschemes, hfold, h⟩ := h
  cases h
  have hfits : FitsSoFar lib ks [] authschemes := by
    apply Except.foldlM_induction (FitsSoFar lib ks) _ _ hfold
    · intro r rest m m' hm hadd
      exact hm.addScheme hadd
    · intro r
      cases hkeymap : ks.nodePublicKeys r with
      | none => exact .inl .absent
      | some keymap =>
          apply Or.inr
          simp [SimpleKeyStore.nodeRoles, order.mem, hkeymap]
  refine ⟨?_, rfl⟩
  intro r
  apply (hfits r).resolve_right
  simp

/-! ## Calls -/

/-- Verifying a tag changes no more than the captured epochs. -/
theorem Fits.verify {keymap : Option (PublicKeySet Pub)}
    {scheme : AuthenticationScheme Priv Pub Nonce} (h : Fits lib keymap (some scheme))
    (m sig : Bytes) (pubKey : PublicKey Pub) :
    Fits lib keymap (some (scheme.verifyAuthenticationTag lib m sig pubKey).1) := by
  cases h with
  | ecdsa keys => exact .ecdsa keys
  | sgxUSIG keys usig epochs =>
      unfold AuthenticationScheme.verifyAuthenticationTag
      dsimp only
      split <;> exact .sgxUSIG keys usig _

theorem Fits.generate {keymap : Option (PublicKeySet Pub)}
    {scheme : AuthenticationScheme Priv Pub Nonce} (h : Fits lib keymap (some scheme)) (m : Bytes)
    (privKey : PrivateKey Priv) (rand : Option Nonce) (calls : CreateCalls Nonce) :
    Fits lib keymap (some (scheme.generateAuthenticationTag lib m privKey rand calls).1) := by
  cases h with
  | ecdsa keys => exact .ecdsa keys
  | sgxUSIG keys usig epochs => exact .sgxUSIG keys _ epochs

theorem Authenticator.Consistent.setScheme {scheme : AuthenticationScheme Priv Pub Nonce}
    (h : a.Consistent lib) (hfits : Fits lib (a.ks.nodePublicKeys r) (some scheme)) :
    (a.setScheme r scheme).Consistent lib := by
  intro r'
  rw [ks_setScheme, authschemes_setScheme]
  by_cases hr : r' = r
  · subst hr
    rwa [Function.update_self]
  · rw [Function.update_of_ne hr]
    exact h r'

theorem Authenticator.Consistent.verify (h : a.Consistent lib) (role : ℤ) (id : UInt32)
    (msg tag : Bytes) : (a.verifyMessageAuthenTag lib role id msg tag).1.Consistent lib := by
  unfold verifyMessageAuthenTag
  split
  · exact h
  · next pk _ =>
      split
      · exact h
      · next r scheme hscheme =>
          apply h.setScheme
          apply Fits.verify
          rw [← (authscheme_eq_some hscheme).2]
          exact h r

theorem Authenticator.Consistent.generate (h : a.Consistent lib) (role : ℤ) (msg : Bytes)
    (rand : Option Nonce) (calls : CreateCalls Nonce) :
    (a.generateMessageAuthenTag lib role msg rand calls).1.Consistent lib := by
  unfold generateMessageAuthenTag
  split
  · exact h
  · next r scheme hscheme =>
      apply h.setScheme
      apply Fits.generate
      rw [← (authscheme_eq_some hscheme).2]
      exact h r

theorem ks_verifyMessageAuthenTag (role : ℤ) (id : UInt32) (msg tag : Bytes) :
    (a.verifyMessageAuthenTag lib role id msg tag).1.ks = a.ks := by
  unfold Authenticator.verifyMessageAuthenTag
  split
  · rfl
  · split <;> rfl

theorem ks_generateMessageAuthenTag (role : ℤ) (msg : Bytes) (rand : Option Nonce)
    (calls : CreateCalls Nonce) :
    (a.generateMessageAuthenTag lib role msg rand calls).1.ks = a.ks := by
  unfold Authenticator.generateMessageAuthenTag
  split <;> rfl

end Consistent

/-- The authenticators that there are after any calls on one that `New` or `NewWithSGXUSIG` has
built for these roles of the node with this ID. -/
inductive Authenticator.BuiltFrom (lib : KeyLibraries Priv Pub Nonce) (reader : Option Bytes)
    (roles : List ℤ) (id : UInt32) : Authenticator Priv Pub Nonce → Prop where
  | new {keySets nodeRoles : RoleOrder} {a : Authenticator Priv Pub Nonce}
      (h : newAuthenticator lib keySets nodeRoles roles id reader = .ok a) :
      BuiltFrom lib reader roles id a
  | newWithSGXUSIG {keySets nodeRoles : RoleOrder}
      {enclave : Except TagError (Enclave Priv SgxPublicKey)}
      {calls : InitCalls Priv SgxPublicKey} {a : Authenticator Priv Pub Nonce}
      (h : newWithSGXUSIG lib keySets nodeRoles roles id reader enclave calls = .ok a) :
      BuiltFrom lib reader roles id a
  | verify {a : Authenticator Priv Pub Nonce} (h : BuiltFrom lib reader roles id a) (role : ℤ)
      (id' : UInt32) (msg tag : Bytes) :
      BuiltFrom lib reader roles id (a.verifyMessageAuthenTag lib role id' msg tag).1
  | generate {a : Authenticator Priv Pub Nonce} (h : BuiltFrom lib reader roles id a) (role : ℤ)
      (msg : Bytes) (rand : Option Nonce) (calls : CreateCalls Nonce) :
      BuiltFrom lib reader roles id (a.generateMessageAuthenTag lib role msg rand calls).1

def Authenticator.Reachable (lib : KeyLibraries Priv Pub Nonce) (a : Authenticator Priv Pub Nonce) :
    Prop := ∃ reader roles id, a.BuiltFrom lib reader roles id

section Reachable

variable {lib : KeyLibraries Priv Pub Nonce} {a : Authenticator Priv Pub Nonce}
  {keySets nodeRoles : RoleOrder} {roles : List ℤ} {id : UInt32} {reader : Option Bytes}

theorem newAuthenticator_eq_ok
    (h : newAuthenticator lib keySets nodeRoles roles id reader = .ok a) :
    ∃ ks usig, loadSimpleKeyStore lib keySets reader roles id = .ok ks ∧
      Authenticator.new lib nodeRoles id ks usig = .ok a := by
  unfold newAuthenticator at h
  rw [Except.bind_eq_ok] at h
  obtain ⟨ks, hks, h⟩ := h
  rw [Except.mapError_eq_ok] at hks h
  exact ⟨ks, .nil, hks, h⟩

theorem newWithSGXUSIG_eq_ok {enclave : Except TagError (Enclave Priv SgxPublicKey)}
    {calls : InitCalls Priv SgxPublicKey}
    (h : newWithSGXUSIG lib keySets nodeRoles roles id reader enclave calls = .ok a) :
    ∃ ks usig, loadSimpleKeyStore lib keySets reader roles id = .ok ks ∧
      Authenticator.new lib nodeRoles id ks usig = .ok a := by
  unfold newWithSGXUSIG at h
  rw [Except.bind_eq_ok] at h
  obtain ⟨ks, hks, h⟩ := h
  rw [Except.mapError_eq_ok] at hks
  split at h
  · cases h
  · split at h
    · cases h
    · cases h
    · rw [Except.bind_eq_ok] at h
      obtain ⟨usig, -, h⟩ := h
      rw [Except.mapError_eq_ok] at h
      exact ⟨ks, .sgx usig, hks, h⟩

/-- Whatever calls are made, the schemes are those that the key sets are for, and the key store is
as it was loaded. -/
theorem Authenticator.BuiltFrom.loaded (h : a.BuiltFrom lib reader roles id) :
    a.Consistent lib ∧ ∃ keySets nodeRoles usig a₀,
      loadSimpleKeyStore lib keySets reader roles id = .ok a.ks ∧
        Authenticator.new lib nodeRoles id a.ks usig = .ok a₀ := by
  induction h with
  | new h =>
      obtain ⟨ks, usig, hks, hnew⟩ := newAuthenticator_eq_ok h
      obtain ⟨hconsistent, rfl⟩ := consistent_of_new hnew
      exact ⟨hconsistent, _, _, usig, _, hks, hnew⟩
  | newWithSGXUSIG h =>
      obtain ⟨ks, usig, hks, hnew⟩ := newWithSGXUSIG_eq_ok h
      obtain ⟨hconsistent, rfl⟩ := consistent_of_new hnew
      exact ⟨hconsistent, _, _, usig, _, hks, hnew⟩
  | verify _ role id' msg tag ih =>
      rw [ks_verifyMessageAuthenTag]
      exact ⟨ih.1.verify role id' msg tag, ih.2⟩
  | generate _ role msg rand calls ih =>
      rw [ks_generateMessageAuthenTag]
      exact ⟨ih.1.generate role msg rand calls, ih.2⟩

/-- All keys are listed in the file that the key store has been loaded from. -/
theorem Authenticator.BuiltFrom.listedIn (h : a.BuiltFrom lib reader roles id) :
    ∃ keys, parseSimpleKeyStoreFile lib reader = .ok keys ∧ a.ks.ListedIn lib keys := by
  obtain ⟨-, _, _, _, _, hks, -⟩ := h.loaded
  exact listedIn_of_load hks

end Reachable

/-! ## Untrusted tags -/

/-- What a tag has to be under a public key. For a USIG, the tag is a UI, whose certificate has an
epoch and a signature. -/
def Verifies (lib : KeyLibraries Priv Pub Nonce) (keyspec : KeySpec) (key : Pub)
    (m tag : Bytes) : Prop :=
  match keyspec with
  | .ecdsa => ∃ sig rest, lib.asn1.unmarshal tag = some (sig, rest) ∧
      lib.ecdsa.verify key (m ++ (lib.sha256 []).bytes) sig = true
  | .sgxEcdsa => ∃ ui epoch signature, UI.unmarshalBinary tag = .ok ui ∧
      readCert ui.cert = .ok (epoch, signature) ∧
      Certified lib.toLibraries (.ecdsa key) m epoch ui.counter signature

/-- The call returns nil or an error, and nil only for a tag that verifies under a key in the key
store. -/
structure Authenticator.Total (lib : KeyLibraries Priv Pub Nonce) (a : Authenticator Priv Pub Nonce)
    (role : ℤ) (id : UInt32) (msg tag : Bytes) : Prop where
  returns : (a.verifyMessageAuthenTag lib role id msg tag).2 ≠ .error .panic
  verifies : (a.verifyMessageAuthenTag lib role id msg tag).2 = .ok () →
    ∃ keymap key, a.ks.keymap role = some keymap ∧ keymap.keys id = some key ∧
      Verifies lib keymap.keyspec key msg tag

section Untrusted

variable {lib : KeyLibraries Priv Pub Nonce} {a : Authenticator Priv Pub Nonce}
  {keymap : PublicKeySet Pub} {scheme : AuthenticationScheme Priv Pub Nonce} {m tag : Bytes}
  {role : ℤ} {id : UInt32}

/-- Precisely a signed tag that is not ASN.1 makes a scheme panic. -/
theorem Fits.panics_iff (h : Fits lib (some keymap) (some scheme)) (m tag : Bytes)
    (pubKey : PublicKey Pub) :
    (scheme.verifyAuthenticationTag lib m tag pubKey).2 = .error .panic ↔
      keymap.keyspec = .ecdsa ∧ lib.asn1.unmarshal tag = none := by
  cases h with
  | ecdsa keys =>
      change (publicScheme lib).verifyAuthenticationTag m tag pubKey = .error .panic ↔ _
      unfold publicScheme
      rcases ecdsaScheme_cases (fun b => (lib.sha256 b).bytes) lib.ecdsa lib.asn1 m tag pubKey with
        ⟨hnone, hpanic⟩ | ⟨sig, rest, hsome, ⟨key, -, -, hok⟩ | herror⟩
      · exact iff_of_true hpanic ⟨rfl, hnone⟩
      · rw [hok, hsome]
        simp
      · rw [herror, hsome]
        simp
  | sgxUSIG keys usig epochs =>
      unfold AuthenticationScheme.verifyAuthenticationTag
      dsimp only
      split <;> simp

/-- The key that a tag is accepted for is in the key set. -/
theorem Fits.verifies (hnil : lib.x509.marshalPKIXPublicKey nilKey = none)
    (h : Fits lib (some keymap) (some scheme)) (id : UInt32)
    (hok : (scheme.verifyAuthenticationTag lib m tag (keymap.lookup id)).2 = .ok ()) :
    ∃ key, keymap.keys id = some key ∧ Verifies lib keymap.keyspec key m tag := by
  cases h with
  | ecdsa keys =>
      change (publicScheme lib).verifyAuthenticationTag m tag _ = .ok () at hok
      unfold publicScheme at hok
      rcases ecdsaScheme_cases (fun b => (lib.sha256 b).bytes) lib.ecdsa lib.asn1 m tag
        (PublicKeySet.lookup ⟨.ecdsa, keys⟩ id) with
        ⟨-, hpanic⟩ | ⟨sig, rest, hsig, ⟨key, hkey, hverify, -⟩ | herror⟩
      · cases hpanic.symm.trans hok
      · rcases PublicKeySet.lookup_cases ⟨.ecdsa, keys⟩ id with hlookup | ⟨key', hkey', hlookup⟩
        · cases hlookup.symm.trans hkey
        · cases hlookup.symm.trans hkey
          exact ⟨key, hkey', sig, rest, hsig, hverify⟩
      · cases herror.symm.trans hok
  | sgxUSIG keys usig epochs =>
      unfold AuthenticationScheme.verifyAuthenticationTag at hok
      dsimp only at hok
      rcases verifyAuthenticationTag_cases lib.toLibraries m tag
        (PublicKeySet.lookup ⟨.sgxEcdsa, keys⟩ id) epochs with
        ⟨e, herror⟩ | ⟨epochs', ui, epoch, signature, haccepts, -⟩
      · rw [herror] at hok
        cases hok
      · have hcertified := haccepts.certified
        rcases PublicKeySet.lookup_cases ⟨.sgxEcdsa, keys⟩ id with hlookup | ⟨key, hkey, hlookup⟩
        · -- A nil key cannot be serialized.
          rw [hlookup] at hcertified
          obtain ⟨b, -, hmarshal, -⟩ := hcertified
          cases hnil.symm.trans hmarshal
        · rw [hlookup] at hcertified
          exact ⟨key, hkey, ui, epoch, signature, haccepts.unmarshal, haccepts.cert, hcertified⟩

theorem Authenticator.verifyMessageAuthenTag_cases (lib : KeyLibraries Priv Pub Nonce)
    (a : Authenticator Priv Pub Nonce) (role : ℤ) (id : UInt32) (msg tag : Bytes) :
    (a.ks.keymap role = none ∧ (a.verifyMessageAuthenTag lib role id msg tag).2 =
      .error (.error (.keySetNotFound role id))) ∨
    ∃ r keymap, AuthenticationRole.ofValue role = some r ∧ a.ks.nodePublicKeys r = some keymap ∧
      (a.authschemes r = none ∧ (a.verifyMessageAuthenTag lib role id msg tag).2 =
        .error (.error (.unknownRole role)) ∨
      ∃ scheme, a.authschemes r = some scheme ∧
        (a.verifyMessageAuthenTag lib role id msg tag).2 =
          (scheme.verifyAuthenticationTag lib msg tag (keymap.lookup id)).2.mapError
            AuthenFault.ofTag) := by
  unfold verifyMessageAuthenTag SimpleKeyStore.nodePublicKey authscheme SimpleKeyStore.keymap
  cases hr : AuthenticationRole.ofValue role with
  | none => exact .inl ⟨rfl, rfl⟩
  | some r =>
      rw [Option.bind_some, Option.bind_some]
      cases hkeymap : a.ks.nodePublicKeys r with
      | none => exact .inl ⟨rfl, rfl⟩
      | some keymap =>
          refine .inr ⟨r, keymap, rfl, hkeymap, ?_⟩
          cases hscheme : a.authschemes r with
          | none => exact .inl ⟨rfl, rfl⟩
          | some scheme => exact .inr ⟨scheme, rfl, rfl⟩

theorem keymap_eq_some {ks : SimpleKeyStore Priv Pub} {r : AuthenticationRole}
    (hr : AuthenticationRole.ofValue role = some r) (hkeymap : ks.nodePublicKeys r = some keymap) :
    ks.keymap role = some keymap := by
  rw [SimpleKeyStore.keymap, hr, Option.bind_some, hkeymap]

theorem AuthenFault.mapError_eq_panic {α : Type} {x : Except TagFault α} :
    x.mapError AuthenFault.ofTag = .error .panic ↔ x = .error .panic := by
  cases x with
  | ok a => simp [Except.mapError]
  | error e => cases e <;> simp [Except.mapError, AuthenFault.ofTag]

theorem Authenticator.Consistent.fits (h : a.Consistent lib) {r : AuthenticationRole}
    {scheme : Option (AuthenticationScheme Priv Pub Nonce)}
    (hkeymap : a.ks.nodePublicKeys r = some keymap) (hscheme : a.authschemes r = scheme) :
    Fits lib (some keymap) scheme := by
  rw [← hkeymap, ← hscheme]
  exact h r

theorem Authenticator.Consistent.panics_iff (h : a.Consistent lib) (role : ℤ) (id : UInt32)
    (msg tag : Bytes) : (a.verifyMessageAuthenTag lib role id msg tag).2 = .error .panic ↔
      a.ks.nodeKeySpec role = some .ecdsa ∧ lib.asn1.unmarshal tag = none := by
  unfold SimpleKeyStore.nodeKeySpec
  rcases a.verifyMessageAuthenTag_cases lib role id msg tag with
    ⟨hnone, hresult⟩ | ⟨r, keymap, hr, hkeymap, ⟨hscheme, hresult⟩ | ⟨scheme, hscheme, hresult⟩⟩
  · rw [hresult, hnone]
    simp
  · -- Only a key set for USIG tags has no scheme.
    cases h.fits hkeymap hscheme
    rw [hresult, keymap_eq_some hr hkeymap]
    simp
  · rw [hresult, keymap_eq_some hr hkeymap, AuthenFault.mapError_eq_panic,
      (h.fits hkeymap hscheme).panics_iff]
    simp

theorem Authenticator.Consistent.verifies (hnil : lib.x509.marshalPKIXPublicKey nilKey = none)
    (h : a.Consistent lib) {msg : Bytes}
    (hok : (a.verifyMessageAuthenTag lib role id msg tag).2 = .ok ()) :
    ∃ keymap key, a.ks.keymap role = some keymap ∧ keymap.keys id = some key ∧
      Verifies lib keymap.keyspec key msg tag := by
  rcases a.verifyMessageAuthenTag_cases lib role id msg tag with
    ⟨-, hresult⟩ | ⟨r, keymap, hr, hkeymap, ⟨-, hresult⟩ | ⟨scheme, hscheme, hresult⟩⟩
  · cases hresult.symm.trans hok
  · cases hresult.symm.trans hok
  · rw [hresult, Except.mapError_eq_ok] at hok
    obtain ⟨key, hkey, hverifies⟩ := (h.fits hkeymap hscheme).verifies hnil id hok
    exact ⟨keymap, key, keymap_eq_some hr hkeymap, hkey, hverifies⟩

/-- Verification is total on precisely the tags that are ASN.1 if they are to be signatures. -/
theorem Authenticator.Reachable.total_iff (hnil : lib.x509.marshalPKIXPublicKey nilKey = none)
    (h : a.Reachable lib) (role : ℤ) (id : UInt32) (msg tag : Bytes) :
    a.Total lib role id msg tag ↔
      (a.ks.nodeKeySpec role = some .ecdsa → ∃ sig rest, lib.asn1.unmarshal tag = some (sig, rest))
      := by
  obtain ⟨reader, roles, id₀, h⟩ := h
  have hconsistent := h.loaded.1
  constructor
  · intro htotal hspec
    cases hsig : lib.asn1.unmarshal tag with
    | none =>
        have hpanic := (hconsistent.panics_iff role id msg tag).mpr ⟨hspec, hsig⟩
        exact absurd hpanic htotal.returns
    | some parts => exact ⟨parts.1, parts.2, rfl⟩
  · intro hasn1
    constructor
    · intro hpanic
      obtain ⟨hspec, hnone⟩ := (hconsistent.panics_iff role id msg tag).mp hpanic
      obtain ⟨sig, rest, hsome⟩ := hasn1 hspec
      cases hnone.symm.trans hsome
    · exact hconsistent.verifies hnil

end Untrusted

end Authentication

namespace Concrete

open Authentication USIG USIGEnclave

def anyOrder : RoleOrder := ⟨_, List.Perm.refl _⟩

def sequenceAsn1 : Asn1 (ℤ × ℤ) where
  marshal sig := 48 :: unaryAsn1.marshal sig
  unmarshal b :=
    match b with
    | [] => none
    | x :: rest => if x = 48 then unaryAsn1.unmarshal rest else none
  unmarshal_marshal sig := unaryAsn1.unmarshal_marshal sig

def singleNodeFile : SimpleKeyStoreFile :=
  ⟨some ⟨"ECDSA", [some ⟨0, "", ""⟩]⟩, some ⟨"SGX_ECDSA", [some ⟨0, "", ""⟩]⟩,
    some ⟨"ECDSA", [some ⟨0, "", ""⟩]⟩⟩

def singleNodeLibraries : KeyLibraries Unit (ℕ × ℕ) Unit where
  toLibraries := { markingLibraries with asn1 := sequenceAsn1 }
  yaml _ := some singleNodeFile
  base64 _ := some []
  parseECPrivateKey _ := some ()

/-- A replica accepts the tag of a client. -/
theorem total_iff_singleNode : ∃ a,
    newAuthenticator singleNodeLibraries anyOrder anyOrder [1] 0 (some []) = .ok a ∧
      (a.verifyMessageAuthenTag singleNodeLibraries 3 0 [] (sequenceAsn1.marshal (0, 0))).2 =
        .ok () ∧
      a.Total singleNodeLibraries 3 0 [] (sequenceAsn1.marshal (0, 0)) := by
  refine ⟨_, rfl, ?_, ?_⟩
  · change ((publicScheme singleNodeLibraries).verifyAuthenticationTag []
      (singleNodeLibraries.asn1.marshal (0, 0)) (.ecdsa (1, 2))).mapError AuthenFault.ofTag = .ok ()
    rw [publicScheme, verifyAuthenticationTag_marshal]
    rfl
  · have hbuilt : newAuthenticator singleNodeLibraries anyOrder anyOrder [1] 0 (some []) = .ok _ :=
      rfl
    apply (Authenticator.Reachable.total_iff rfl ⟨_, _, _, .new hbuilt⟩ 3 0 [] _).mpr
    intro _
    exact ⟨(0, 0), [], sequenceAsn1.unmarshal_marshal (0, 0)⟩

/-- An empty tag takes a replica down, whoever it is said to be from. -/
theorem empty_tag_panics : ∃ a,
    newAuthenticator singleNodeLibraries anyOrder anyOrder [1] 0 (some []) = .ok a ∧
      (∀ id, (a.verifyMessageAuthenTag singleNodeLibraries 1 id [] []).2 = .error .panic) ∧
      ∀ id, (a.verifyMessageAuthenTag singleNodeLibraries 3 id [] []).2 = .error .panic :=
  ⟨_, rfl, fun _ => rfl, fun _ => rfl⟩

end Concrete

end MinBFT
