import MinBFT.USIGTags

/-!
# Key stores

`sample/authentication/keymanager.go`: a node reads the public keys of all nodes from a file, and
its own private keys with them. The file has a key set for each role, though any of them may be
missing. The map of key sets is iterated over in any order.

Whatever a loaded key store holds is listed in the file.
-/

namespace MinBFT

namespace AuthenticationRole

/-- The number that a role is. Any other number may be passed in place of a role. -/
def value : AuthenticationRole → ℤ
  | .replicaAuthen => 1
  | .usigAuthen => 2
  | .clientAuthen => 3

def ofValue (n : ℤ) : Option AuthenticationRole :=
  if n = 1 then some .replicaAuthen
  else if n = 2 then some .usigAuthen
  else if n = 3 then some .clientAuthen
  else none

@[simp] theorem ofValue_value (r : AuthenticationRole) : ofValue r.value = some r := by
  cases r <;> rfl

end AuthenticationRole

namespace Authentication

/-- An order in which a map with the roles as its keys is iterated over. -/
structure RoleOrder where
  roles : List AuthenticationRole
  perm : roles.Perm [.replicaAuthen, .usigAuthen, .clientAuthen]

theorem RoleOrder.mem (order : RoleOrder) (r : AuthenticationRole) : r ∈ order.roles := by
  rw [order.perm.mem_iff]
  cases r <;> decide

/-! ## Key store files -/

structure KeyPair where
  id : UInt32
  privateKey : String
  publicKey : String

/-- The key pairs are pointers, which are nil for empty entries. -/
structure KeySet where
  keySpec : String
  keys : List (Option KeyPair)

structure SimpleKeyStoreFile where
  replica : Option KeySet
  usig : Option KeySet
  client : Option KeySet

def SimpleKeyStoreFile.keySets (keys : SimpleKeyStoreFile) : AuthenticationRole → Option KeySet
  | .replicaAuthen => keys.replica
  | .usigAuthen => keys.usig
  | .clientAuthen => keys.client

structure KeyLibraries (Priv Pub Nonce : Type) extends USIG.Libraries Priv Pub Nonce where
  yaml : Bytes → Option SimpleKeyStoreFile
  base64 : String → Option Bytes
  parseECPrivateKey : Bytes → Option Priv

inductive LoadError where
  | read
  | yaml
  | unknownKeySpec (keySpecStr : String)
  | base64
  | base64PrivateKey
  | parsePrivateKey
  | base64PublicKey
  | parsePublicKey
  | expectECDSA
  | missingKey (role : ℤ) (id : UInt32)

inductive LoadFault where
  | error (e : LoadError)
  /-- A nil pointer is dereferenced. -/
  | panic

/-! ## Key specs -/

inductive KeySpec where
  | sgxEcdsa
  | ecdsa
deriving DecidableEq

def KeySpec.getSpecName : KeySpec → String
  | .sgxEcdsa => "SGX_ECDSA"
  | .ecdsa => "ECDSA"

def getKeySpec (keySpecStr : String) : Except LoadError KeySpec :=
  if keySpecStr = KeySpec.getSpecName .sgxEcdsa then .ok .sgxEcdsa
  else if keySpecStr = KeySpec.getSpecName .ecdsa then .ok .ecdsa
  else .error (.unknownKeySpec keySpecStr)

inductive NodePrivateKey (Priv : Type) where
  | ecdsa (key : Priv)
  | sealedKey (data : Bytes)

variable {Priv Pub Nonce : Type}

section Parsing

variable (lib : KeyLibraries Priv Pub Nonce)

def KeySpec.parsePrivateKey (keyspec : KeySpec) (privKeyStr : String) :
    Except LoadError (NodePrivateKey Priv) :=
  match keyspec with
  | .sgxEcdsa =>
      match lib.base64 privKeyStr with
      | none => .error .base64
      | some sealedKey => .ok (.sealedKey sealedKey)
  | .ecdsa =>
      match lib.base64 privKeyStr with
      | none => .error .base64PrivateKey
      | some der =>
          match lib.parseECPrivateKey der with
          | none => .error .parsePrivateKey
          | some privKey => .ok (.ecdsa privKey)

def parsePublicKey (pubKeyStr : String) : Except LoadError Pub :=
  match lib.base64 pubKeyStr with
  | none => .error .base64PublicKey
  | some der =>
      match lib.x509.parsePKIXPublicKey der with
      | none => .error .parsePublicKey
      | some (.other _) => .error .expectECDSA
      | some (.ecdsa pubKey) => .ok pubKey

def parseSimpleKeyStoreFile (reader : Option Bytes) : Except LoadError SimpleKeyStoreFile :=
  match reader with
  | none => .error .read
  | some fileBytes =>
      match lib.yaml fileBytes with
      | none => .error .yaml
      | some keyStoreFile => .ok keyStoreFile

end Parsing

/-! ## Key stores -/

/-- The fields are nil as long as the key has not been read. -/
structure OwnerKey (Priv Pub : Type) where
  keyspec : Option KeySpec
  privateKey : Option (NodePrivateKey Priv)
  publicKey : Option Pub

structure PublicKeySet (Pub : Type) where
  keyspec : KeySpec
  keys : UInt32 → Option Pub

/-- Own keys are kept for the roles that are asked for, whatever number they are, and key sets for
those in the file. -/
structure SimpleKeyStore (Priv Pub : Type) where
  id : UInt32
  ownerKeys : ℤ → Option (OwnerKey Priv Pub)
  nodePublicKeys : AuthenticationRole → Option (PublicKeySet Pub)

def nilKey : PublicKey Pub := .other 0

def PublicKeySet.lookup (keymap : PublicKeySet Pub) (id : UInt32) : PublicKey Pub :=
  match keymap.keys id with
  | some key => .ecdsa key
  | none => nilKey

theorem PublicKeySet.lookup_cases (keymap : PublicKeySet Pub) (id : UInt32) :
    keymap.lookup id = nilKey ∨
      ∃ key, keymap.keys id = some key ∧ keymap.lookup id = .ecdsa key := by
  unfold lookup
  split
  · next key hkey => exact .inr ⟨key, hkey, rfl⟩
  · exact .inl rfl

inductive AuthenError where
  | keySetNotFound (role : ℤ) (id : UInt32)
  | unknownRole (role : ℤ)
  | invalidAuthenticationTag (e : TagError)

namespace SimpleKeyStore

variable (ks : SimpleKeyStore Priv Pub)

def keySpec (role : ℤ) : Option KeySpec := (ks.ownerKeys role).bind OwnerKey.keyspec

def privateKey (role : ℤ) : Option (NodePrivateKey Priv) :=
  (ks.ownerKeys role).bind OwnerKey.privateKey

def keymap (role : ℤ) : Option (PublicKeySet Pub) :=
  (AuthenticationRole.ofValue role).bind ks.nodePublicKeys

def nodePublicKey (role : ℤ) (id : UInt32) : Except AuthenError (PublicKey Pub) :=
  match ks.keymap role with
  | some keymap => .ok (keymap.lookup id)
  | none => .error (.keySetNotFound role id)

def nodeRoles (order : RoleOrder) : List AuthenticationRole :=
  order.roles.filter fun r => (ks.nodePublicKeys r).isSome

def nodeKeySpec (role : ℤ) : Option KeySpec := (ks.keymap role).map PublicKeySet.keyspec

@[simp] theorem keymap_value (r : AuthenticationRole) :
    ks.keymap r.value = ks.nodePublicKeys r := by
  simp [keymap]

/-! ## Loading -/

def setOwnerKey (role : ℤ) (key : OwnerKey Priv Pub) : SimpleKeyStore Priv Pub :=
  { ks with ownerKeys := Function.update ks.ownerKeys role (some key) }

def setKeymap (role : AuthenticationRole) (keymap : PublicKeySet Pub) : SimpleKeyStore Priv Pub :=
  { ks with nodePublicKeys := Function.update ks.nodePublicKeys role (some keymap) }

@[simp] theorem nodePublicKeys_setOwnerKey (role : ℤ) (key : OwnerKey Priv Pub) :
    (ks.setOwnerKey role key).nodePublicKeys = ks.nodePublicKeys := rfl

@[simp] theorem nodePublicKeys_setKeymap (role : AuthenticationRole) (keymap : PublicKeySet Pub) :
    (ks.setKeymap role keymap).nodePublicKeys =
      Function.update ks.nodePublicKeys role (some keymap) := rfl

variable (lib : KeyLibraries Priv Pub Nonce)

/-- The part of `parseKeyPair` that is for the node's own key. -/
def parseOwnKey (role : AuthenticationRole) (keyspec : KeySpec) (keypair : KeyPair) (pubKey : Pub) :
    Except LoadFault (SimpleKeyStore Priv Pub) := do
  if (ks.ownerKeys role.value).isSome ∧ keypair.id = ks.id then
    let privKey ← (keyspec.parsePrivateKey lib keypair.privateKey).mapError LoadFault.error
    return ks.setOwnerKey role.value ⟨some keyspec, some privKey, some pubKey⟩
  else return ks

def parseKeyPair (role : AuthenticationRole) (keyspec : KeySpec) (keypair : Option KeyPair) :
    Except LoadFault (SimpleKeyStore Priv Pub) :=
  match ks.nodePublicKeys role, keypair with
  | some keymap, some keypair => do
      let pubKey ← (parsePublicKey lib keypair.publicKey).mapError LoadFault.error
      let keymap := { keymap with keys := Function.update keymap.keys keypair.id (some pubKey) }
      (ks.setKeymap role keymap).parseOwnKey lib role keyspec keypair pubKey
  | _, _ => .error .panic

/-- What `LoadSimpleKeyStore` does for one of the roles. -/
def loadKeySet (keys : SimpleKeyStoreFile) (role : AuthenticationRole) :
    Except LoadFault (SimpleKeyStore Priv Pub) :=
  match keys.keySets role with
  | none => .ok ks
  | some keyset => do
      let keyspec ← (getKeySpec keyset.keySpec).mapError LoadFault.error
      keyset.keys.foldlM (fun ks keypair => ks.parseKeyPair lib role keyspec keypair)
        (ks.setKeymap role ⟨keyspec, fun _ => none⟩)

end SimpleKeyStore

def emptyKeyStore (roles : List ℤ) (id : UInt32) : SimpleKeyStore Priv Pub :=
  ⟨id, fun r => if r ∈ roles then some ⟨none, none, none⟩ else none, fun _ => none⟩

def loadSimpleKeyStore (lib : KeyLibraries Priv Pub Nonce) (order : RoleOrder)
    (keystoreFileReader : Option Bytes) (roles : List ℤ) (id : UInt32) :
    Except LoadFault (SimpleKeyStore Priv Pub) := do
  let keys ← (parseSimpleKeyStoreFile lib keystoreFileReader).mapError LoadFault.error
  let ks ← order.roles.foldlM (fun ks role => ks.loadKeySet lib keys role) (emptyKeyStore roles id)
  match roles.find? fun r => (ks.privateKey r).isNone with
  | some r => throw (.error (.missingKey r id))
  | none => return ks

/-! ## What is loaded -/

/-- The key set is that of the file, as far as it has been read. -/
structure Lists (lib : KeyLibraries Priv Pub Nonce) (keyset : KeySet) (keymap : PublicKeySet Pub) :
    Prop where
  keyspec : getKeySpec keyset.keySpec = .ok keymap.keyspec
  keys : ∀ id key, keymap.keys id = some key → ∃ keypair, some keypair ∈ keyset.keys ∧
    keypair.id = id ∧ parsePublicKey lib keypair.publicKey = .ok key

def SimpleKeyStore.ListedIn (lib : KeyLibraries Priv Pub Nonce) (keys : SimpleKeyStoreFile)
    (ks : SimpleKeyStore Priv Pub) : Prop :=
  ∀ r keymap, ks.nodePublicKeys r = some keymap →
    ∃ keyset, keys.keySets r = some keyset ∧ Lists lib keyset keymap

section Loaded

variable {lib : KeyLibraries Priv Pub Nonce} {keys : SimpleKeyStoreFile}
  {ks ks' : SimpleKeyStore Priv Pub} {role : AuthenticationRole} {keyspec : KeySpec}

theorem nodePublicKeys_parseOwnKey {keypair : KeyPair} {pubKey : Pub}
    (h : ks.parseOwnKey lib role keyspec keypair pubKey = .ok ks') :
    ks'.nodePublicKeys = ks.nodePublicKeys := by
  unfold SimpleKeyStore.parseOwnKey at h
  split_ifs at h
  · rw [Except.bind_eq_ok] at h
    obtain ⟨privKey, -, h⟩ := h
    cases h
    simp
  · cases h
    rfl

theorem parseKeyPair_eq_ok {entry : Option KeyPair}
    (h : ks.parseKeyPair lib role keyspec entry = .ok ks') :
    ∃ keymap keypair pubKey, ks.nodePublicKeys role = some keymap ∧ entry = some keypair ∧
      parsePublicKey lib keypair.publicKey = .ok pubKey ∧
      ks'.nodePublicKeys = (ks.setKeymap role
        { keymap with keys := Function.update keymap.keys keypair.id (some pubKey) }).nodePublicKeys
      := by
  unfold SimpleKeyStore.parseKeyPair at h
  split at h
  · next keymap keypair hkeymap =>
      rw [Except.bind_eq_ok] at h
      obtain ⟨pubKey, hpub, h⟩ := h
      rw [Except.mapError_eq_ok] at hpub
      exact ⟨keymap, keypair, pubKey, hkeymap, rfl, hpub, nodePublicKeys_parseOwnKey h⟩
  · cases h

theorem Lists.update {keyset : KeySet} {keymap : PublicKeySet Pub} {keypair : KeyPair}
    {pubKey : Pub} (h : Lists lib keyset keymap) (hmem : some keypair ∈ keyset.keys)
    (hpub : parsePublicKey lib keypair.publicKey = .ok pubKey) :
    Lists lib keyset
      { keymap with keys := Function.update keymap.keys keypair.id (some pubKey) } := by
  constructor
  · exact h.keyspec
  · intro id key hkey
    dsimp only at hkey
    by_cases hid : id = keypair.id
    · subst hid
      rw [Function.update_self] at hkey
      cases hkey
      exact ⟨keypair, hmem, rfl, hpub⟩
    · rw [Function.update_of_ne hid] at hkey
      exact h.keys id key hkey

theorem SimpleKeyStore.ListedIn.update {keyset : KeySet} {keymap : PublicKeySet Pub}
    (h : ks.ListedIn lib keys) (hset : keys.keySets role = some keyset)
    (hlists : Lists lib keyset keymap)
    (hset' : ks'.nodePublicKeys = (ks.setKeymap role keymap).nodePublicKeys) :
    ks'.ListedIn lib keys := by
  intro r keymap' hr
  rw [hset', SimpleKeyStore.nodePublicKeys_setKeymap] at hr
  by_cases hrole : r = role
  · subst hrole
    rw [Function.update_self] at hr
    cases hr
    exact ⟨keyset, hset, hlists⟩
  · rw [Function.update_of_ne hrole] at hr
    exact h r keymap' hr

theorem SimpleKeyStore.ListedIn.parseKeyPair {keyset : KeySet} {entry : Option KeyPair}
    (h : ks.ListedIn lib keys) (hset : keys.keySets role = some keyset) (hmem : entry ∈ keyset.keys)
    (hparse : ks.parseKeyPair lib role keyspec entry = .ok ks') : ks'.ListedIn lib keys := by
  obtain ⟨keymap, keypair, pubKey, hkeymap, rfl, hpub, hupdate⟩ := parseKeyPair_eq_ok hparse
  obtain ⟨keyset', hset', hlists⟩ := h role keymap hkeymap
  cases hset.symm.trans hset'
  exact h.update hset (hlists.update hmem hpub) hupdate

theorem SimpleKeyStore.ListedIn.loadKeySet (h : ks.ListedIn lib keys)
    (hload : ks.loadKeySet lib keys role = .ok ks') : ks'.ListedIn lib keys := by
  unfold SimpleKeyStore.loadKeySet at hload
  split at hload
  · cases hload
    exact h
  · next keyset hset =>
      rw [Except.bind_eq_ok] at hload
      obtain ⟨keyspec, hspec, hload⟩ := hload
      rw [Except.mapError_eq_ok] at hspec
      -- The entries that are left to be read are among those of the key set.
      have hkeep := Except.foldlM_induction
        (fun l ks => l ⊆ keyset.keys ∧ SimpleKeyStore.ListedIn lib keys ks) ?_ ?_ hload
      · exact hkeep.2
      · rintro entry l ks₁ ks₂ ⟨hsub, hlisted⟩ hparse
        rw [List.cons_subset] at hsub
        exact ⟨hsub.2, hlisted.parseKeyPair hset hsub.1 hparse⟩
      · refine ⟨List.Subset.refl _, h.update hset ⟨hspec, ?_⟩ rfl⟩
        intro id key hkey
        cases hkey

/-- A loaded key store holds nothing but what is in the file. -/
theorem listedIn_of_load {order : RoleOrder} {reader : Option Bytes} {roles : List ℤ} {id : UInt32}
    (h : loadSimpleKeyStore lib order reader roles id = .ok ks) :
    ∃ keys, parseSimpleKeyStoreFile lib reader = .ok keys ∧ ks.ListedIn lib keys := by
  unfold loadSimpleKeyStore at h
  rw [Except.bind_eq_ok] at h
  obtain ⟨keys, hfile, h⟩ := h
  rw [Except.mapError_eq_ok] at hfile
  rw [Except.bind_eq_ok] at h
  obtain ⟨ks₁, hfold, h⟩ := h
  have hlisted : ks₁.ListedIn lib keys := by
    apply Except.foldlM_induction (fun _ ks => SimpleKeyStore.ListedIn lib keys ks) _ _ hfold
    · intro role _ ks₂ ks₃ hks hload
      exact hks.loadKeySet hload
    · intro r keymap hr
      cases hr
  split at h
  · cases h
  · cases h
    exact ⟨keys, hfile, hlisted⟩

end Loaded

end Authentication

end MinBFT
