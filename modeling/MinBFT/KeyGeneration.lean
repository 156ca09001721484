import MinBFT.KeyStore

/-!
# Generated keys

`GenerateTestnetKeys` of `sample/authentication/keymanager.go` writes the key store file of a test
network. Whatever it writes can be loaded by the nodes the keys have been generated for, in the
roles they have, and by no others. Each of them gets its own private keys and the public keys of
all.
-/

namespace MinBFT

namespace Authentication

open USIG (Instance SgxPublicKey)

/-! ## Generating keys -/

inductive Curve where
  | p224
  | p256
  | p384
  | p521
deriving DecidableEq

/-- Curve P-256 is the one used by SGX. -/
def curve (securityParam : ℤ) : Curve :=
  if securityParam = 224 then .p224
  else if securityParam = 256 then .p256
  else if securityParam = 384 then .p384
  else if securityParam = 521 then .p521
  else .p256

structure KeyGenerators (Priv Pub Nonce : Type) extends KeyLibraries Priv Pub Nonce where
  yamlEncode : SimpleKeyStoreFile → Option Bytes
  base64Encode : Bytes → String
  marshalECPrivateKey : Priv → Option Bytes

/-- What happens when a key pair is generated: the key that `ecdsa.GenerateKey` returns, if any, the
instance that `sgxusig.New` makes of an enclave file, and the bytes from `SealedKey` unless it
panics. -/
structure Draw (Priv : Type) where
  generateKey : Curve → Option Priv
  usig : String → Except TagError (Instance Priv)
  sealedKey : Option Bytes

inductive GenerateFault where
  | keySpec (e : LoadError)
  | generateKey
  | usig (e : TagError)
  | marshalPublicKey
  | yaml
  | panic

structure TestnetKeyOpts where
  numberReplicas : ℤ
  replicaKeySpec : String
  replicaSecParam : ℤ
  numberClients : ℤ
  clientKeySpec : String
  clientSecParam : ℤ
  usigEnclaveFile : String

variable {Priv Pub Nonce : Type}

section Generating

variable (lib : KeyGenerators Priv Pub Nonce)

def KeySpec.generateKeyPair (enclaveFile : String) (securityParam : ℤ) (draw : Draw Priv) :
    KeySpec → Except GenerateFault (String × String)
  | .sgxEcdsa =>
      match draw.usig enclaveFile with
      | .error e => .error (.usig e)
      | .ok usig =>
          match draw.sealedKey with
          | none => .error .panic
          | some privKeyBytes =>
              match lib.x509.marshalPKIXPublicKey (usig.publicKey lib.toLibraries) with
              | none => .error .marshalPublicKey
              | some pubKeyBytes =>
                  .ok (lib.base64Encode privKeyBytes, lib.base64Encode pubKeyBytes)
  | .ecdsa =>
      match draw.generateKey (curve securityParam) with
      | none => .error .generateKey
      | some privateKey =>
          match lib.marshalECPrivateKey privateKey,
              lib.x509.marshalPKIXPublicKey (.ecdsa (lib.ecdsa.publicKey privateKey)) with
          | some privKeyBytes, some pubKeyBytes =>
              .ok (lib.base64Encode privKeyBytes, lib.base64Encode pubKeyBytes)
          | _, _ => .error .panic

def generateEntry (spec : KeySpec) (secParam : ℤ) (enclaveFile : String) (draws : ℕ → Draw Priv)
    (id : ℕ) : Except GenerateFault (Option KeyPair) := do
  let (privKey, pubKey) ← spec.generateKeyPair lib enclaveFile secParam (draws id)
  return some ⟨UInt32.ofNat id, privKey, pubKey⟩

def generateKeySet (nrKeys : ℤ) (keySpec : String) (secParam : ℤ) (enclaveFile : String)
    (draws : ℕ → Draw Priv) : Except GenerateFault KeySet :=
  -- a slice cannot have a negative length
  if nrKeys < 0 then .error .panic
  else do
    let spec ← (getKeySpec keySpec).mapError GenerateFault.keySpec
    let keys ← (List.range nrKeys.toNat).mapM (generateEntry lib spec secParam enclaveFile draws)
    return ⟨keySpec, keys⟩

def generateTestnetKeys (opts : TestnetKeyOpts) (draws : AuthenticationRole → ℕ → Draw Priv) :
    Except GenerateFault Bytes := do
  let rKeySet ← generateKeySet lib opts.numberReplicas opts.replicaKeySpec opts.replicaSecParam ""
    (draws .replicaAuthen)
  let uKeySet ← generateKeySet lib opts.numberReplicas (KeySpec.getSpecName .sgxEcdsa) 0
    opts.usigEnclaveFile (draws .usigAuthen)
  let cKeySet ← generateKeySet lib opts.numberClients opts.clientKeySpec opts.clientSecParam ""
    (draws .clientAuthen)
  match lib.yamlEncode ⟨some rKeySet, some uKeySet, some cKeySet⟩ with
  | none => .error .yaml
  | some file => .ok file

end Generating

/-! ## What has been generated -/

structure KeyGenerators.Faithful (lib : KeyGenerators Priv Pub Nonce) : Prop where
  yaml : ∀ file b, lib.yamlEncode file = some b → lib.yaml b = some file
  base64 : ∀ b, lib.base64 (lib.base64Encode b) = some b
  privateKey : ∀ key b, lib.marshalECPrivateKey key = some b → lib.parseECPrivateKey b = some key
  publicKey : ∀ key b, lib.x509.marshalPKIXPublicKey key = some b →
    lib.x509.parsePKIXPublicKey b = some key

inductive Generated (lib : KeyGenerators Priv Pub Nonce) (enclaveFile : String)
    (securityParam : ℤ) (draw : Draw Priv) : KeySpec → NodePrivateKey Priv → Pub → Prop where
  | sgxEcdsa {usig : Instance Priv} {sealedKey : Bytes} {pubKey : Pub}
      (husig : draw.usig enclaveFile = .ok usig) (hsealed : draw.sealedKey = some sealedKey)
      (hpub : usig.publicKey lib.toLibraries = .ecdsa pubKey) :
      Generated lib enclaveFile securityParam draw .sgxEcdsa (.sealedKey sealedKey) pubKey
  | ecdsa {key : Priv} (hkey : draw.generateKey (curve securityParam) = some key) :
      Generated lib enclaveFile securityParam draw .ecdsa (.ecdsa key) (lib.ecdsa.publicKey key)

/-- Entries that have been generated for consecutive IDs, with the keys read from them. -/
inductive Entries (lib : KeyGenerators Priv Pub Nonce) (enclaveFile : String) (securityParam : ℤ)
    (draws : ℕ → Draw Priv) (keyspec : KeySpec) :
    ℕ → List (Option KeyPair) → List (NodePrivateKey Priv × Pub) → Prop where
  | nil {id : ℕ} : Entries lib enclaveFile securityParam draws keyspec id [] []
  | cons {id : ℕ} {keypair : KeyPair} {entries : List (Option KeyPair)}
      {priv : NodePrivateKey Priv} {pub : Pub} {keys : List (NodePrivateKey Priv × Pub)}
      (hid : keypair.id = UInt32.ofNat id)
      (hgen : Generated lib enclaveFile securityParam (draws id) keyspec priv pub)
      (hpub : parsePublicKey lib.toKeyLibraries keypair.publicKey = .ok pub)
      (hpriv : keyspec.parsePrivateKey lib.toKeyLibraries keypair.privateKey = .ok priv)
      (hentries : Entries lib enclaveFile securityParam draws keyspec (id + 1) entries keys) :
      Entries lib enclaveFile securityParam draws keyspec id (some keypair :: entries)
        ((priv, pub) :: keys)

section Generated

variable {lib : KeyGenerators Priv Pub Nonce} {keyspec : KeySpec} {enclaveFile : String}
  {securityParam : ℤ}

theorem parsePublicKey_encode (hlib : lib.Faithful) {key : Pub} {b : Bytes}
    (h : lib.x509.marshalPKIXPublicKey (.ecdsa key) = some b) :
    parsePublicKey lib.toKeyLibraries (lib.base64Encode b) = .ok key := by
  simp [parsePublicKey, hlib.base64, hlib.publicKey _ _ h]

theorem generateKeyPair_eq_ok (hlib : lib.Faithful) {draw : Draw Priv} {privKey pubKey : String}
    (h : keyspec.generateKeyPair lib enclaveFile securityParam draw = .ok (privKey, pubKey)) :
    ∃ priv pub, Generated lib enclaveFile securityParam draw keyspec priv pub ∧
      parsePublicKey lib.toKeyLibraries pubKey = .ok pub ∧
      keyspec.parsePrivateKey lib.toKeyLibraries privKey = .ok priv := by
  cases keyspec with
  | sgxEcdsa =>
      simp only [KeySpec.generateKeyPair] at h
      split at h
      · cases h
      · next usig husig =>
          split at h
          · cases h
          · next sealedKey hsealed =>
              split at h
              · cases h
              · next b hmarshal =>
                  cases h
                  refine ⟨_, _, .sgxEcdsa husig hsealed rfl, parsePublicKey_encode hlib hmarshal,
                    ?_⟩
                  simp [KeySpec.parsePrivateKey, hlib.base64]
  | ecdsa =>
      simp only [KeySpec.generateKeyPair] at h
      split at h
      · cases h
      · next key hkey =>
          split at h
          · next b b' hmarshal hmarshal' =>
              cases h
              refine ⟨_, _, .ecdsa hkey, parsePublicKey_encode hlib hmarshal', ?_⟩
              simp [KeySpec.parsePrivateKey, hlib.base64, hlib.privateKey _ _ hmarshal]
          · cases h

theorem generateEntry_eq_ok {draws : ℕ → Draw Priv} {id : ℕ} {entry : Option KeyPair}
    (h : generateEntry lib keyspec securityParam enclaveFile draws id = .ok entry) :
    ∃ privKey pubKey, entry = some ⟨UInt32.ofNat id, privKey, pubKey⟩ ∧
      keyspec.generateKeyPair lib enclaveFile securityParam (draws id) = .ok (privKey, pubKey) := by
  unfold generateEntry at h
  rw [Except.bind_eq_ok] at h
  obtain ⟨⟨privKey, pubKey⟩, hpair, h⟩ := h
  cases h
  exact ⟨privKey, pubKey, rfl, hpair⟩

/-- The loop makes entries for the IDs it goes through. -/
theorem entries_of_mapM (hlib : lib.Faithful) {draws : ℕ → Draw Priv} {n : ℕ} :
    ∀ {id : ℕ} {entries : List (Option KeyPair)}, (List.range' id n).mapM
      (generateEntry lib keyspec securityParam enclaveFile draws) = .ok entries →
    ∃ keys, keys.length = n ∧
      Entries lib enclaveFile securityParam draws keyspec id entries keys := by
  induction n with
  | zero =>
      intro id entries h
      cases h
      exact ⟨[], rfl, .nil⟩
  | succ n ih =>
      intro id entries h
      rw [List.range'_succ, List.mapM_cons, Except.bind_eq_ok] at h
      obtain ⟨entry, hentry, h⟩ := h
      rw [Except.bind_eq_ok] at h
      obtain ⟨rest, hrest, h⟩ := h
      cases h
      obtain ⟨privKey, pubKey, rfl, hpair⟩ := generateEntry_eq_ok hentry
      obtain ⟨priv, pub, hgen, hpub, hpriv⟩ := generateKeyPair_eq_ok hlib hpair
      obtain ⟨keys, hlength, hkeys⟩ := ih hrest
      exact ⟨(priv, pub) :: keys, by simp [hlength], .cons rfl hgen hpub hpriv hkeys⟩

/-- A key set that has been generated, with the keys read from it. -/
structure KeySet.Holds (lib : KeyGenerators Priv Pub Nonce) (keySpec enclaveFile : String)
    (securityParam : ℤ) (draws : ℕ → Draw Priv) (nrKeys : ℤ) (keyset : KeySet) (spec : KeySpec)
    (keys : List (NodePrivateKey Priv × Pub)) : Prop where
  name : keyset.keySpec = keySpec
  keyspec : getKeySpec keySpec = .ok spec
  length : (keys.length : ℤ) = nrKeys
  entries : Entries lib enclaveFile securityParam draws spec 0 keyset.keys keys

theorem generateKeySet_eq_ok (hlib : lib.Faithful) {nrKeys : ℤ} {keySpec : String}
    {draws : ℕ → Draw Priv} {keyset : KeySet}
    (h : generateKeySet lib nrKeys keySpec securityParam enclaveFile draws = .ok keyset) :
    ∃ spec keys, keyset.Holds lib keySpec enclaveFile securityParam draws nrKeys spec keys := by
  unfold generateKeySet at h
  split_ifs at h with hneg
  rw [Except.bind_eq_ok] at h
  obtain ⟨spec, hspec, h⟩ := h
  rw [Except.mapError_eq_ok] at hspec
  rw [Except.bind_eq_ok] at h
  obtain ⟨entries, hentries, h⟩ := h
  cases h
  rw [List.range_eq_range'] at hentries
  obtain ⟨keys, hlength, hkeys⟩ := entries_of_mapM hlib hentries
  refine ⟨spec, keys, rfl, hspec, ?_, hkeys⟩
  omega

theorem Entries.generated {draws : ℕ → Draw Priv} {id : ℕ} {entries : List (Option KeyPair)}
    {keys : List (NodePrivateKey Priv × Pub)}
    (h : Entries lib enclaveFile securityParam draws keyspec id entries keys) {i : ℕ}
    {key : NodePrivateKey Priv × Pub} (hkey : keys[i]? = some key) :
    Generated lib enclaveFile securityParam (draws (id + i)) keyspec key.1 key.2 := by
  induction h generalizing i with
  | nil => simp at hkey
  | @cons id _ _ _ _ _ _ hgen _ _ _ ih =>
      cases i with
      | zero =>
          cases hkey
          exact hgen
      | succ i =>
          have := ih hkey
          rwa [Nat.add_right_comm] at this

end Generated

/-! ## Loading what has been generated -/

def OwnerKey.read (keyspec : KeySpec) (keys : List (NodePrivateKey Priv × Pub)) (id : UInt32)
    (key : OwnerKey Priv Pub) : OwnerKey Priv Pub :=
  match keys[id.toNat]? with
  | some (priv, pub) => ⟨some keyspec, some priv, some pub⟩
  | none => key

namespace SimpleKeyStore

def withKeys (role : AuthenticationRole) (keyspec : KeySpec)
    (keys : List (NodePrivateKey Priv × Pub)) (ks : SimpleKeyStore Priv Pub) :
    SimpleKeyStore Priv Pub where
  id := ks.id
  ownerKeys := Function.update ks.ownerKeys role.value
    ((ks.ownerKeys role.value).map (OwnerKey.read keyspec keys ks.id))
  nodePublicKeys := Function.update ks.nodePublicKeys role
    (some ⟨keyspec, fun id => (keys[id.toNat]?).map Prod.snd⟩)

variable {lib : KeyGenerators Priv Pub Nonce} {keyspec : KeySpec} {enclaveFile : String}
  {securityParam : ℤ} {role : AuthenticationRole} {ks : SimpleKeyStore Priv Pub}

theorem withKeys_nil :
    ks.withKeys role keyspec [] = ks.setKeymap role ⟨keyspec, fun _ => none⟩ := by
  have hread : OwnerKey.read keyspec ([] : List (NodePrivateKey Priv × Pub)) ks.id = fun k => k :=
    rfl
  unfold withKeys setKeymap
  rw [hread, Option.map_id', Function.update_eq_self]
  rfl

theorem getElem?_concat_toNat {α : Type} {done : List α} (hlt : done.length < 2 ^ 32) (a : α)
    (id : UInt32) : (done ++ [a])[id.toNat]? =
      if id = UInt32.ofNat done.length then some a else done[id.toNat]? := by
  have hlength : (UInt32.ofNat done.length).toNat = done.length := UInt32.toNat_ofNat_of_lt' hlt
  split_ifs with hid
  · subst hid
    rw [hlength, List.getElem?_concat_length]
  · have hne : id.toNat ≠ done.length := by
      intro h
      apply hid
      apply UInt32.toNat_inj.mp
      rw [h, hlength]
    rcases Nat.lt_or_gt_of_ne hne with hlt | hgt
    · rw [List.getElem?_append_left hlt]
    · rw [List.getElem?_eq_none, List.getElem?_eq_none]
      · omega
      · rw [List.length_append, List.length_singleton]
        omega

theorem keys_concat {done : List (NodePrivateKey Priv × Pub)} (hlt : done.length < 2 ^ 32)
    (priv : NodePrivateKey Priv) (pub : Pub) :
    Function.update (fun id : UInt32 => (done[id.toNat]?).map Prod.snd) (UInt32.ofNat done.length)
      (some pub) = fun id => ((done ++ [(priv, pub)])[id.toNat]?).map Prod.snd := by
  funext id
  rw [getElem?_concat_toNat hlt, Function.update_apply]
  split_ifs <;> rfl

theorem read_concat {done : List (NodePrivateKey Priv × Pub)} (hlt : done.length < 2 ^ 32)
    (priv : NodePrivateKey Priv) (pub : Pub) (id : UInt32) (key : OwnerKey Priv Pub) :
    OwnerKey.read keyspec (done ++ [(priv, pub)]) id key =
      if id = UInt32.ofNat done.length then ⟨some keyspec, some priv, some pub⟩
      else OwnerKey.read keyspec done id key := by
  unfold OwnerKey.read
  rw [getElem?_concat_toNat hlt]
  split_ifs <;> rfl

/-- The store for one more key, apart from the own key. -/
theorem setKeymap_withKeys {done : List (NodePrivateKey Priv × Pub)} (keymap : PublicKeySet Pub) :
    (ks.withKeys role keyspec done).setKeymap role keymap =
      ⟨ks.id, (ks.withKeys role keyspec done).ownerKeys,
        Function.update ks.nodePublicKeys role (some keymap)⟩ := by
  unfold setKeymap withKeys
  rw [Function.update_idem]

theorem parseOwnKey_withKeys {done : List (NodePrivateKey Priv × Pub)}
    (hlt : done.length < 2 ^ 32) {keypair : KeyPair} {priv : NodePrivateKey Priv} {pub : Pub}
    (hid : keypair.id = UInt32.ofNat done.length)
    (hpriv : keyspec.parsePrivateKey lib.toKeyLibraries keypair.privateKey = .ok priv) :
    ((ks.withKeys role keyspec done).setKeymap role
      ⟨keyspec, fun id => ((done ++ [(priv, pub)])[id.toNat]?).map Prod.snd⟩).parseOwnKey
        lib.toKeyLibraries role keyspec keypair pub =
      .ok (ks.withKeys role keyspec (done ++ [(priv, pub)])) := by
  rw [setKeymap_withKeys]
  unfold parseOwnKey withKeys
  simp only [Function.update_self, Option.isSome_map]
  by_cases hown : (ks.ownerKeys role.value).isSome ∧ keypair.id = ks.id
  · obtain ⟨key, hkey⟩ := Option.isSome_iff_exists.mp hown.1
    have hread : OwnerKey.read keyspec (done ++ [(priv, pub)]) ks.id key =
        ⟨some keyspec, some priv, some pub⟩ := by
      rw [read_concat hlt, if_pos (hown.2.symm.trans hid)]
    rw [if_pos hown, Except.bind_eq_ok]
    refine ⟨priv, Except.mapError_eq_ok.mpr hpriv, ?_⟩
    simp only [setOwnerKey, Function.update_idem, hkey, Option.map_some, hread]
    rfl
  · have hread : (ks.ownerKeys role.value).map
        (OwnerKey.read keyspec (done ++ [(priv, pub)]) ks.id) =
        (ks.ownerKeys role.value).map (OwnerKey.read keyspec done ks.id) := by
      cases hkey : ks.ownerKeys role.value with
      | none => rfl
      | some key =>
          have hne : ks.id ≠ UInt32.ofNat done.length := by
            intro heq
            apply hown
            rw [hkey, hid, heq]
            exact ⟨rfl, rfl⟩
          rw [Option.map_some, Option.map_some, read_concat hlt, if_neg hne]
    rw [if_neg hown, hread]
    rfl

theorem parseKeyPair_withKeys {done : List (NodePrivateKey Priv × Pub)}
    (hlt : done.length < 2 ^ 32) {keypair : KeyPair} {priv : NodePrivateKey Priv} {pub : Pub}
    (hid : keypair.id = UInt32.ofNat done.length)
    (hpub : parsePublicKey lib.toKeyLibraries keypair.publicKey = .ok pub)
    (hpriv : keyspec.parsePrivateKey lib.toKeyLibraries keypair.privateKey = .ok priv) :
    (ks.withKeys role keyspec done).parseKeyPair lib.toKeyLibraries role keyspec (some keypair) =
      .ok (ks.withKeys role keyspec (done ++ [(priv, pub)])) := by
  have hkeymap : (ks.withKeys role keyspec done).nodePublicKeys role =
      some ⟨keyspec, fun id => (done[id.toNat]?).map Prod.snd⟩ := Function.update_self ..
  unfold parseKeyPair
  rw [hkeymap]
  dsimp only
  rw [Except.bind_eq_ok]
  refine ⟨pub, Except.mapError_eq_ok.mpr hpub, ?_⟩
  rw [hid, keys_concat hlt priv]
  exact parseOwnKey_withKeys hlt hid hpriv

/-- All entries of a key set are read. -/
theorem foldlM_parseKeyPair {draws : ℕ → Draw Priv} {entries : List (Option KeyPair)}
    {done keys : List (NodePrivateKey Priv × Pub)} (hlt : done.length + keys.length ≤ 2 ^ 32)
    (h : Entries lib enclaveFile securityParam draws keyspec done.length entries keys) :
    entries.foldlM (fun ks entry => ks.parseKeyPair lib.toKeyLibraries role keyspec entry)
      (ks.withKeys role keyspec done) = .ok (ks.withKeys role keyspec (done ++ keys)) := by
  generalize hn : done.length = n at h
  induction h generalizing done with
  | nil =>
      rw [List.append_nil]
      rfl
  | @cons id keypair entries priv pub keys hid hgen hpub hpriv hentries ih =>
      subst hn
      rw [List.length_cons] at hlt
      rw [List.foldlM_cons, parseKeyPair_withKeys (by omega) hid hpub hpriv]
      have hdone : (done ++ [(priv, pub)]).length = done.length + 1 := by simp
      have hrest := @ih (done ++ [(priv, pub)]) (by omega) hdone
      rw [List.append_assoc, List.singleton_append] at hrest
      exact hrest

theorem loadKeySet_generated {file : SimpleKeyStoreFile} {name : String} {draws : ℕ → Draw Priv}
    {nrKeys : ℤ} {keyset : KeySet} {keys : List (NodePrivateKey Priv × Pub)}
    (hset : file.keySets role = some keyset)
    (h : keyset.Holds lib name enclaveFile securityParam draws nrKeys keyspec keys)
    (hfew : nrKeys ≤ 2 ^ 32) :
    ks.loadKeySet lib.toKeyLibraries file role = .ok (ks.withKeys role keyspec keys) := by
  have hlength := h.length
  unfold loadKeySet
  rw [hset]
  dsimp only
  rw [Except.bind_eq_ok, h.name]
  refine ⟨keyspec, Except.mapError_eq_ok.mpr h.keyspec, ?_⟩
  rw [← withKeys_nil]
  apply foldlM_parseKeyPair
  · rw [List.length_nil]
    omega
  · exact h.entries

end SimpleKeyStore

def loadedKeys (keyspec : AuthenticationRole → KeySpec)
    (keys : AuthenticationRole → List (NodePrivateKey Priv × Pub)) (rs : List AuthenticationRole)
    (ks : SimpleKeyStore Priv Pub) : SimpleKeyStore Priv Pub :=
  rs.foldl (fun ks r => ks.withKeys r (keyspec r) (keys r)) ks

section Loading

variable {keyspec : AuthenticationRole → KeySpec}
  {keys : AuthenticationRole → List (NodePrivateKey Priv × Pub)} {rs : List AuthenticationRole}
  {ks : SimpleKeyStore Priv Pub} {r : AuthenticationRole}

theorem roleValue_injective : Function.Injective AuthenticationRole.value := by
  intro r r' h
  have hof := congrArg AuthenticationRole.ofValue h
  simpa using hof

theorem nodePublicKeys_loadedKeys (r : AuthenticationRole) :
    (loadedKeys keyspec keys rs ks).nodePublicKeys r =
      if r ∈ rs then some ⟨keyspec r, fun id => ((keys r)[id.toNat]?).map Prod.snd⟩
      else ks.nodePublicKeys r := by
  induction rs generalizing ks with
  | nil => rfl
  | cons a rs ih =>
      have hrest := @ih (ks.withKeys a (keyspec a) (keys a))
      by_cases hr : r ∈ rs
      · rw [if_pos hr] at hrest
        rw [if_pos (List.mem_cons_of_mem _ hr)]
        exact hrest
      · rw [if_neg hr] at hrest
        refine hrest.trans ?_
        by_cases ha : r = a
        · subst ha
          rw [if_pos List.mem_cons_self]
          exact Function.update_self ..
        · rw [if_neg (List.not_mem_cons_of_ne_of_not_mem ha hr)]
          exact Function.update_of_ne ha ..

/-- Reading the same keys again changes nothing. -/
theorem read_read (spec : KeySpec) (l : List (NodePrivateKey Priv × Pub)) (id : UInt32)
    (key : Option (OwnerKey Priv Pub)) :
    (key.map (OwnerKey.read spec l id)).map (OwnerKey.read spec l id) =
      key.map (OwnerKey.read spec l id) := by
  cases key with
  | none => rfl
  | some key =>
      simp only [Option.map_some, OwnerKey.read]
      cases l[id.toNat]? <;> rfl

theorem ownerKeys_loadedKeys (r : AuthenticationRole) :
    (loadedKeys keyspec keys rs ks).ownerKeys r.value =
      if r ∈ rs then (ks.ownerKeys r.value).map (OwnerKey.read (keyspec r) (keys r) ks.id)
      else ks.ownerKeys r.value := by
  induction rs generalizing ks with
  | nil => rfl
  | cons a rs ih =>
      refine (@ih (ks.withKeys a (keyspec a) (keys a))).trans ?_
      by_cases ha : r = a
      · subst ha
        rw [if_pos List.mem_cons_self]
        simp only [SimpleKeyStore.withKeys, Function.update_self, read_read, ite_self]
      · have hne : r.value ≠ a.value := fun h => ha (roleValue_injective h)
        simp only [SimpleKeyStore.withKeys, Function.update_of_ne hne, List.mem_cons, ha, false_or]

theorem ownerKeys_loadedKeys_of_ne {n : ℤ} (hn : ∀ r ∈ rs, r.value ≠ n) :
    (loadedKeys keyspec keys rs ks).ownerKeys n = ks.ownerKeys n := by
  induction rs generalizing ks with
  | nil => rfl
  | cons a rs ih =>
      refine (@ih (ks.withKeys a (keyspec a) (keys a))
        fun r hr => hn r (List.mem_cons_of_mem _ hr)).trans ?_
      exact Function.update_of_ne (hn a List.mem_cons_self).symm ..

end Loading

namespace TestnetKeyOpts

variable (opts : TestnetKeyOpts)

def number : AuthenticationRole → ℤ
  | .replicaAuthen => opts.numberReplicas
  | .usigAuthen => opts.numberReplicas
  | .clientAuthen => opts.numberClients

def keySpec : AuthenticationRole → String
  | .replicaAuthen => opts.replicaKeySpec
  | .usigAuthen => KeySpec.getSpecName .sgxEcdsa
  | .clientAuthen => opts.clientKeySpec

def secParam : AuthenticationRole → ℤ
  | .replicaAuthen => opts.replicaSecParam
  | .usigAuthen => 0
  | .clientAuthen => opts.clientSecParam

def enclaveFile : AuthenticationRole → String
  | .replicaAuthen => ""
  | .usigAuthen => opts.usigEnclaveFile
  | .clientAuthen => ""

def Includes (role : ℤ) (id : UInt32) : Prop :=
  ∃ r : AuthenticationRole, r.value = role ∧ (id.toNat : ℤ) < opts.number r

end TestnetKeyOpts

/-- The keys that have been generated, for each role in the order of IDs. -/
structure TestnetKeyOpts.Generates (lib : KeyGenerators Priv Pub Nonce) (opts : TestnetKeyOpts)
    (draws : AuthenticationRole → ℕ → Draw Priv) (keyspec : AuthenticationRole → KeySpec)
    (keys : AuthenticationRole → List (NodePrivateKey Priv × Pub)) : Prop where
  spec : ∀ r, getKeySpec (opts.keySpec r) = .ok (keyspec r)
  length : ∀ r, ((keys r).length : ℤ) = opts.number r
  generated : ∀ r i key, (keys r)[i]? = some key →
    Generated lib (opts.enclaveFile r) (opts.secParam r) (draws r i) (keyspec r) key.1 key.2

/-- What a node with this ID gets from the key store, when it has asked for these roles. -/
structure SimpleKeyStore.Provides (ks : SimpleKeyStore Priv Pub) (roles : List ℤ) (id : UInt32)
    (keyspec : AuthenticationRole → KeySpec)
    (keys : AuthenticationRole → List (NodePrivateKey Priv × Pub)) : Prop where
  nodePublicKey : ∀ (r : AuthenticationRole) id', ks.nodePublicKey r.value id' =
    .ok (match (keys r)[id'.toNat]? with
      | some key => .ecdsa key.2
      | none => nilKey)
  nodeKeySpec : ∀ r : AuthenticationRole, ks.nodeKeySpec r.value = some (keyspec r)
  privateKey : ∀ r : AuthenticationRole, r.value ∈ roles → ∃ key, (keys r)[id.toNat]? = some key ∧
    ks.privateKey r.value = some key.1 ∧ ks.keySpec r.value = some (keyspec r)

section Main

variable {lib : KeyGenerators Priv Pub Nonce} {opts : TestnetKeyOpts}
  {draws : AuthenticationRole → ℕ → Draw Priv} {file : Bytes}

theorem generateTestnetKeys_eq_ok (hlib : lib.Faithful)
    (h : generateTestnetKeys lib opts draws = .ok file) :
    ∃ (keySets : SimpleKeyStoreFile) (keyspec : AuthenticationRole → KeySpec)
      (keys : AuthenticationRole → List (NodePrivateKey Priv × Pub)),
      lib.yaml file = some keySets ∧ ∀ r, ∃ keyset, keySets.keySets r = some keyset ∧
        keyset.Holds lib (opts.keySpec r) (opts.enclaveFile r) (opts.secParam r) (draws r)
          (opts.number r) (keyspec r) (keys r) := by
  unfold generateTestnetKeys at h
  rw [Except.bind_eq_ok] at h
  obtain ⟨rKeySet, hr, h⟩ := h
  rw [Except.bind_eq_ok] at h
  obtain ⟨uKeySet, hu, h⟩ := h
  rw [Except.bind_eq_ok] at h
  obtain ⟨cKeySet, hc, h⟩ := h
  split at h
  · cases h
  · next b hencode =>
      cases h
      obtain ⟨rspec, rkeys, hr⟩ := generateKeySet_eq_ok hlib hr
      obtain ⟨uspec, ukeys, hu⟩ := generateKeySet_eq_ok hlib hu
      obtain ⟨cspec, ckeys, hc⟩ := generateKeySet_eq_ok hlib hc
      refine ⟨_, fun | .replicaAuthen => rspec | .usigAuthen => uspec | .clientAuthen => cspec,
        fun | .replicaAuthen => rkeys | .usigAuthen => ukeys | .clientAuthen => ckeys,
        hlib.yaml _ _ hencode, fun r => ?_⟩
      cases r with
      | replicaAuthen => exact ⟨rKeySet, rfl, hr⟩
      | usigAuthen => exact ⟨uKeySet, rfl, hu⟩
      | clientAuthen => exact ⟨cKeySet, rfl, hc⟩

theorem foldlM_loadKeySet {keySets : SimpleKeyStoreFile} {keyspec : AuthenticationRole → KeySpec}
    {keys : AuthenticationRole → List (NodePrivateKey Priv × Pub)}
    (hload : ∀ r (ks : SimpleKeyStore Priv Pub), ks.loadKeySet lib.toKeyLibraries keySets r =
      .ok (ks.withKeys r (keyspec r) (keys r))) (rs : List AuthenticationRole)
    (ks : SimpleKeyStore Priv Pub) :
    rs.foldlM (fun ks role => ks.loadKeySet lib.toKeyLibraries keySets role) ks =
      .ok (loadedKeys keyspec keys rs ks) := by
  induction rs generalizing ks with
  | nil => rfl
  | cons r rs ih =>
      rw [List.foldlM_cons, hload]
      exact ih _

theorem includes_value_iff {keys : AuthenticationRole → List (NodePrivateKey Priv × Pub)}
    (hlength : ∀ r, ((keys r).length : ℤ) = opts.number r) (r : AuthenticationRole) {id : UInt32} :
    opts.Includes r.value id ↔ id.toNat < (keys r).length := by
  have hnumber := hlength r
  constructor
  · rintro ⟨r', hvalue, hlt⟩
    cases roleValue_injective hvalue
    omega
  · intro hlt
    refine ⟨r, rfl, ?_⟩
    omega

theorem ownerKeys_emptyKeyStore {roles : List ℤ} {n : ℤ} (hn : n ∈ roles) (id : UInt32) :
    (emptyKeyStore roles id : SimpleKeyStore Priv Pub).ownerKeys n = some ⟨none, none, none⟩ :=
  if_pos hn

theorem ownerKeys_loadedKeys_empty {keyspec : AuthenticationRole → KeySpec}
    {keys : AuthenticationRole → List (NodePrivateKey Priv × Pub)} (order : RoleOrder)
    {roles : List ℤ} {r : AuthenticationRole} (hr : r.value ∈ roles) (id : UInt32) :
    (loadedKeys keyspec keys order.roles (emptyKeyStore roles id)).ownerKeys r.value =
      some (OwnerKey.read (keyspec r) (keys r) id ⟨none, none, none⟩) := by
  rw [ownerKeys_loadedKeys, if_pos (order.mem r), ownerKeys_emptyKeyStore hr]
  rfl

/-- A node that has asked for a role has a key for it if keys are generated for the node. -/
theorem privateKey_loadedKeys {keyspec : AuthenticationRole → KeySpec}
    {keys : AuthenticationRole → List (NodePrivateKey Priv × Pub)}
    (hlength : ∀ r, ((keys r).length : ℤ) = opts.number r) (order : RoleOrder) {roles : List ℤ}
    {id : UInt32} {n : ℤ} (hn : n ∈ roles) :
    ((loadedKeys keyspec keys order.roles (emptyKeyStore roles id)).privateKey n).isSome =
      true ↔ opts.Includes n id := by
  unfold SimpleKeyStore.privateKey
  by_cases hrole : ∃ r : AuthenticationRole, r.value = n
  · obtain ⟨r, rfl⟩ := hrole
    rw [ownerKeys_loadedKeys_empty order hn, includes_value_iff hlength, Option.bind_some]
    unfold OwnerKey.read
    cases hkey : (keys r)[id.toNat]? with
    | none =>
        have hle := List.getElem?_eq_none_iff.mp hkey
        simpa using hle
    | some key =>
        have hlt := (List.getElem?_eq_some_iff.mp hkey).1
        simpa using hlt
  · rw [ownerKeys_loadedKeys_of_ne fun r _ h => hrole ⟨r, h⟩, ownerKeys_emptyKeyStore hn]
    simp only [Option.bind_some, Option.isSome_none, Bool.false_eq_true, false_iff]
    rintro ⟨r, hvalue, -⟩
    exact hrole ⟨r, hvalue⟩

theorem provides_loadedKeys {keyspec : AuthenticationRole → KeySpec}
    {keys : AuthenticationRole → List (NodePrivateKey Priv × Pub)} (order : RoleOrder)
    {roles : List ℤ} {id : UInt32}
    (hfind : roles.find? (fun n => ((loadedKeys keyspec keys order.roles
      (emptyKeyStore roles id)).privateKey n).isNone) = none) :
    (loadedKeys keyspec keys order.roles (emptyKeyStore roles id)).Provides roles id keyspec
      keys := by
  have hkeymap : ∀ r, (loadedKeys keyspec keys order.roles (emptyKeyStore roles id)).keymap
      r.value = some ⟨keyspec r, fun id => ((keys r)[id.toNat]?).map Prod.snd⟩ := by
    intro r
    rw [SimpleKeyStore.keymap_value, nodePublicKeys_loadedKeys, if_pos (order.mem r)]
  refine ⟨fun r id' => ?_, fun r => ?_, fun r hr => ?_⟩
  · unfold SimpleKeyStore.nodePublicKey
    rw [hkeymap]
    simp only [PublicKeySet.lookup]
    cases (keys r)[id'.toNat]? <;> rfl
  · unfold SimpleKeyStore.nodeKeySpec
    rw [hkeymap]
    rfl
  · have hsome := List.find?_eq_none.mp hfind _ hr
    unfold SimpleKeyStore.keySpec
    unfold SimpleKeyStore.privateKey at hsome ⊢
    rw [ownerKeys_loadedKeys_empty order hr, Option.bind_some] at hsome ⊢
    unfold OwnerKey.read at hsome ⊢
    cases hkey : (keys r)[id.toNat]? with
    | none => simp [hkey] at hsome
    | some key => exact ⟨key, rfl, rfl, rfl⟩

/-- Loading what has been generated comes down to looking for a key of the node that is missing. -/
theorem load_eq_of_generate (hlib : lib.Faithful) (hfew : ∀ r, opts.number r ≤ 2 ^ 32)
    (h : generateTestnetKeys lib opts draws = .ok file) :
    ∃ keyspec keys, opts.Generates lib draws keyspec keys ∧
      ∀ (order : RoleOrder) (roles : List ℤ) (id : UInt32),
        loadSimpleKeyStore lib.toKeyLibraries order (some file) roles id =
          match roles.find? fun n => ((loadedKeys keyspec keys order.roles
            (emptyKeyStore roles id)).privateKey n).isNone with
          | some n => .error (.error (.missingKey n id))
          | none => .ok (loadedKeys keyspec keys order.roles (emptyKeyStore roles id)) := by
  obtain ⟨keySets, keyspec, keys, hyaml, hholds⟩ := generateTestnetKeys_eq_ok hlib h
  have hset : ∀ r (ks : SimpleKeyStore Priv Pub), ks.loadKeySet lib.toKeyLibraries keySets r =
      .ok (ks.withKeys r (keyspec r) (keys r)) := by
    intro r ks
    obtain ⟨keyset, hset, hkeyset⟩ := hholds r
    exact SimpleKeyStore.loadKeySet_generated hset hkeyset (hfew r)
  have hparse : parseSimpleKeyStoreFile lib.toKeyLibraries (some file) = .ok keySets := by
    simp [parseSimpleKeyStoreFile, hyaml]
  refine ⟨keyspec, keys, ⟨fun r => ?_, fun r => ?_, fun r i key hkey => ?_⟩,
    fun order roles id => ?_⟩
  · obtain ⟨keyset, -, hkeyset⟩ := hholds r
    exact hkeyset.keyspec
  · obtain ⟨keyset, -, hkeyset⟩ := hholds r
    exact hkeyset.length
  · obtain ⟨keyset, -, hkeyset⟩ := hholds r
    have hgen := hkeyset.entries.generated hkey
    rwa [Nat.zero_add] at hgen
  · unfold loadSimpleKeyStore
    rw [hparse]
    change (List.foldlM (m := Except LoadFault) _ _ order.roles >>= _) = _
    rw [foldlM_loadKeySet hset]
    rfl

/-- Whatever is loaded has the keys that have been generated. -/
theorem provides_of_generate (hlib : lib.Faithful) (hfew : ∀ r, opts.number r ≤ 2 ^ 32)
    (h : generateTestnetKeys lib opts draws = .ok file) :
    ∃ keyspec keys, opts.Generates lib draws keyspec keys ∧
      ∀ order roles id ks,
        loadSimpleKeyStore lib.toKeyLibraries order (some file) roles id = .ok ks →
          ks.Provides roles id keyspec keys := by
  obtain ⟨keyspec, keys, hgenerates, hload⟩ := load_eq_of_generate hlib hfew h
  refine ⟨keyspec, keys, hgenerates, fun order roles id ks hks => ?_⟩
  rw [hload] at hks
  split at hks
  · cases hks
  · next hfind =>
      rw [← Except.ok.inj hks]
      exact provides_loadedKeys order hfind

/-- What has been generated for a test network is loaded by the nodes it is for, whatever the order
in which the key sets are read, and by no others. -/
theorem generated_keys_load (hlib : lib.Faithful) (hfew : ∀ r, opts.number r ≤ 2 ^ 32)
    (h : generateTestnetKeys lib opts draws = .ok file) :
    ∃ keyspec keys, opts.Generates lib draws keyspec keys ∧
      ∀ (order : RoleOrder) (roles : List ℤ) (id : UInt32),
        ((∀ n ∈ roles, opts.Includes n id) →
          ∃ ks, loadSimpleKeyStore lib.toKeyLibraries order (some file) roles id = .ok ks ∧
            ks.Provides roles id keyspec keys) ∧
        ((∃ n ∈ roles, ¬ opts.Includes n id) → ∃ n ∈ roles, ¬ opts.Includes n id ∧
          loadSimpleKeyStore lib.toKeyLibraries order (some file) roles id =
            .error (.error (.missingKey n id))) := by
  obtain ⟨keyspec, keys, hgenerates, hload⟩ := load_eq_of_generate hlib hfew h
  refine ⟨keyspec, keys, hgenerates, fun order roles id => ?_⟩
  have hincludes : ∀ n ∈ roles, ((loadedKeys keyspec keys order.roles
      (emptyKeyStore roles id)).privateKey n).isNone = true ↔ ¬ opts.Includes n id := by
    intro n hn
    rw [← privateKey_loadedKeys hgenerates.length order hn, Option.isNone_iff_eq_none,
      Bool.not_eq_true, Option.isSome_eq_false_iff, Option.isNone_iff_eq_none]
  rw [hload]
  split
  · next n hfind =>
      have hn := List.mem_of_find?_eq_some hfind
      have hnone := List.find?_some hfind
      have hout := (hincludes n hn).mp hnone
      exact ⟨fun hall => absurd (hall n hn) hout, fun _ => ⟨n, hn, hout, rfl⟩⟩
  · next hfind =>
      refine ⟨fun _ => ⟨_, rfl, provides_loadedKeys order hfind⟩, ?_⟩
      rintro ⟨n, hn, hout⟩
      exact absurd ((hincludes n hn).mpr hout) (List.find?_eq_none.mp hfind n hn)

end Main

end Authentication

namespace Concrete

open BigEndian USIG USIGEnclave Authentication

def byteString (b : Bytes) : String := String.ofList (b.map Char.ofUInt8)

def bytesOf (s : String) : Bytes := s.toList.map Char.toUInt8

theorem bytesOf_byteString (b : Bytes) : bytesOf (byteString b) = b := by
  have hbyte : Char.toUInt8 ∘ Char.ofUInt8 = id := by
    funext x
    exact UInt8.toUInt8_toUInt32 x
  simp [bytesOf, byteString, hbyte]

deriving instance DecidableEq for KeyPair, KeySet, SimpleKeyStoreFile

def smallNetworkFile : SimpleKeyStoreFile :=
  ⟨some ⟨"ECDSA", [some ⟨0, byteString [], byteString []⟩]⟩,
    some ⟨"SGX_ECDSA", [some ⟨0, byteString [5], byteString []⟩]⟩,
    some ⟨"ECDSA", [some ⟨0, byteString [], byteString []⟩]⟩⟩

def smallNetworkGenerators : KeyGenerators Unit (ℕ × ℕ) Unit where
  toLibraries := markingLibraries
  yaml _ := some smallNetworkFile
  base64 s := some (bytesOf s)
  parseECPrivateKey _ := some ()
  yamlEncode file := if file = smallNetworkFile then some [] else none
  base64Encode := byteString
  marshalECPrivateKey _ := some []

theorem faithful_smallNetworkGenerators : smallNetworkGenerators.Faithful where
  yaml file b h := by
    simp only [smallNetworkGenerators] at h ⊢
    split_ifs at h with heq
    rw [heq]
  base64 b := congrArg some (bytesOf_byteString b)
  privateKey _ _ _ := rfl
  publicKey key b h := by
    simp only [smallNetworkGenerators, markingLibraries, oneKeyX509] at h ⊢
    split at h
    · rfl
    · cases h

def smallNetworkOpts : TestnetKeyOpts := ⟨1, "ECDSA", 256, 1, "ECDSA", 256, "enclave"⟩

theorem few_smallNetworkOpts (r : AuthenticationRole) : smallNetworkOpts.number r ≤ 2 ^ 32 := by
  cases r <;> decide

def onlyDraw : Draw Unit where
  generateKey _ := some ()
  usig _ := .ok ⟨start () ⟨(bigEndian 32 1).reverse, (bigEndian 32 2).reverse⟩ 0, 0⟩
  sealedKey := some [5]

theorem generate_smallNetwork :
    generateTestnetKeys smallNetworkGenerators smallNetworkOpts (fun _ _ => onlyDraw) = .ok [] := by
  rfl

/-- The only replica loads its keys; there is no second one. -/
theorem generated_keys_load_smallNetwork : ∃ keyspec keys ks order,
    smallNetworkOpts.Generates smallNetworkGenerators (fun _ _ => onlyDraw) keyspec keys ∧
    loadSimpleKeyStore smallNetworkGenerators.toKeyLibraries order (some []) [1, 2] 0 = .ok ks ∧
    ks.Provides [1, 2] 0 keyspec keys ∧
    loadSimpleKeyStore smallNetworkGenerators.toKeyLibraries order (some []) [2] 1 =
      .error (.error (.missingKey 2 1)) := by
  obtain ⟨keyspec, keys, hgenerates, hload⟩ :=
    generated_keys_load faithful_smallNetworkGenerators few_smallNetworkOpts generate_smallNetwork
  have hreplica : ∀ n ∈ ([1, 2] : List ℤ), smallNetworkOpts.Includes n 0 := by
    intro n hn
    rcases List.mem_cons.mp hn with rfl | hn
    · exact ⟨.replicaAuthen, rfl, by decide⟩
    · cases List.mem_singleton.mp hn
      exact ⟨.usigAuthen, rfl, by decide⟩
  have hsecond : ∀ n, ¬ smallNetworkOpts.Includes n 1 := by
    rintro n ⟨r, -, hlt⟩
    cases r <;> exact absurd hlt (by decide)
  obtain ⟨ks, hks, hprovides⟩ := (hload ⟨_, List.Perm.refl _⟩ [1, 2] 0).1 hreplica
  obtain ⟨n, hn, -, herror⟩ := (hload ⟨_, List.Perm.refl _⟩ [2] 1).2
    ⟨2, List.mem_singleton_self 2, hsecond 2⟩
  cases List.mem_singleton.mp hn
  exact ⟨keyspec, keys, ks, _, hgenerates, hks, hprovides, herror⟩

end Concrete

end MinBFT
