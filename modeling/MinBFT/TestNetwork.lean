import MinBFT.Authenticator
import MinBFT.Embedded
import MinBFT.KeyGeneration

/-!
# Test networks

The authenticators of nodes that have been set up with the keys of one test network. Each node is
known to the others by the public keys that belong to its own private keys, so that a tag that one
node generates as a replica or as a client is accepted by all. If each replica runs one enclave
instance, what the nodes accept as its UIs are unique.
-/

namespace MinBFT

namespace Authentication

open USIG USIGEnclave

variable {Priv Pub Nonce : Type}

section Building

variable {lib : KeyLibraries Priv Pub Nonce} {ks : SimpleKeyStore Priv Pub}
  {usig : SuppliedUSIG Priv} {a : Authenticator Priv Pub Nonce} {reader : Option Bytes}
  {roles : List ℤ} {id : UInt32}

theorem addScheme_eq_ok {rs : List AuthenticationRole}
    {m m' : AuthenticationRole → Option (AuthenticationScheme Priv Pub Nonce)}
    (h : rs.foldlM (addScheme lib ks usig) m = .ok m') :
    ∀ r ∈ rs, ∃ scheme, schemeFor lib ks usig r = .ok scheme := by
  induction rs generalizing m with
  | nil => exact fun r hr => absurd hr List.not_mem_nil
  | cons r rs ih =>
      rw [List.foldlM_cons, Except.bind_eq_ok] at h
      obtain ⟨m₁, hadd, hrest⟩ := h
      intro r' hr'
      rcases List.mem_cons.mp hr' with rfl | hr'
      · unfold addScheme at hadd
        rw [Except.bind_eq_ok] at hadd
        obtain ⟨scheme, hscheme, -⟩ := hadd
        exact ⟨scheme, hscheme⟩
      · exact ih hrest r' hr'

def SimpleKeyStore.Divided (ks : SimpleKeyStore Priv Pub) : Prop :=
  ∀ r : AuthenticationRole, (ks.nodePublicKeys r).isSome →
    (r = .usigAuthen ↔ ks.nodeKeySpec r.value = some .sgxEcdsa)

theorem divided_of_new {order : RoleOrder} (h : Authenticator.new lib order id ks usig = .ok a) :
    ks.Divided := by
  unfold Authenticator.new at h
  rw [Except.bind_eq_ok] at h
  obtain ⟨authschemes, hfold, -⟩ := h
  intro r hr
  have hmem : r ∈ ks.nodeRoles order := List.mem_filter.mpr ⟨order.mem r, hr⟩
  obtain ⟨scheme, hscheme⟩ := addScheme_eq_ok hfold r hmem
  unfold schemeFor at hscheme
  dsimp only at hscheme
  split_ifs at hscheme with hspec
  rwa [ne_eq, not_not, decide_eq_decide] at hspec

theorem Authenticator.BuiltFrom.authscheme (h : a.BuiltFrom lib reader roles id)
    {r : AuthenticationRole} {keyspec : KeySpec} (hr : r ≠ .usigAuthen)
    (hspec : a.ks.nodeKeySpec r.value = some keyspec) :
    keyspec = .ecdsa ∧ a.authscheme r.value = some (r, .publicAuthen (publicScheme lib)) := by
  obtain ⟨hconsistent, -, _, _, _, -, hnew⟩ := h.loaded
  have hdivided := divided_of_new hnew
  unfold SimpleKeyStore.nodeKeySpec at hspec
  rw [SimpleKeyStore.keymap_value, Option.map_eq_some_iff] at hspec
  obtain ⟨⟨spec, keys⟩, hkeymap, hspec⟩ := hspec
  cases hspec
  have hecdsa : spec = .ecdsa := by
    cases spec with
    | ecdsa => rfl
    | sgxEcdsa =>
        apply absurd _ hr
        apply (hdivided r (by rw [hkeymap]; rfl)).mpr
        simp [SimpleKeyStore.nodeKeySpec, hkeymap]
  subst hecdsa
  have hfits := hconsistent r
  rw [hkeymap] at hfits
  refine ⟨rfl, ?_⟩
  unfold Authenticator.authscheme
  rw [AuthenticationRole.ofValue_value, Option.bind_some]
  generalize hscheme : a.authschemes r = scheme at hfits ⊢
  cases hfits
  rfl

/-- What a node accepts as a UI has passed with the key that the node has of the USIG. -/
theorem Authenticator.BuiltFrom.passed (hnil : lib.x509.marshalPKIXPublicKey nilKey = none)
    (h : a.BuiltFrom lib reader roles id) {id' : UInt32} {m tag : Bytes}
    (hok : (a.verifyMessageAuthenTag lib (AuthenticationRole.value .usigAuthen) id' m tag).2 =
      .ok ()) :
    ∃ key epochs, a.ks.nodePublicKey (AuthenticationRole.value .usigAuthen) id' =
      .ok (.ecdsa key) ∧ Passed lib.toLibraries epochs ⟨m, tag, .ecdsa key⟩ := by
  obtain ⟨hconsistent, _, _, _, _, -, hnew⟩ := h.loaded
  obtain ⟨keymap, key, hkeymap, hkey, hverifies⟩ := hconsistent.verifies hnil hok
  have hspec : keymap.keyspec = .sgxEcdsa := by
    have hdivided := divided_of_new hnew .usigAuthen (by
      rw [SimpleKeyStore.keymap_value] at hkeymap
      rw [hkeymap]
      rfl)
    have hspec := hdivided.mp rfl
    rw [SimpleKeyStore.nodeKeySpec, hkeymap] at hspec
    exact Option.some.inj hspec
  rw [hspec] at hverifies
  obtain ⟨ui, epoch, signature, hui, hcert, hcertified⟩ := hverifies
  obtain ⟨b, hmarshal⟩ : ∃ b, lib.x509.marshalPKIXPublicKey (.ecdsa key) = some b := by
    obtain ⟨b, -, hmarshal, -⟩ := hcertified
    exact ⟨b, hmarshal⟩
  refine ⟨key, fun _ => some epoch, ?_, ui, epoch, signature, (lib.sha256 b).bytes.take 8, hui,
    hcert, hcertified, ?_, rfl⟩
  · rw [SimpleKeyStore.nodePublicKey, hkeymap]
    simp only [PublicKeySet.lookup, hkey]
  · rw [makeUSIGKeyFingerprint, hmarshal]

end Building

/-- How the protocol and the enclaves of a network belong together. A UI is accepted in the protocol
only if the authenticator of some node accepts it. Each replica runs one enclave instance, on which
these are the ecalls. With the key that nodes have of its USIG, the signatures in accepted UIs are
valid only for what the instance has certified. Neither this data nor messages have the digest of
others. -/
structure Enclosed (lib : KeyLibraries Priv Pub Nonce) (file : Bytes)
    (es : UInt32 → List (Event Priv SgxPublicKey Signature Nonce)) (crypto : Crypto) : Prop where
  accepted : ∀ id m tag, crypto.verifyMessageAuthenTag .usigAuthen id m tag = true →
    ∃ roles i, ∃ a : Authenticator Priv Pub Nonce, a.BuiltFrom lib file roles i ∧
      (a.verifyMessageAuthenTag lib (AuthenticationRole.value .usigAuthen) id m tag).2 = .ok ()
  run : ∀ id, ∃ privKey pubKey epoch calls,
    es id = events lib.sgx (start privKey pubKey epoch) calls ∧
      (es id).countP Event.creates < 2 ^ 64
  signed : ∀ roles i, ∀ a : Authenticator Priv Pub Nonce, a.BuiltFrom lib file roles i → ∀ id key,
    a.ks.nodePublicKey (AuthenticationRole.value .usigAuthen) id = .ok (.ecdsa key) → ∀ m tag,
      crypto.verifyMessageAuthenTag .usigAuthen id m tag = true → ∀ sig,
        tagSignature lib.toLibraries tag = some sig → ∀ hash : Digest,
          lib.ecdsa.verify key hash.bytes sig = true → ∃ e ∈ es id, e.creates = true ∧
            ∃ digest counter, Certifies lib.sgx e digest counter ∧
              hash = lib.sha256 (CertData.bytes ⟨digest, e.before.epoch, counter⟩)
  collisionFree : ∀ id, ∀ e ∈ es id, ∀ digest counter, Certifies lib.sgx e digest counter →
    ∀ data : CertData, lib.sha256 data.bytes =
      lib.sha256 (CertData.bytes ⟨digest, e.before.epoch, counter⟩) →
        data = ⟨digest, e.before.epoch, counter⟩
  digests : Set.InjOn (messageDigest lib.toLibraries)
    {m | ∃ id tag, crypto.verifyMessageAuthenTag .usigAuthen id m tag = true}

/-- A replica's key is held by its instance. -/
theorem Enclosed.held {lib : KeyLibraries Priv Pub Nonce} {file : Bytes}
    {es : UInt32 → List (Event Priv SgxPublicKey Signature Nonce)} {crypto : Crypto}
    (h : Enclosed lib file es crypto) {roles : List ℤ} {i id : UInt32}
    {a : Authenticator Priv Pub Nonce} (ha : a.BuiltFrom lib file roles i) {key : Pub}
    (hkey : a.ks.nodePublicKey (AuthenticationRole.value .usigAuthen) id = .ok (.ecdsa key))
    {cs : List (TagCall Pub)}
    (hcs : ∀ c ∈ cs, crypto.verifyMessageAuthenTag .usigAuthen id c.m c.tag = true) :
    Held lib.toLibraries (fun _ : Unit => es id) key cs where
  signed c hc _ sig hsig hash hverify :=
    ⟨(), h.signed roles i a ha id key hkey c.m c.tag (hcs c hc) sig hsig hash hverify⟩
  collisionFree _ := h.collisionFree id
  distinct _ _ _ _ _ _ _ _ _ := rfl
  once _ e he e' he' digest digest' counter hcreates hcreates' hcert hcert' := by
    obtain ⟨privKey, pubKey, epoch, calls, hes, hlt⟩ := h.run id
    rw [hes] at he he' hlt
    exact unique_events hlt he he' hcreates hcreates' hcert hcert'

section Network

variable {lib : KeyGenerators Priv Pub Nonce} {opts : TestnetKeyOpts}
  {draws : AuthenticationRole → ℕ → Draw Priv} {file : Bytes}

/-- The tag of a node in a test network is accepted by every node, whatever calls have been made on
the authenticators of both. -/
theorem tags_accepted (hlib : lib.Faithful) (hcorrect : ∀ key md nonce,
      lib.ecdsa.verify (lib.ecdsa.publicKey key) md (lib.ecdsa.sign key md nonce) = true)
    (hfew : ∀ r, opts.number r ≤ 2 ^ 32) (h : generateTestnetKeys lib opts draws = .ok file)
    {roles roles' : List ℤ} {i j : UInt32} {a b : Authenticator Priv Pub Nonce}
    (ha : a.BuiltFrom lib.toKeyLibraries file roles i)
    (hb : b.BuiltFrom lib.toKeyLibraries file roles' j) {r : AuthenticationRole}
    (hr : r.value ∈ roles) (hne : r ≠ .usigAuthen) (msg : Bytes) (nonce : Nonce)
    (calls : USIG.CreateCalls Nonce) :
    ∃ tag, (a.generateMessageAuthenTag lib.toKeyLibraries r.value msg (some nonce) calls).2 =
        .ok tag ∧
      (b.verifyMessageAuthenTag lib.toKeyLibraries r.value i msg tag).2 = .ok () := by
  obtain ⟨keyspec, keys, hgenerates, hload⟩ := provides_of_generate hlib hfew h
  obtain ⟨-, order, _, _, _, hks, -⟩ := ha.loaded
  obtain ⟨-, order', _, _, _, hks', -⟩ := hb.loaded
  have hprovides := hload order roles i a.ks hks
  have hprovides' := hload order' roles' j b.ks hks'
  obtain ⟨key, hkey, hprivate, -⟩ := hprovides.privateKey r hr
  have hpublic := hprovides'.nodePublicKey r i
  rw [hkey] at hpublic
  obtain ⟨hspec, hscheme⟩ := ha.authscheme hne (hprovides.nodeKeySpec r)
  obtain ⟨-, hscheme'⟩ := hb.authscheme hne (hprovides'.nodeKeySpec r)
  have hgen := hgenerates.generated r _ key hkey
  rw [hspec] at hgen
  obtain ⟨priv, pub⟩ := key
  cases hgen with
  | @ecdsa k _ =>
      refine ⟨lib.asn1.marshal (lib.ecdsa.sign k (msg ++ (lib.sha256 []).bytes) nonce), ?_, ?_⟩
      · unfold Authenticator.generateMessageAuthenTag
        rw [hscheme, hprivate]
        rfl
      · unfold Authenticator.verifyMessageAuthenTag
        rw [hpublic, hscheme']
        dsimp only [AuthenticationScheme.verifyAuthenticationTag]
        rw [publicScheme, verifyAuthenticationTag_marshal, hcorrect]
        rfl

/-- The network provides what the protocol assumes of UIs. -/
theorem uniqueUI_of_enclosed (hlib : lib.Faithful) (hsound : lib.toLibraries.Sound)
    (hnil : lib.x509.marshalPKIXPublicKey nilKey = none) (hfew : ∀ r, opts.number r ≤ 2 ^ 32)
    (h : generateTestnetKeys lib opts draws = .ok file)
    {es : UInt32 → List (Event Priv SgxPublicKey Signature Nonce)} {crypto : Crypto}
    (hencl : Enclosed lib.toKeyLibraries file es crypto) : UniqueUI crypto := by
  obtain ⟨keyspec, keys, -, hload⟩ := provides_of_generate hlib hfew h
  intro id ui ui' m m' hcounter _ hm hm'
  obtain ⟨roles, i, a, ha, hok⟩ := hencl.accepted id m _ hm
  obtain ⟨roles', i', a', ha', hok'⟩ := hencl.accepted id m' _ hm'
  obtain ⟨key, epochs, hkey, hpassed⟩ := ha.passed hnil hok
  obtain ⟨key', epochs', hkey', hpassed'⟩ := ha'.passed hnil hok'
  have hsame : key = key' := by
    obtain ⟨-, order, _, _, _, hks, -⟩ := ha.loaded
    obtain ⟨-, order', _, _, _, hks', -⟩ := ha'.loaded
    have hpublic := (hload order roles i a.ks hks).nodePublicKey .usigAuthen id
    have hpublic' := (hload order' roles' i' a'.ks hks').nodePublicKey .usigAuthen id
    cases (hkey.symm.trans hpublic).trans (hpublic'.symm.trans hkey')
    rfl
  subst hsame
  have hcs : ∀ c ∈ ([⟨m, ui.marshalBinary, .ecdsa key⟩, ⟨m', ui'.marshalBinary, .ecdsa key⟩] :
      List (TagCall Pub)), crypto.verifyMessageAuthenTag .usigAuthen id c.m c.tag = true := by
    simp [hm, hm']
  have hheld := hencl.held ha hkey hcs
  obtain ⟨-, e, he, hcreates, -, counter, htag, hcertifies⟩ :=
    hheld.certifies hsound (by simp) hpassed rfl
  obtain ⟨-, e', he', hcreates', -, counter', htag', hcertifies'⟩ :=
    hheld.certifies hsound (by simp) hpassed' rfl
  have hcounters : counter = counter' := by
    rw [tagCounter, tagUI_of_unmarshalBinary (UI.unmarshalBinary_marshalBinary _)] at htag htag'
    rw [← Option.some.inj htag, ← Option.some.inj htag']
    exact hcounter
  subst hcounters
  exact hencl.digests ⟨id, _, hm⟩ ⟨id, _, hm'⟩
    (hheld.once () e he e' he' _ _ counter hcreates hcreates' hcertifies hcertifies')

end Network

end Authentication

namespace Concrete

open BigEndian USIG USIGEnclave Authentication

/-- The replica accepts the tag of the client. -/
theorem tags_accepted_smallNetwork : ∃ a b tag,
    newAuthenticator smallNetworkGenerators.toKeyLibraries anyOrder anyOrder [3] 0 (some []) =
      .ok a ∧
    newAuthenticator smallNetworkGenerators.toKeyLibraries anyOrder anyOrder [1, 2] 0 (some []) =
      .ok b ∧
    (a.generateMessageAuthenTag smallNetworkGenerators.toKeyLibraries 3 [1] (some ())
      ⟨success, success, success, ()⟩).2 = .ok tag ∧
    (b.verifyMessageAuthenTag smallNetworkGenerators.toKeyLibraries 3 0 [1] tag).2 = .ok () := by
  obtain ⟨a, ha⟩ : ∃ a, newAuthenticator smallNetworkGenerators.toKeyLibraries anyOrder anyOrder
    [3] 0 (some []) = .ok a := ⟨_, rfl⟩
  obtain ⟨b, hb⟩ : ∃ b, newAuthenticator smallNetworkGenerators.toKeyLibraries anyOrder anyOrder
    [1, 2] 0 (some []) = .ok b := ⟨_, rfl⟩
  obtain ⟨tag, htag, haccepted⟩ := tags_accepted faithful_smallNetworkGenerators
    sound_markingLibraries.correct few_smallNetworkOpts generate_smallNetwork (.new ha) (.new hb)
    (List.mem_singleton_self (AuthenticationRole.value .clientAuthen)) (by decide) [1] ()
    ⟨success, success, success, ()⟩
  exact ⟨a, b, tag, ha, hb, htag, haccepted⟩

def enclosedCrypto : Crypto :=
  ⟨id, fun _ id m tag => id == 0 && m == [] && tag == certifiedTag, fun _ _ _ => [], fun _ _ => []⟩

def nodeEnclave : Enclave Unit SgxPublicKey := start () ⟨[], []⟩ 0

def nodeInit : InitCalls Unit SgxPublicKey :=
  ⟨success, 7, success, success, (), ⟨(bigEndian 32 1).reverse, (bigEndian 32 2).reverse⟩, 64, 32⟩

theorem exists_node : ∃ a, newWithSGXUSIG smallNetworkGenerators.toKeyLibraries anyOrder anyOrder
    [2] 0 (some []) (.ok nodeEnclave) nodeInit = .ok a ∧
      (a.verifyMessageAuthenTag smallNetworkGenerators.toKeyLibraries 2 0 [] certifiedTag).2 =
        .ok () := by
  refine ⟨_, rfl, ?_⟩
  have hverify : USIG.verifyAuthenticationTag smallNetworkGenerators.toLibraries [] certifiedTag
      (.ecdsa (1, 2)) (fun _ => none) = _ := accepts_certifiedCall.verifyAuthenticationTag
  change (AuthenticationScheme.verifyAuthenticationTag smallNetworkGenerators.toKeyLibraries
    (.sgxUSIG _ fun _ => none) [] certifiedTag (.ecdsa (1, 2))).2.mapError AuthenFault.ofTag =
      .ok ()
  unfold AuthenticationScheme.verifyAuthenticationTag
  dsimp only
  rw [hverify]
  rfl

theorem enclosed_smallNetwork : Enclosed smallNetworkGenerators.toKeyLibraries []
    (fun _ => certifyingEvents) enclosedCrypto where
  accepted id m tag h := by
    simp only [enclosedCrypto, Bool.and_eq_true, beq_iff_eq] at h
    obtain ⟨⟨rfl, rfl⟩, rfl⟩ := h
    obtain ⟨a, ha, hok⟩ := exists_node
    exact ⟨[2], 0, a, .newWithSGXUSIG ha, hok⟩
  run _ := ⟨(), ⟨[], []⟩, 0, certifyingCalls, rfl, by decide⟩
  signed _ _ _ _ id key _ m tag h sig hsig hash hverify := by
    simp only [enclosedCrypto, Bool.and_eq_true, beq_iff_eq] at h
    have hcs : ∀ c ∈ [(⟨m, tag, .ecdsa key⟩ : TagCall (ℕ × ℕ))], c.tag = certifiedTag := by
      simp [h.2]
    obtain ⟨-, hsigned⟩ := (held_certifiedTag key hcs).signed _ (List.mem_singleton_self _) rfl sig
      hsig hash hverify
    exact hsigned
  collisionFree _ := by
    have hcs : ∀ c ∈ [certifiedCall], c.tag = certifiedTag := by simp [certifiedCall]
    exact (held_certifiedTag (1, 2) hcs).collisionFree ()
  digests := by
    rintro m ⟨id, tag, hm⟩ m' ⟨id', tag', hm'⟩ -
    simp only [enclosedCrypto, Bool.and_eq_true, beq_iff_eq] at hm hm'
    exact hm.1.2.trans hm'.1.2.symm

theorem uniqueUI_smallNetwork :
    enclosedCrypto.verifyMessageAuthenTag .usigAuthen 0 [] certifiedTag = true ∧
      UniqueUI enclosedCrypto :=
  ⟨by simp [enclosedCrypto], uniqueUI_of_enclosed faithful_smallNetworkGenerators
    sound_markingLibraries rfl few_smallNetworkOpts generate_smallNetwork enclosed_smallNetwork⟩

end Concrete

end MinBFT
