import MinBFT.Messages
import MinBFT.Lib.BigEndian

/-!
# The USIG enclave

`usig/sgx/enclave/usig.c`: the ecalls of one enclave instance over its static variables. What the
SGX library does in a call is an input of the ecall: the status it returns and what it leaves in the
memory passed to it, whether or not it succeeds.

An instance certifies nothing before it is initialised, and from then on its key pair and its epoch
stay the same. The `k`-th certificate is for counter value `k`.
-/

namespace MinBFT

namespace USIGEnclave

open BigEndian

abbrev Status := UInt32

def success : Status := 0

def unexpected : Status := 1

@[ext] structure Digest where
  bytes : Bytes
  length_eq : bytes.length = 32
deriving DecidableEq

/-- `usig_cert_data_t`. -/
structure CertData where
  digest : Digest
  epoch : UInt64
  counter : UInt64
deriving DecidableEq

/-- The packed structure in memory, and what `VerifySignature` composes: the numbers are
little-endian. -/
def CertData.bytes (d : CertData) : Bytes :=
  d.digest.bytes ++ (uint64 d.epoch).reverse ++ (uint64 d.counter).reverse

variable {Priv Pub Sig Nonce : Type}

structure Sgx (Priv Sig Nonce : Type) where
  sealedDataSize : UInt32
  ecdsaSign : Priv → Bytes → Nonce → Sig

structure Enclave (Priv Pub : Type) where
  privKey : Priv
  pubKey : Pub
  epoch : UInt64
  initialized : Bool
  counter : UInt64
deriving DecidableEq

/-- What the library calls in `ecall_usig_init` return and leave in memory. The key pair is either
created or unsealed. -/
structure InitCalls (Priv Pub : Type) where
  readRand : Status
  epoch : UInt64
  openContext : Status
  key : Status
  privKey : Priv
  pubKey : Pub
  pubKeySize : UInt32
  privKeySize : UInt32

/-- The ecalls, each with what the library calls in it do. -/
inductive Ecall (Priv Pub Nonce : Type) where
  | init (sealedDataSize : Option UInt32) (calls : InitCalls Priv Pub)
  | createUI (digest : Digest) (openContext sign : Status) (nonce : Nonce)
  | getEpoch
  | getPubKey
  | getSealedKeySize
  | sealKey (sealData : Status)

/-- Out parameters. Those not written are zero when they leave the enclave. -/
inductive Out (Pub Sig : Type) where
  | nothing
  | ui (counter : UInt64) (signature : Option Sig)
  | epoch (epoch : UInt64)
  | pubKey (pubKey : Option Pub)
  | sealedKeySize (size : UInt32)

structure Response (Pub Sig : Type) where
  status : Status
  out : Out Pub Sig

/-! ## The ecalls -/

section Ecalls

variable (sgx : Sgx Priv Sig Nonce)

def ecallCreateUI (s : Enclave Priv Pub) (digest : Digest) (openContext sign : Status)
    (nonce : Nonce) : Enclave Priv Pub × Response Pub Sig :=
  if !s.initialized then (s, ⟨unexpected, .ui 0 none⟩)
  else if openContext ≠ success then (s, ⟨openContext, .ui 0 none⟩)
  else
    let data : CertData := ⟨digest, s.epoch, s.counter⟩
    if sign ≠ success then (s, ⟨sign, .ui data.counter none⟩)
    else
      ({ s with counter := s.counter + 1 },
        ⟨sign, .ui data.counter (some (sgx.ecdsaSign s.privKey data.bytes nonce))⟩)

def generateKey (s : Enclave Priv Pub) (calls : InitCalls Priv Pub) : Enclave Priv Pub × Status :=
  if calls.openContext ≠ success then (s, calls.openContext)
  else ({ s with privKey := calls.privKey, pubKey := calls.pubKey }, calls.key)

def unsealKey (s : Enclave Priv Pub) (size : UInt32) (calls : InitCalls Priv Pub) :
    Enclave Priv Pub × Status :=
  if size ≠ sgx.sealedDataSize then (s, unexpected)
  else
    let s := { s with privKey := calls.privKey, pubKey := calls.pubKey }
    if calls.key ≠ success then (s, calls.key)
    else if calls.pubKeySize ≠ 64 ∨ calls.privKeySize ≠ 32 then (s, unexpected)
    else (s, calls.key)

def ecallInit (s : Enclave Priv Pub) (sealedDataSize : Option UInt32)
    (calls : InitCalls Priv Pub) : Enclave Priv Pub × Response Pub Sig :=
  if s.initialized then (s, ⟨unexpected, .nothing⟩)
  else
    let s := { s with epoch := calls.epoch }
    if calls.readRand ≠ success then (s, ⟨calls.readRand, .nothing⟩)
    else
      let (s, ret) := match sealedDataSize with
        | some size => unsealKey sgx s size calls
        | none => generateKey s calls
      if ret ≠ success then (s, ⟨ret, .nothing⟩)
      else ({ s with initialized := true }, ⟨ret, .nothing⟩)

def ecallGetEpoch (s : Enclave Priv Pub) : Response Pub Sig :=
  if !s.initialized then ⟨unexpected, .epoch 0⟩ else ⟨success, .epoch s.epoch⟩

def ecallGetPubKey (s : Enclave Priv Pub) : Response Pub Sig :=
  if !s.initialized then ⟨unexpected, .pubKey none⟩ else ⟨success, .pubKey (some s.pubKey)⟩

/-- What is sealed can be read by the enclave only. -/
def ecallSealKey (s : Enclave Priv Pub) (sealData : Status) : Response Pub Sig :=
  if !s.initialized then ⟨unexpected, .nothing⟩ else ⟨sealData, .nothing⟩

def step (s : Enclave Priv Pub) : Ecall Priv Pub Nonce → Enclave Priv Pub × Response Pub Sig
  | .init sealedDataSize calls => ecallInit sgx s sealedDataSize calls
  | .createUI digest openContext sign nonce => ecallCreateUI sgx s digest openContext sign nonce
  | .getEpoch => (s, ecallGetEpoch s)
  | .getPubKey => (s, ecallGetPubKey s)
  | .getSealedKeySize => (s, ⟨success, .sealedKeySize sgx.sealedDataSize⟩)
  | .sealKey sealData => (s, ecallSealKey s sealData)

end Ecalls

structure Event (Priv Pub Sig Nonce : Type) where
  before : Enclave Priv Pub
  call : Ecall Priv Pub Nonce
  response : Response Pub Sig
  after : Enclave Priv Pub

namespace Event

/-- The event is a successful `ecall_usig_create_ui`. -/
def creates (e : Event Priv Pub Sig Nonce) : Bool :=
  match e.call with
  | .createUI _ _ _ _ => e.response.status == success
  | _ => false

def initializes (e : Event Priv Pub Sig Nonce) : Bool :=
  match e.call with
  | .init _ _ => e.response.status == success
  | _ => false

end Event

section Runs

variable (sgx : Sgx Priv Sig Nonce)

def event (s : Enclave Priv Pub) (call : Ecall Priv Pub Nonce) : Event Priv Pub Sig Nonce :=
  ⟨s, call, (step sgx s call).2, (step sgx s call).1⟩

def events (s : Enclave Priv Pub) : List (Ecall Priv Pub Nonce) → List (Event Priv Pub Sig Nonce)
  | [] => []
  | call :: calls => event sgx s call :: events (step sgx s call).1 calls

def final (s : Enclave Priv Pub) (calls : List (Ecall Priv Pub Nonce)) : Enclave Priv Pub :=
  calls.foldl (fun s call => (step sgx s call).1) s

/-- A new enclave instance; the keys and the epoch are whatever the memory holds. -/
def start (privKey : Priv) (pubKey : Pub) (epoch : UInt64) : Enclave Priv Pub :=
  ⟨privKey, pubKey, epoch, false, 1⟩

end Runs

variable {sgx : Sgx Priv Sig Nonce} {s : Enclave Priv Pub}

structure SameIdentity (s s' : Enclave Priv Pub) : Prop where
  privKey : s'.privKey = s.privKey
  pubKey : s'.pubKey = s.pubKey
  epoch : s'.epoch = s.epoch

theorem SameIdentity.refl (s : Enclave Priv Pub) : SameIdentity s s := ⟨rfl, rfl, rfl⟩

theorem SameIdentity.trans {s s' s'' : Enclave Priv Pub} (h : SameIdentity s s')
    (h' : SameIdentity s' s'') : SameIdentity s s'' :=
  ⟨h'.privKey.trans h.privKey, h'.pubKey.trans h.pubKey, h'.epoch.trans h.epoch⟩

def Certifies (sgx : Sgx Priv Sig Nonce) (e : Event Priv Pub Sig Nonce) (digest : Digest)
    (counter : UInt64) : Prop :=
  ∃ opened signed nonce, e.call = .createUI digest opened signed nonce ∧
    e.response.out = .ui counter (some (sgx.ecdsaSign e.before.privKey
      (CertData.bytes ⟨digest, e.before.epoch, counter⟩) nonce))

/-- The event is an `ecall_usig_create_ui` that has no effect and exposes no signature. -/
def Event.Refused (e : Event Priv Pub Sig Nonce) : Prop :=
  e.after = e.before ∧ ∃ counter, e.response.out = .ui counter none

def Event.isCreateUI (e : Event Priv Pub Sig Nonce) : Bool :=
  match e.call with
  | .createUI _ _ _ _ => true
  | _ => false

inductive StepCases (sgx : Sgx Priv Sig Nonce) (e : Event Priv Pub Sig Nonce) : Prop where
  | created (hcreates : e.creates = true) (hinitializes : e.initializes = false)
      (hinit : e.before.initialized = true)
      (hcertifies : ∃ digest, Certifies sgx e digest e.before.counter)
      (hafter : e.after = { e.before with counter := e.before.counter + 1 })
  | initialized (hcall : e.isCreateUI = false) (hinitializes : e.initializes = true)
      (hinit : e.before.initialized = false) (hinit' : e.after.initialized = true)
      (hcounter : e.after.counter = e.before.counter)
  | other (hcreates : e.creates = false) (hinitializes : e.initializes = false)
      (hinit : e.after.initialized = e.before.initialized)
      (hcounter : e.after.counter = e.before.counter)
      (hsame : e.before.initialized = true → e.after = e.before)
      (hrefused : e.isCreateUI = true → e.Refused)

theorem Event.isCreateUI_of_creates {e : Event Priv Pub Sig Nonce} (h : e.creates = true) :
    e.isCreateUI = true := by
  unfold creates at h
  unfold isCreateUI
  cases hcall : e.call with
  | createUI => rfl
  | _ =>
      rw [hcall] at h
      cases h

theorem counter_unsealKey (size : UInt32) (calls : InitCalls Priv Pub) :
    (unsealKey sgx s size calls).1.counter = s.counter ∧
      (unsealKey sgx s size calls).1.initialized = s.initialized := by
  unfold unsealKey
  dsimp only
  split_ifs <;> exact ⟨rfl, rfl⟩

theorem counter_generateKey (calls : InitCalls Priv Pub) :
    (generateKey s calls).1.counter = s.counter ∧
      (generateKey s calls).1.initialized = s.initialized := by
  unfold generateKey
  split_ifs <;> exact ⟨rfl, rfl⟩

/-- An `ecall_usig_init` that fails. -/
theorem stepCases_of_init_failed {sealedDataSize : Option UInt32} {calls : InitCalls Priv Pub}
    {s' : Enclave Priv Pub} {ret : Status} (hret : ret ≠ success)
    (hinit : s'.initialized = s.initialized) (hcounter : s'.counter = s.counter)
    (hsame : s.initialized = true → s' = s) :
    StepCases sgx ⟨s, .init sealedDataSize calls, ⟨ret, .nothing⟩, s'⟩ :=
  .other rfl (beq_eq_false_iff_ne.mpr hret) hinit hcounter hsame fun h => nomatch h

theorem stepCases_init (s : Enclave Priv Pub) (sealedDataSize : Option UInt32)
    (calls : InitCalls Priv Pub) :
    StepCases sgx (event sgx s (.init sealedDataSize calls)) := by
  have hkeys : ∀ t : Enclave Priv Pub,
      (match sealedDataSize with
        | some size => unsealKey sgx t size calls
        | none => generateKey t calls).1.counter = t.counter ∧
      (match sealedDataSize with
        | some size => unsealKey sgx t size calls
        | none => generateKey t calls).1.initialized = t.initialized := by
    intro t
    cases sealedDataSize with
    | none => exact counter_generateKey calls
    | some size => exact counter_unsealKey size calls
  unfold event step ecallInit
  dsimp only
  split_ifs with hinit hrand hret
  · exact stepCases_of_init_failed (by decide) rfl rfl fun _ => rfl
  · exact stepCases_of_init_failed hrand rfl rfl fun h => absurd h hinit
  · exact stepCases_of_init_failed hret (hkeys _).2 (hkeys _).1 fun h => absurd h hinit
  · rw [not_not.mp hret]
    exact .initialized rfl rfl (Bool.not_eq_true _ ▸ hinit) rfl (hkeys _).1

/-- An `ecall_usig_create_ui` that fails. -/
theorem stepCases_of_createUI_failed {digest : Digest} {opened signed ret : Status} {nonce : Nonce}
    {counter : UInt64} (hret : ret ≠ success) :
    StepCases sgx ⟨s, .createUI digest opened signed nonce, ⟨ret, .ui counter none⟩, s⟩ :=
  .other (beq_eq_false_iff_ne.mpr hret) rfl rfl rfl (fun _ => rfl) fun _ => ⟨rfl, counter, rfl⟩

theorem stepCases_createUI (s : Enclave Priv Pub) (digest : Digest) (opened signed : Status)
    (nonce : Nonce) : StepCases sgx (event sgx s (.createUI digest opened signed nonce)) := by
  unfold event step ecallCreateUI
  dsimp only
  split_ifs with hinit hopened hsigned
  · exact stepCases_of_createUI_failed (by decide)
  · exact stepCases_of_createUI_failed hopened
  · exact stepCases_of_createUI_failed hsigned
  · exact .created (beq_iff_eq.mpr (not_not.mp hsigned)) rfl (by simpa using hinit)
      ⟨digest, opened, signed, nonce, rfl, rfl⟩ rfl

theorem stepCases (sgx : Sgx Priv Sig Nonce) (s : Enclave Priv Pub)
    (call : Ecall Priv Pub Nonce) : StepCases sgx (event sgx s call) := by
  cases call with
  | init sealedDataSize calls => exact stepCases_init s sealedDataSize calls
  | createUI digest opened signed nonce => exact stepCases_createUI s digest opened signed nonce
  | _ => exact .other rfl rfl rfl rfl (fun _ => rfl) fun h => nomatch h

/-! ## Runs -/

section Runs

variable (sgx : Sgx Priv Sig Nonce)

theorem final_cons (s : Enclave Priv Pub) (call : Ecall Priv Pub Nonce)
    (calls : List (Ecall Priv Pub Nonce)) :
    final sgx s (call :: calls) = final sgx (event sgx s call).after calls := rfl

theorem events_cons (s : Enclave Priv Pub) (call : Ecall Priv Pub Nonce)
    (calls : List (Ecall Priv Pub Nonce)) :
    events sgx s (call :: calls) =
      event sgx s call :: events sgx (event sgx s call).after calls := rfl

/-- The counter is ahead of where it started by the number of UIs created. -/
theorem counter_final (s : Enclave Priv Pub) (calls : List (Ecall Priv Pub Nonce)) :
    (final sgx s calls).counter =
      s.counter + UInt64.ofNat ((events sgx s calls).countP Event.creates) := by
  induction calls generalizing s with
  | nil => simp [final, events]
  | cons call calls ih =>
      rw [final_cons, ih, events_cons, List.countP_cons]
      cases stepCases sgx s call with
      | created hcreates _ _ _ hafter =>
          rw [if_pos hcreates, Nat.add_comm, UInt64.ofNat_add, ← UInt64.add_assoc, hafter]
          rfl
      | initialized hcall _ _ _ hcounter =>
          rw [if_neg (fun h => absurd (Event.isCreateUI_of_creates h) (by simp [hcall])), hcounter,
            Nat.add_zero]
          rfl
      | other hcreates _ _ hcounter =>
          rw [if_neg (by simp [hcreates]), hcounter, Nat.add_zero]
          rfl

/-- An instance is initialised exactly after a successful `ecall_usig_init`. -/
theorem initialized_final (s : Enclave Priv Pub) (calls : List (Ecall Priv Pub Nonce)) :
    (final sgx s calls).initialized =
      (s.initialized || (events sgx s calls).any Event.initializes) := by
  induction calls generalizing s with
  | nil => simp [final, events]
  | cons call calls ih =>
      rw [final_cons, ih, events_cons, List.any_cons]
      cases stepCases sgx s call with
      | created _ _ hinit _ hafter =>
          have hs : s.initialized = true := hinit
          simp [hs, hafter, hinit]
      | initialized _ hinitializes _ hinit' => simp [hinitializes, hinit']
      | other _ hinitializes hinit =>
          rw [hinitializes, hinit, Bool.false_or]
          rfl

end Runs

theorem sameIdentity_step (hs : s.initialized = true) (call : Ecall Priv Pub Nonce) :
    SameIdentity s (event sgx s call).after ∧ (event sgx s call).after.initialized = true := by
  cases stepCases sgx s call with
  | created _ _ hinit _ hafter =>
      rw [hafter]
      exact ⟨⟨rfl, rfl, rfl⟩, hinit⟩
  | initialized _ _ hinit => exact absurd (hs.symm.trans hinit) (by decide)
  | other _ _ _ _ hsame =>
      rw [hsame hs]
      exact ⟨.refl s, hs⟩

theorem sameIdentity_events (hs : s.initialized = true) (calls : List (Ecall Priv Pub Nonce)) :
    ∀ e ∈ events sgx s calls, SameIdentity s e.before ∧ SameIdentity s e.after := by
  induction calls generalizing s with
  | nil => exact fun e he => nomatch he
  | cons call calls ih =>
      obtain ⟨hsame, hinit⟩ := sameIdentity_step hs call
      intro e he
      rcases List.mem_cons.mp he with rfl | he
      · exact ⟨.refl s, hsame⟩
      · obtain ⟨hbefore, hafter⟩ := ih hinit e he
        exact ⟨hsame.trans hbefore, hsame.trans hafter⟩

theorem sameIdentity_final (hs : s.initialized = true) (calls : List (Ecall Priv Pub Nonce)) :
    SameIdentity s (final sgx s calls) ∧ (final sgx s calls).initialized = true := by
  induction calls generalizing s with
  | nil => exact ⟨.refl s, hs⟩
  | cons call calls ih =>
      obtain ⟨hsame, hinit⟩ := sameIdentity_step hs call
      obtain ⟨hsame', hinit'⟩ := ih hinit
      exact ⟨hsame.trans hsame', hinit'⟩

/-- An event of a run is an ecall made after those before it. -/
theorem events_split {calls : List (Ecall Priv Pub Nonce)}
    {earlier later : List (Event Priv Pub Sig Nonce)} {e : Event Priv Pub Sig Nonce}
    (h : events sgx s calls = earlier ++ e :: later) :
    ∃ calls' call calls'', earlier = events sgx s calls' ∧
      e = event sgx (final sgx s calls') call ∧ later = events sgx e.after calls'' := by
  induction calls generalizing s earlier with
  | nil => simp [events] at h
  | cons call calls ih =>
      cases earlier with
      | nil =>
          obtain ⟨rfl, rfl⟩ := List.cons.inj h
          exact ⟨[], call, calls, rfl, rfl, rfl⟩
      | cons e' earlier =>
          obtain ⟨rfl, htail⟩ := List.cons.inj h
          obtain ⟨calls', call', calls'', rfl, he, hlater⟩ := ih htail
          exact ⟨call :: calls', call', calls'', rfl, he, hlater⟩

theorem stepCases_of_mem {calls : List (Ecall Priv Pub Nonce)} {e : Event Priv Pub Sig Nonce}
    (he : e ∈ events sgx s calls) : StepCases sgx e := by
  obtain ⟨earlier, later, h⟩ := List.append_of_mem he
  obtain ⟨calls', call, -, -, rfl, -⟩ := events_split h
  exact stepCases sgx _ call

/-! ## What a USIG guarantees -/

structure Sequential (sgx : Sgx Priv Sig Nonce) (es : List (Event Priv Pub Sig Nonce)) : Prop where
  /-- The `k`-th success comes after an initialisation and certifies counter value `k`. -/
  created : ∀ earlier e later, es = earlier ++ e :: later → e.creates = true →
    (∃ i ∈ earlier, i.initializes = true) ∧
      ∃ digest counter, Certifies sgx e digest counter ∧
        counter.toNat = earlier.countP Event.creates + 1
  /-- A failure exposes no signature and changes nothing. -/
  failed : ∀ e ∈ es, e.isCreateUI = true → e.creates = false → e.Refused
  /-- The epoch and the key pair of an initialised instance never change. -/
  fixed : ∀ earlier i later, es = earlier ++ i :: later → i.initializes = true →
    ∀ e ∈ later, SameIdentity i.after e.before ∧ SameIdentity i.after e.after
  /-- No two digests are certified for one counter value. -/
  unique : ∀ e ∈ es, ∀ e' ∈ es, ∀ digest digest' counter, e.creates = true → e'.creates = true →
    Certifies sgx e digest counter → Certifies sgx e' digest' counter → digest = digest'

theorem Certifies.counter_eq {e : Event Priv Pub Sig Nonce} {digest digest' : Digest}
    {counter counter' : UInt64} (h : Certifies sgx e digest counter)
    (h' : Certifies sgx e digest' counter') : digest = digest' ∧ counter = counter' := by
  obtain ⟨_, _, _, hcall, hout⟩ := h
  obtain ⟨_, _, _, hcall', hout'⟩ := h'
  rw [hcall] at hcall'
  rw [hout] at hout'
  cases hcall'
  exact ⟨rfl, by injection hout'⟩

section Start

variable {privKey : Priv} {pubKey : Pub} {epoch : UInt64} {calls : List (Ecall Priv Pub Nonce)}

theorem created_events
    (hlt : (events sgx (start privKey pubKey epoch) calls).countP Event.creates < 2 ^ 64)
    {earlier later : List (Event Priv Pub Sig Nonce)} {e : Event Priv Pub Sig Nonce}
    (h : events sgx (start privKey pubKey epoch) calls = earlier ++ e :: later)
    (hcreates : e.creates = true) :
    (∃ i ∈ earlier, i.initializes = true) ∧
      ∃ digest counter, Certifies sgx e digest counter ∧
        counter.toNat = earlier.countP Event.creates + 1 := by
  have hcount : earlier.countP Event.creates + 1 < 2 ^ 64 := by
    rw [h, List.countP_append, List.countP_cons, if_pos hcreates] at hlt
    omega
  obtain ⟨calls', call, -, rfl, he, -⟩ := events_split h
  have hbefore : e.before = final sgx (start privKey pubKey epoch) calls' := by rw [he]; rfl
  have hstep : StepCases sgx e := he ▸ stepCases sgx _ call
  cases hstep with
  | created _ _ hinit hcertifies _ =>
      rw [hbefore, initialized_final] at hinit
      obtain ⟨digest, hdigest⟩ := hcertifies
      refine ⟨List.any_eq_true.mp (by simpa [start] using hinit), digest, _, hdigest, ?_⟩
      have hone : (start privKey pubKey epoch).counter.toNat = 1 := rfl
      rw [hbefore, counter_final, UInt64.toNat_add, UInt64.toNat_ofNat', hone]
      omega
  | initialized hcall => simp [Event.isCreateUI_of_creates hcreates] at hcall
  | other hcreates' => simp [hcreates] at hcreates'

/-- A later success has a higher counter. -/
theorem counter_lt_of_later
    (hlt : (events sgx (start privKey pubKey epoch) calls).countP Event.creates < 2 ^ 64)
    {earlier between later : List (Event Priv Pub Sig Nonce)} {e e' : Event Priv Pub Sig Nonce}
    (h : events sgx (start privKey pubKey epoch) calls =
      earlier ++ e :: (between ++ e' :: later))
    (hcreates : e.creates = true) (hcreates' : e'.creates = true) {digest digest' : Digest}
    {counter counter' : UInt64} (hcert : Certifies sgx e digest counter)
    (hcert' : Certifies sgx e' digest' counter') : counter.toNat < counter'.toNat := by
  obtain ⟨-, d, c, hc, hcount⟩ := created_events hlt h hcreates
  have h' : events sgx (start privKey pubKey epoch) calls =
      (earlier ++ e :: between) ++ e' :: later := by
    rw [h, List.append_assoc, List.cons_append]
  obtain ⟨-, d', c', hc', hcount'⟩ := created_events hlt h' hcreates'
  rw [(hcert.counter_eq hc).2, (hcert'.counter_eq hc').2, hcount, hcount', List.countP_append,
    List.countP_cons, if_pos hcreates]
  omega

theorem unique_events
    (hlt : (events sgx (start privKey pubKey epoch) calls).countP Event.creates < 2 ^ 64)
    {e e' : Event Priv Pub Sig Nonce} (he : e ∈ events sgx (start privKey pubKey epoch) calls)
    (he' : e' ∈ events sgx (start privKey pubKey epoch) calls) {digest digest' : Digest}
    {counter : UInt64} (hcreates : e.creates = true) (hcreates' : e'.creates = true)
    (h : Certifies sgx e digest counter) (h' : Certifies sgx e' digest' counter) :
    digest = digest' := by
  obtain ⟨earlier, later, hes⟩ := List.append_of_mem he
  have hmem := he'
  rw [hes, List.mem_append, List.mem_cons] at hmem
  rcases hmem with hearlier | rfl | hlater
  · obtain ⟨earlier', between, rfl⟩ := List.append_of_mem hearlier
    rw [List.append_assoc, List.cons_append] at hes
    exact absurd (counter_lt_of_later hlt hes hcreates' hcreates h' h) (lt_irrefl _)
  · exact (h.counter_eq h').1
  · obtain ⟨between, later', rfl⟩ := List.append_of_mem hlater
    exact absurd (counter_lt_of_later hlt hes hcreates hcreates' h h') (lt_irrefl _)

/-- Every sequence of ecalls on a new instance, with fewer successes than there are counter
values. -/
theorem sequential_events
    (hlt : (events sgx (start privKey pubKey epoch) calls).countP Event.creates < 2 ^ 64) :
    Sequential sgx (events sgx (start privKey pubKey epoch) calls) where
  created _ _ _ h hcreates := created_events hlt h hcreates
  failed e he hcall hcreates := by
    cases stepCases_of_mem he with
    | created hcreates' => simp [hcreates] at hcreates'
    | initialized hcall' => simp [hcall] at hcall'
    | other _ _ _ _ _ hrefused => exact hrefused hcall
  fixed earlier i later h hi := by
    obtain ⟨calls', call, calls'', -, he, rfl⟩ := events_split h
    have hstep : StepCases sgx i := he ▸ stepCases sgx _ call
    cases hstep with
    | created _ hinitializes => simp [hi] at hinitializes
    | initialized _ _ _ hinit' => exact sameIdentity_events hinit' calls''
    | other _ hinitializes => simp [hi] at hinitializes
  unique _ he _ he' _ _ _ hcreates hcreates' h h' :=
    unique_events hlt he he' hcreates hcreates' h h'

end Start

theorem CertData.bytes_injective : Function.Injective CertData.bytes := by
  rintro ⟨⟨b, hb⟩, epoch, counter⟩ ⟨⟨b', hb'⟩, epoch', counter'⟩ h
  unfold bytes at h
  obtain ⟨hfront, hcounter⟩ := List.append_inj' h (by simp)
  obtain ⟨hdigest, hepoch⟩ := List.append_inj hfront (hb.trans hb'.symm)
  cases hdigest
  cases uint64_injective (List.reverse_injective hepoch)
  cases uint64_injective (List.reverse_injective hcounter)
  rfl

end USIGEnclave

namespace Concrete

open USIGEnclave

def plainSgx : Sgx Unit Bytes Unit := ⟨0, fun _ data _ => data⟩

def zeroDigest : Digest := ⟨List.replicate 32 0, rfl⟩

def workingInit : InitCalls Unit Unit := ⟨success, 7, success, success, (), (), 64, 32⟩

/-- An initialisation fails after the epoch has been set, and the first signature fails after the
counter has been written. -/
def troubledCalls : List (Ecall Unit Unit Unit) :=
  [.createUI zeroDigest success success (), .init none { workingInit with key := unexpected },
    .init none workingInit, .createUI zeroDigest success unexpected (),
    .createUI zeroDigest success success (), .getEpoch, .init none workingInit,
    .createUI zeroDigest success success ()]

theorem sequential_troubledCalls :
    Sequential plainSgx (events plainSgx (start () () 0) troubledCalls) :=
  sequential_events (by decide)

end Concrete

end MinBFT
