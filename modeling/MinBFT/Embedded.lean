import MinBFT.Validated
import MinBFT.PreparedRequests

/-!
# Embedded messages

`Message.embedded` lists the messages `makeEmbeddedMessageHandler` hands to the message handler, in
the order it does. A property holds hereditarily when it holds of a message and of everything
embedded in it at any depth.

`Sound` collects what arguments about message contents need of each message: a valid UI, proposals
that are Prepares or NewViews, and message logs that pass `validateMessageLog`. Every validated
message is sound.
-/

namespace MinBFT

def Message.embedded : Message → List Message
  | .certified (.prepare m) => [.request m.request]
  | .certified (.commit m) => [.certified m.proposal]
  | .certified (.viewChange m) =>
      m.viewChangeCert.map .reqViewChange ++ m.messageLog.map .certified
  | .certified (.newView m) => m.newViewCert.map fun vc => .certified (.viewChange vc)
  | _ => []

inductive Hereditarily (P : Message → Prop) : Message → Prop where
  | intro {m : Message} (self : P m) (embedded : ∀ x ∈ m.embedded, Hereditarily P x) :
      Hereditarily P m

namespace Hereditarily

variable {P Q : Message → Prop}

theorem self {m : Message} (h : Hereditarily P m) : P m := by
  cases h with
  | intro hself _ => exact hself

theorem of_embedded {m x : Message} (h : Hereditarily P m) (hx : x ∈ m.embedded) :
    Hereditarily P x := by
  cases h with
  | intro _ hemb => exact hemb x hx

theorem mono (hPQ : ∀ m, P m → Q m) {m : Message} (h : Hereditarily P m) :
    Hereditarily Q m := by
  induction h with
  | intro hself _ ih => exact ⟨hPQ _ hself, ih⟩

theorem proposal {c : Commit} (h : Hereditarily P (.certified (.commit c))) :
    Hereditarily P (.certified c.proposal) :=
  h.of_embedded (List.mem_singleton.mpr rfl)

theorem request {p : Prepare} (h : Hereditarily P (.certified (.prepare p))) :
    Hereditarily P (.request p.request) :=
  h.of_embedded (List.mem_singleton.mpr rfl)

theorem messageLog {vc : ViewChange} (h : Hereditarily P (.certified (.viewChange vc)))
    {m : CertifiedMessage} (hm : m ∈ vc.messageLog) : Hereditarily P (.certified m) :=
  h.of_embedded (List.mem_append_right _ (List.mem_map.mpr ⟨m, hm, rfl⟩))

theorem viewChangeCert {vc : ViewChange} (h : Hereditarily P (.certified (.viewChange vc)))
    {m : ReqViewChange} (hm : m ∈ vc.viewChangeCert) : Hereditarily P (.reqViewChange m) :=
  h.of_embedded (List.mem_append_left _ (List.mem_map.mpr ⟨m, hm, rfl⟩))

theorem newViewCert {nv : NewView} (h : Hereditarily P (.certified (.newView nv)))
    {vc : ViewChange} (hvc : vc ∈ nv.newViewCert) :
    Hereditarily P (.certified (.viewChange vc)) :=
  h.of_embedded (List.mem_map.mpr ⟨vc, hvc, rfl⟩)

/-- The proposal behind a log entry inherits what the entry has. -/
theorem proposed {m : CertifiedMessage} (h : Hereditarily P (.certified m)) :
    Hereditarily P (.certified m.proposed) := by
  cases m with
  | commit c => exact h.proposal
  | _ => exact h

theorem replayed {extract : List ViewChange → Option (List Request)}
    (hextract : ∀ cert reqs, (∀ vc ∈ cert, Hereditarily P (.certified (.viewChange vc))) →
      extract cert = some reqs → ∀ r ∈ reqs, P (.request r))
    {log : List CertifiedMessage} (hlog : ∀ m ∈ log, Hereditarily P (.certified m))
    {prepared reqs : List Request} (hprepared : ∀ r ∈ prepared, P (.request r))
    (h : log.foldlM (replayStep extract) prepared = some reqs) : ∀ r ∈ reqs, P (.request r) := by
  induction log generalizing prepared with
  | nil =>
      cases h
      exact hprepared
  | cons m log ih =>
      rw [List.foldlM_cons] at h
      obtain ⟨prepared', hstep, hrest⟩ := Option.bind_eq_some_iff.mp h
      refine ih (fun x hx => hlog x (.tail m hx)) (fun r hr => ?_) hrest
      have hprop := (hlog m List.mem_cons_self).proposed
      unfold replayStep at hstep
      split at hstep
      · rename_i p heq
        rw [heq] at hprop
        cases hstep
        rcases List.mem_append.mp hr with hr | hr
        · exact hprepared r hr
        · rw [List.mem_singleton.mp hr]
          exact hprop.request.self
      · rename_i nv heq
        rw [heq] at hprop
        exact hextract _ _ (fun vc hvc => hprop.newViewCert hvc) hstep r hr
      · cases hstep

/-- The requests extracted from a certificate are embedded in it. -/
theorem extracted {cert : List ViewChange} {reqs : List Request}
    (hcert : ∀ vc ∈ cert, Hereditarily P (.certified (.viewChange vc)))
    (h : extractPreparedRequests cert = some reqs) : ∀ r ∈ reqs, P (.request r) := by
  unfold extractPreparedRequests at h
  generalize certDepth cert + 1 = d at h
  induction d generalizing cert reqs with
  | zero => cases h
  | succ d ih =>
      unfold extractBounded extractStep at h
      dsimp only at h
      split_ifs at h with hempty
      · refine ih (fun vc hvc => ?_) h
        rw [scanCert_fst] at hvc
        obtain ⟨vc', hvc', hleading⟩ := List.mem_filterMap.mp hvc
        exact (hcert vc' hvc').messageLog (mem_of_leadingViewChange hleading)
      · refine replayed (fun cert reqs hc hx => ih hc hx) (fun m hm => ?_)
          (fun _ hr => absurd hr List.not_mem_nil) h
        rcases maxLog_mem cert with hnil | ⟨vc, hvc, heq⟩
        · rw [hnil] at hm
          exact absurd hm List.not_mem_nil
        · exact (hcert vc hvc).messageLog (mem_of_mem_withoutLeading (heq ▸ hm))

end Hereditarily

abbrev HereditarilyValid (crypto : Crypto) (config : Config) : Message → Prop :=
  Hereditarily (Valid crypto config)

/-- What content arguments need of a single message. -/
def Sound (crypto : Crypto) : Message → Prop
  | .certified m => UIValid crypto m ∧
      match m with
      | .prepare _ => True
      | .commit c => (∃ p, c.proposal = .prepare p) ∨ ∃ nv, c.proposal = .newView nv
      | .viewChange vc => 1 ≤ vc.newView ∧
          validateMessageLog vc.replicaID (vc.newView - 1) vc.messageLog vc.ui.counter = .ok ()
      | .newView nv => 1 ≤ nv.newView
  | _ => True

abbrev HereditarilySound (crypto : Crypto) : Message → Prop := Hereditarily (Sound crypto)

theorem Valid.sound {crypto : Crypto} {config : Config} {m : Message}
    (h : Valid crypto config m) : Sound crypto m := by
  cases m with
  | certified m =>
      refine ⟨h.uiValid, ?_⟩
      cases m with
      | prepare _ => trivial
      | commit _ => exact h.commit.2
      | viewChange _ => exact ⟨h.viewChange.1, h.viewChange.2.2⟩
      | newView _ => exact h.newView.1
  | _ => trivial

theorem HereditarilyValid.sound {crypto : Crypto} {config : Config} {m : Message}
    (h : HereditarilyValid crypto config m) : HereditarilySound crypto m :=
  h.mono fun _ hm => hm.sound

/-- For each replica and counter at most one byte string has a valid UI. -/
def UniqueUI (crypto : Crypto) : Prop :=
  ∀ (id : UInt32) (ui ui' : UI) (b b' : Bytes), ui.counter = ui'.counter → ui.counter ≠ 0 →
    crypto.verifyMessageAuthenTag .usigAuthen id b ui.marshalBinary = true →
    crypto.verifyMessageAuthenTag .usigAuthen id b' ui'.marshalBinary = true → b = b'

/-- Two messages that a USIG cannot tell apart: same sender, same counter, same content. -/
structure SameAuthen (sha256 : Bytes → Bytes) (m m' : CertifiedMessage) : Prop where
  kind : m.kind = m'.kind
  replicaID : m.replicaID = m'.replicaID
  counter : m.counter = m'.counter
  authenBytes : m.authenBytes sha256 = m'.authenBytes sha256

theorem UniqueUI.sameAuthen {crypto : Crypto} (huniq : UniqueUI crypto)
    {m m' : CertifiedMessage} (h : UIValid crypto m) (h' : UIValid crypto m')
    (hid : m.replicaID = m'.replicaID) (hcv : m.counter = m'.counter) :
    SameAuthen crypto.sha256 m m' := by
  have haccepted := h'.2
  rw [CertifiedMessage.uiAccepted, ← hid] at haccepted
  have hbytes := huniq m.replicaID m.ui m'.ui _ _ hcv h.1 h.2 haccepted
  exact ⟨CertifiedMessage.kind_eq_of_authenBytes_eq hbytes, hid, hcv, hbytes⟩

end MinBFT
