import MinBFT.Encoding
import MinBFT.Lib.EState

/-!
# Cached and rebuilt images

To embed a message, `pbMessageFromAPI` reuses the `pb` structure that the message keeps, where
`pb.MessageFromAPI` builds a new one from what the accessors return. A decoded message keeps the
structure it has been decoded from, and the messages embedded in it keep parts of that structure. So
the two conversions agree on messages that have been built, decoded, embedded in others and given
their UIs and signatures in any order.
-/

namespace MinBFT

/-- A UI determines the bytes it has been decoded from. -/
theorem UI.marshalBinary_of_unmarshalBinary {data : Bytes} {ui : UI}
    (h : UI.unmarshalBinary data = .ok ui) : data = ui.marshalBinary := by
  unfold UI.unmarshalBinary at h
  split at h
  · cases h
  · next hread =>
      cases h
      exact BigEndian.eq_append_of_readUint64 hread

namespace Protobuf

open Store (Alloc Allocates alloc)

theorem sameUI_of_uiFromPb {data : Bytes} {ui : UI} (h : uiFromPb data = .ok ui) :
    SameUI data (some ui) := by
  rintro u ⟨⟩
  unfold uiFromPb at h
  cases hread : UI.unmarshalBinary data with
  | error e =>
      rw [hread] at h
      cases h
  | ok u =>
      rw [hread] at h
      cases h
      exact UI.marshalBinary_of_unmarshalBinary hread

/-! ## The objects of a decoded message -/

/-- There is no object for the Request that a Prepare has come without. -/
def Request.alloc (m : Request) : Alloc Object Ref :=
  match m.pbMsg with
  | none => failure
  | some pbMsg => Store.alloc (.request pbMsg)

def ReqViewChange.alloc (m : ReqViewChange) : Alloc Object Ref :=
  Store.alloc (.reqViewChange m.pbMsg)

def Prepare.alloc (m : Prepare) : Alloc Object Ref := do
  let req ← m.req.alloc
  Store.alloc (.prepare ⟨m.pbMsg.replicaId, m.pbMsg.view, req, m.pbMsg.ui⟩ req (some m.ui))

mutual

def CertifiedMessage.alloc : CertifiedMessage → Alloc Object Ref
  | .prepare m => m.alloc
  | .commit m => m.alloc
  | .viewChange m => m.alloc
  | .newView m => m.alloc

def Commit.alloc : Commit → Alloc Object Ref
  | ⟨pbMsg, prop, ui⟩ => do
      let prop ← prop.alloc
      Store.alloc (.commit ⟨pbMsg.replicaId, prop, pbMsg.ui⟩ prop (some ui))

def allocLog : List CertifiedMessage → Alloc Object (List Ref)
  | [] => return []
  | m :: log => do
      let first ← m.alloc
      let rest ← allocLog log
      return first :: rest

def ViewChange.alloc : ViewChange → Alloc Object Ref
  | ⟨pbMsg, log, vcCert, ui⟩ => do
      let log ← allocLog log
      let vcCert ← vcCert.mapM ReqViewChange.alloc
      Store.alloc (.viewChange ⟨pbMsg.replicaId, pbMsg.newView, log, vcCert, pbMsg.ui⟩ log vcCert
        (some ui))

def allocCert : List ViewChange → Alloc Object (List Ref)
  | [] => return []
  | m :: cert => do
      let first ← m.alloc
      let rest ← allocCert cert
      return first :: rest

def NewView.alloc : NewView → Alloc Object Ref
  | ⟨pbMsg, nvCert, ui⟩ => do
      let nvCert ← allocCert nvCert
      Store.alloc (.newView ⟨pbMsg.replicaId, pbMsg.newView, nvCert, pbMsg.ui⟩ nvCert (some ui))

end

def Message.alloc : Message → Alloc Object Ref
  | .hello m => Store.alloc (.hello m.pbMsg)
  | .request m => m.alloc
  | .reply m => Store.alloc (.reply m.pbMsg)
  | .reqViewChange m => m.alloc
  | .certified m => m.alloc

def kindOfPb : Pb.Message → Option Kind
  | .unset => none
  | .hello _ => some .hello
  | .request _ => some .request
  | .reply _ => some .reply
  | .reqViewChange _ => some .reqViewChange
  | .prepare _ => some .prepare
  | .commit _ => some .commit
  | .viewChange _ => some .viewChange
  | .newView _ => some .newView

theorem kind_of_image {images : Ref → Option Pb.Message} {o : Object} {m : Pb.Message}
    (h : o.image images = some m) : kindOfPb m = some o.kind := by
  cases o with
  | prepare pbMsg req ui =>
      obtain ⟨_, -, h⟩ := Option.bind_eq_some_iff.mp h
      cases h
      rfl
  | commit pbMsg prop ui =>
      obtain ⟨_, -, h⟩ := Option.bind_eq_some_iff.mp h
      cases h
      rfl
  | viewChange pbMsg log vcCert ui =>
      obtain ⟨_, -, h⟩ := Option.bind_eq_some_iff.mp h
      obtain ⟨_, -, h⟩ := Option.bind_eq_some_iff.mp h
      cases h
      rfl
  | newView pbMsg nvCert ui =>
      obtain ⟨_, -, h⟩ := Option.bind_eq_some_iff.mp h
      cases h
      rfl
  | _ =>
      cases h
      rfl

theorem kindAt_of_image {s : List Object} {ref : Ref} {m : Pb.Message}
    (h : image s ref = some m) : kindAt s ref = kindOfPb m := by
  induction s with
  | nil => cases h
  | cons o older ih =>
      by_cases htop : ref = older.length
      · subst htop
        rw [image, Store.read_top] at h
        rw [kindAt, Store.get?_top, kind_of_image h]
        rfl
      · rw [image, Store.read_of_ne htop] at h
        rw [kindAt, Store.get?_of_ne htop]
        exact ih h

/-- The object behind the reference has the `pb` message `m`, and UIs at every level. -/
structure Loaded (m : Pb.Message) (ref : Ref) (s : List Object) : Prop where
  image : image s ref = some m
  complete : complete s ref = true

theorem Loaded.suffix {m : Pb.Message} {ref : Ref} {s s' : List Object} (hs : s <:+ s')
    (h : Loaded m ref s) : Loaded m ref s' := by
  refine Store.of_suffix (Q := fun s ref => Loaded m ref s) ?_ hs (Store.lt_of_read h.image) h
  intro older o ref hne h
  exact ⟨(Store.read_of_ne hne).trans h.image, (if_neg hne).trans h.complete⟩

abbrev Loads (x : Alloc Object Ref) (m : Pb.Message) : Prop :=
  Allocates (Store.Forall Fits) (fun _ => True) x (Loaded m)

abbrev LoadsAll {α : Type} (wrap : α → Pb.Message) (x : Alloc Object (List Ref))
    (as : List α) : Prop :=
  Allocates (Store.Forall Fits) (fun _ => True) x
    fun refs s => List.Forall₂ (fun a r => Loaded (wrap a) r s) as refs

theorem allocates_object {P : List Object → Prop} {o : Object} {m : Pb.Message}
    (hui : o.hasUI = true)
    (h : ∀ s, P s → Fits s o ∧ o.image (image s) = some m ∧ ∀ r ∈ o.refs, complete s r = true) :
    Allocates (Store.Forall Fits) P (Store.alloc o) (Loaded m) := by
  refine .object fun s hs hP => ?_
  obtain ⟨hfits, himage, hrefs⟩ := h s hP
  refine ⟨⟨hfits, hs⟩, (Store.read_top _ o s).trans himage, ?_⟩
  rw [complete, Store.reachable, if_pos rfl, hui]
  exact List.all_eq_true.mpr hrefs

theorem loads_plain {o : Object} {m : Pb.Message} (hfits : ∀ s, Fits s o) (hui : o.hasUI = true)
    (himage : ∀ images, o.image images = some m) (hrefs : o.refs = []) :
    Loads (Store.alloc o) m := by
  refine allocates_object hui fun s _ => ⟨hfits s, himage _, ?_⟩
  rw [hrefs]
  exact fun _ hr => absurd hr List.not_mem_nil

theorem mapM_of_forall₂ {α β : Type} {f : α → Option β} {as : List α} {bs : List β}
    (h : List.Forall₂ (fun b a => f a = some b) bs as) : as.mapM f = some bs := by
  induction h with
  | nil => rfl
  | cons hab _ ih =>
      rw [List.mapM_cons, hab, ih]
      rfl

theorem exists_of_forall₂ {α β : Type} {R : α → β → Prop} {as : List α} {bs : List β}
    (h : List.Forall₂ R as bs) : ∀ b ∈ bs, ∃ a ∈ as, R a b := by
  induction h with
  | nil => exact fun _ hb => absurd hb List.not_mem_nil
  | @cons a b as bs hab _ ih =>
      refine List.forall_mem_cons.mpr ⟨⟨a, List.mem_cons_self, hab⟩, fun b' hb' => ?_⟩
      obtain ⟨a', ha', hR⟩ := ih b' hb'
      exact ⟨a', List.mem_cons_of_mem a ha', hR⟩

/-- The messages of one type behind references. -/
theorem mapM_loaded {α : Type} {wrap : α → Pb.Message} {unwrap : Pb.Message → Option α}
    {as : List α} {refs : List Ref} {s : List Object}
    (h : List.Forall₂ (fun a r => Loaded (wrap a) r s) as refs)
    (hunwrap : ∀ a, unwrap (wrap a) = some a) :
    refs.mapM (fun r => image s r >>= unwrap) = some as := by
  refine mapM_of_forall₂ (h.imp fun a r hr => ?_)
  rw [hr.image]
  exact hunwrap a

theorem forall_loaded {α : Type} {wrap : α → Pb.Message} {as : List α} {refs : List Ref}
    {s : List Object} (h : List.Forall₂ (fun a r => Loaded (wrap a) r s) as refs) :
    ∀ r ∈ refs, complete s r = true ∧ ∃ a ∈ as, kindAt s r = kindOfPb (wrap a) := by
  intro r hr
  obtain ⟨a, ha, hloaded⟩ := exists_of_forall₂ h r hr
  exact ⟨hloaded.complete, a, ha, kindAt_of_image hloaded.image⟩

theorem asCertified_eq_ok {e : WireError} {m : Message} {c : CertifiedMessage} :
    asCertified e m = .ok c ↔ m = .certified c := by
  cases m <;> simp [asCertified]

theorem isCertified_of_decoded {m : Pb.Message} {c : CertifiedMessage}
    (h : typedMessageFromPb m = .ok (.certified c)) : (kindOfPb m).any Kind.isCertified := by
  cases m with
  | prepare | commit | viewChange | newView => rfl
  | _ =>
      rw [typedMessageFromPb] at h
      cases h

theorem loads_newPrepareFromPb {m : Pb.Prepare} {d : Prepare} (h : newPrepareFromPb m = .ok d) :
    Loads d.alloc (.prepare m) := by
  obtain ⟨ui, hui, h⟩ := Except.bind_eq_ok.mp h
  cases h
  obtain ⟨replicaId, view, request, uiBytes⟩ := m
  rw [Prepare.alloc, Request.alloc]
  cases request with
  | none =>
      intro s ref s' _ _ halloc
      cases halloc
  | some req =>
      have hreq : Loads (Store.alloc (.request req)) (.request req) :=
        loads_plain (fun _ => trivial) rfl (fun _ => rfl) rfl
      refine hreq.bind fun ref => allocates_object rfl fun s hreq => ⟨?_, ?_, ?_⟩
      · exact ⟨rfl, sameUI_of_uiFromPb hui, kindAt_of_image hreq.image⟩
      · rw [Object.image, hreq.image]
        rfl
      · exact List.forall_mem_singleton.mpr hreq.complete

theorem loads_viewChangeCertFromPb (pbCert : List Pb.ReqViewChange) :
    LoadsAll .reqViewChange ((viewChangeCertFromPb pbCert).mapM ReqViewChange.alloc) pbCert := by
  have hstable : ∀ (d : ReqViewChange) (r : Ref) (s s' : List Object), s <:+ s' →
      Loaded (.reqViewChange d.pbMsg) r s → Loaded (.reqViewChange d.pbMsg) r s' :=
    fun _ _ _ _ hs hl => hl.suffix hs
  have hone : ∀ d : ReqViewChange, Loads d.alloc (.reqViewChange d.pbMsg) :=
    fun d => loads_plain (fun _ => trivial) rfl (fun _ => rfl) rfl
  exact (Allocates.mapM hstable fun d _ => hone d).mono fun refs s hall =>
    List.forall₂_map_left_iff.mp hall

mutual

theorem loads_typedMessageFromPb :
    ∀ (m : Pb.Message) (d : Message), typedMessageFromPb m = .ok d → Loads d.alloc m
  | .unset, d, h => by
      rw [typedMessageFromPb] at h
      cases h
  | .hello m, d, h => by
      rw [typedMessageFromPb] at h
      cases h
      exact loads_plain (fun _ => trivial) rfl (fun _ => rfl) rfl
  | .request m, d, h => by
      rw [typedMessageFromPb] at h
      cases h
      exact loads_plain (fun _ => trivial) rfl (fun _ => rfl) rfl
  | .reply m, d, h => by
      rw [typedMessageFromPb] at h
      cases h
      exact loads_plain (fun _ => trivial) rfl (fun _ => rfl) rfl
  | .reqViewChange m, d, h => by
      rw [typedMessageFromPb] at h
      cases h
      exact loads_plain (fun _ => trivial) rfl (fun _ => rfl) rfl
  | .prepare m, d, h => by
      rw [typedMessageFromPb] at h
      obtain ⟨c, hc, rfl⟩ := Except.map_eq_ok.mp h
      exact loads_newPrepareFromPb hc
  | .commit m, d, h => by
      rw [typedMessageFromPb] at h
      obtain ⟨c, hc, rfl⟩ := Except.map_eq_ok.mp h
      exact loads_newCommitFromPb m c hc
  | .viewChange m, d, h => by
      rw [typedMessageFromPb] at h
      obtain ⟨c, hc, rfl⟩ := Except.map_eq_ok.mp h
      exact loads_newViewChangeFromPb m c hc
  | .newView m, d, h => by
      rw [typedMessageFromPb] at h
      obtain ⟨c, hc, rfl⟩ := Except.map_eq_ok.mp h
      exact loads_newNewViewFromPb m c hc

theorem loads_newCommitFromPb :
    ∀ (m : Pb.Commit) (d : Commit), newCommitFromPb m = .ok d → Loads d.alloc (.commit m)
  | ⟨replicaId, none, uiBytes⟩, d, h => by
      rw [newCommitFromPb] at h
      cases h
  | ⟨replicaId, some m, uiBytes⟩, d, h => by
      rw [newCommitFromPb] at h
      obtain ⟨p, hp, h⟩ := Except.bind_eq_ok.mp h
      obtain ⟨prop, hprop, h⟩ := Except.bind_eq_ok.mp h
      obtain ⟨ui, hui, h⟩ := Except.bind_eq_ok.mp h
      cases h
      rw [asCertified_eq_ok] at hprop
      subst hprop
      rw [Except.mapError_eq_ok] at hp
      have hm : typedMessageFromPb m = .ok (.certified prop) := hp
      rw [Commit.alloc]
      refine (loads_typedMessageFromPb m _ hm).bind
        fun ref => allocates_object rfl fun s hloaded => ⟨?_, ?_, ?_⟩
      · refine ⟨rfl, sameUI_of_uiFromPb hui, ?_⟩
        rw [kindAt_of_image hloaded.image]
        exact isCertified_of_decoded hm
      · rw [Object.image, hloaded.image]
        rfl
      · exact List.forall_mem_singleton.mpr hloaded.complete

theorem loads_messageLogFromPb :
    ∀ (log : List Pb.Message) (d : List CertifiedMessage), messageLogFromPb log = .ok d →
      LoadsAll id (allocLog d) log ∧ ∀ m ∈ log, (kindOfPb m).any Kind.isCertified
  | [], d, h => by
      cases h
      exact ⟨.pure fun _ _ => .nil, fun _ hm => absurd hm List.not_mem_nil⟩
  | m :: log, d, h => by
      rw [messageLogFromPb] at h
      obtain ⟨p, hp, h⟩ := Except.bind_eq_ok.mp h
      obtain ⟨first, hfirst, h⟩ := Except.bind_eq_ok.mp h
      obtain ⟨rest, hrest, h⟩ := Except.bind_eq_ok.mp h
      cases h
      rw [asCertified_eq_ok] at hfirst
      subst hfirst
      obtain ⟨hall, hkinds⟩ := loads_messageLogFromPb log rest hrest
      rw [allocLog]
      refine ⟨.cons (fun _ _ _ _ hs hl => hl.suffix hs) (loads_typedMessageFromPb m _ hp) hall, ?_⟩
      exact List.forall_mem_cons.mpr ⟨isCertified_of_decoded hp, hkinds⟩

theorem loads_newViewChangeFromPb :
    ∀ (m : Pb.ViewChange) (d : ViewChange), newViewChangeFromPb m = .ok d →
      Loads d.alloc (.viewChange m)
  | ⟨replicaId, newView, pbLog, pbCert, uiBytes⟩, d, h => by
      rw [newViewChangeFromPb] at h
      obtain ⟨ui, hui, h⟩ := Except.bind_eq_ok.mp h
      obtain ⟨log, hlog, h⟩ := Except.bind_eq_ok.mp h
      cases h
      rw [Except.mapError_eq_ok] at hlog
      obtain ⟨hall, hkinds⟩ := loads_messageLogFromPb pbLog log hlog
      rw [ViewChange.alloc]
      refine hall.bind fun refs => ?_
      refine ((loads_viewChangeCertFromPb pbCert).frame ?_).bind fun certRefs => ?_
      · exact fun s s' hs h => h.imp fun _ _ hl => hl.suffix hs
      · refine allocates_object rfl fun s h => ?_
        obtain ⟨hlogs, hcerts⟩ := h
        refine ⟨⟨rfl, rfl, sameUI_of_uiFromPb hui, fun r hr => ?_, fun r hr => ?_⟩, ?_, ?_⟩
        · obtain ⟨-, m, hm, hkind⟩ := forall_loaded hlogs r hr
          rw [hkind]
          exact hkinds m hm
        · obtain ⟨-, m, -, hkind⟩ := forall_loaded hcerts r hr
          exact hkind
        · have hlogs' : refs.mapM (image s) = some pbLog :=
            mapM_of_forall₂ (hlogs.imp fun _ _ hl => hl.image)
          have hcerts' : certRefs.mapM (fun r => image s r >>= Pb.Message.asReqViewChange) =
              some pbCert := mapM_loaded hcerts fun _ => rfl
          rw [Object.image, hlogs', hcerts']
          rfl
        · intro r hr
          rcases List.mem_append.mp hr with hr | hr
          · exact (forall_loaded hlogs r hr).1
          · exact (forall_loaded hcerts r hr).1

theorem loads_newViewCertFromPb :
    ∀ (cert : List Pb.ViewChange) (d : List ViewChange), newViewCertFromPb cert = .ok d →
      LoadsAll .viewChange (allocCert d) cert
  | [], d, h => by
      cases h
      exact .pure fun _ _ => .nil
  | m :: cert, d, h => by
      rw [newViewCertFromPb] at h
      obtain ⟨first, hfirst, h⟩ := Except.bind_eq_ok.mp h
      obtain ⟨rest, hrest, h⟩ := Except.bind_eq_ok.mp h
      cases h
      rw [allocCert]
      exact .cons (fun _ _ _ _ hs hl => hl.suffix hs) (loads_newViewChangeFromPb m _ hfirst)
        (loads_newViewCertFromPb cert rest hrest)

theorem loads_newNewViewFromPb :
    ∀ (m : Pb.NewView) (d : NewView), newNewViewFromPb m = .ok d → Loads d.alloc (.newView m)
  | ⟨replicaId, newView, pbCert, uiBytes⟩, d, h => by
      rw [newNewViewFromPb] at h
      obtain ⟨ui, hui, h⟩ := Except.bind_eq_ok.mp h
      obtain ⟨cert, hcert, h⟩ := Except.bind_eq_ok.mp h
      cases h
      rw [Except.mapError_eq_ok] at hcert
      rw [NewView.alloc]
      refine (loads_newViewCertFromPb pbCert cert hcert).bind
        fun refs => allocates_object rfl fun s hall => ⟨⟨rfl, ?_, fun r hr => ?_⟩, ?_, ?_⟩
      · exact sameUI_of_uiFromPb hui
      · obtain ⟨-, m, -, hkind⟩ := forall_loaded hall r hr
        exact hkind
      · have hcerts : refs.mapM (fun r => image s r >>= Pb.Message.asViewChange) = some pbCert :=
          mapM_loaded hall fun _ => rfl
        rw [Object.image, hcerts]
        rfl
      · exact fun r hr => (forall_loaded hall r hr).1

end

/-! ## Converting built and decoded messages -/

/-- What a program has built that decodes the messages it has encoded, among other things. -/
inductive Built (unmarshal : Bytes → Option Pb.Message) : List Object → Prop where
  | nil : Built unmarshal []
  | perform {s : List Object} (op : Op) (h : Built unmarshal s) (htyped : op.wellTyped s = true) :
      Built unmarshal (op.perform s)
  | decode {s s' : List Object} {ref ref' : Ref} {m : Pb.Message} {data : Bytes} {d : Message}
      (h : Built unmarshal s) (himage : image s ref = some m) (hdata : unmarshal data = some m)
      (hdecode : newFromBinary unmarshal data = .ok d) (halloc : d.alloc s = some (ref', s')) :
      Built unmarshal s'

variable {unmarshal : Bytes → Option Pb.Message} {s s' : List Object}

theorem typedMessageFromPb_of_newFromBinary {m : Pb.Message} {data : Bytes} {d : Message}
    (hdata : unmarshal data = some m) (hdecode : newFromBinary unmarshal data = .ok d) :
    typedMessageFromPb m = .ok d := by
  rwa [newFromBinary, hdata] at hdecode

theorem Built.fits (h : Built unmarshal s) : Store.Forall Fits s := by
  induction h with
  | nil => trivial
  | perform op _ htyped ih => exact op.fits_perform htyped ih
  | decode _ _ hdata hdecode halloc ih =>
      have hd := typedMessageFromPb_of_newFromBinary hdata hdecode
      exact (loads_typedMessageFromPb _ _ hd _ _ _ ih trivial halloc).1

theorem Built.perform_all {ops : List Op} (h : Built unmarshal s)
    (hrun : ops.foldlM (fun s op => if op.wellTyped s then some (op.perform s) else none) s =
      some s') : Built unmarshal s' :=
  foldlM_perform (fun op _ htyped hs => .perform op hs htyped) h hrun

/-- `pbMessageFromAPI` returns the `pb` structure that the object keeps. It has no case for a
Hello. -/
def pbMessageFromAPI (s : List Object) (ref : Ref) : Option Pb.Message :=
  if kindAt s ref = some .hello then none else image s ref

/-- `pb.MessageFromAPI` asks the accessors at every level. It has no case for a Hello, either. -/
def messageFromAccessors (s : List Object) (ref : Ref) : Option Pb.Message :=
  match content s ref with
  | none => none
  | some (.hello _) => none
  | some m => some (Pb.messageFromAPI m)

theorem converts_of_complete (hs : Store.Forall Fits s) {ref : Ref}
    (hkind : kindAt s ref ≠ some .hello) (hcomplete : complete s ref = true) :
    ∃ m, image s ref = some m ∧ pbMessageFromAPI s ref = some m ∧
      messageFromAccessors s ref = some m := by
  obtain ⟨m, hm⟩ := represents_of_complete hs hcomplete
  refine ⟨_, hm.image, (if_neg hkind).trans hm.image, ?_⟩
  unfold messageFromAccessors
  rw [hm.content]
  rw [hm.kind] at hkind
  cases m with
  | hello m => exact absurd rfl hkind
  | _ => rfl

/-- The two conversions agree on every message that has its UIs, and on what is decoded from its
encoding. -/
theorem Built.conversions_agree (h : Built unmarshal s) {ref : Ref}
    (hkind : kindAt s ref ≠ some .hello) :
    (complete s ref = true →
      ∃ m, pbMessageFromAPI s ref = some m ∧ messageFromAccessors s ref = some m) ∧
    ∀ m data d ref' s', image s ref = some m → unmarshal data = some m →
      newFromBinary unmarshal data = .ok d → Message.alloc d s = some (ref', s') →
        pbMessageFromAPI s' ref' = some m ∧ messageFromAccessors s' ref' = some m := by
  constructor
  · intro hcomplete
    obtain ⟨m, -, hfast, hslow⟩ := converts_of_complete h.fits hkind hcomplete
    exact ⟨m, hfast, hslow⟩
  · intro m data d ref' s' himage hdata hdecode halloc
    have hd := typedMessageFromPb_of_newFromBinary hdata hdecode
    obtain ⟨hfits, -, hloaded⟩ := loads_typedMessageFromPb m d hd s ref' s' h.fits trivial halloc
    have hkind' : kindAt s' ref' ≠ some .hello := by
      rwa [kindAt_of_image hloaded.image, ← kindAt_of_image himage]
    obtain ⟨m', himage', hfast, hslow⟩ := converts_of_complete hfits hkind' hloaded.complete
    cases hloaded.image.symm.trans himage'
    exact ⟨hfast, hslow⟩

end Protobuf

namespace Concrete

open Protobuf

def lateUIMessage : Pb.Message :=
  .commit ⟨1, some (.prepare ⟨0, 0, some ⟨0, 1, [7], [9]⟩, [0, 0, 0, 0, 0, 0, 0, 1, 5]⟩),
    [0, 0, 0, 0, 0, 0, 0, 1]⟩

def decodesLateUI (data : Bytes) : Option Pb.Message :=
  if data = lateUIData then some lateUIMessage else none

def embeddedDecoded : List Object :=
  [.commit ⟨1, 4, [0, 0, 0, 0, 0, 0, 0, 1]⟩ 4 (some ⟨1, []⟩),
    .prepare ⟨0, 0, 3, [0, 0, 0, 0, 0, 0, 0, 1, 5]⟩ 3 (some ⟨1, [5]⟩),
    .request ⟨0, 1, [7], [9]⟩]

/-- The decoded Commit has been embedded in a ViewChange before it has got another UI. -/
def embeddedObjects : List Object :=
  [.viewChange ⟨1, 1, [5], [], [0, 0, 0, 0, 0, 0, 0, 3]⟩ [5] [] (some ⟨3, []⟩),
    .commit ⟨1, 4, [0, 0, 0, 0, 0, 0, 0, 2]⟩ 4 (some ⟨2, []⟩),
    .prepare ⟨0, 0, 3, [0, 0, 0, 0, 0, 0, 0, 1, 5]⟩ 3 (some ⟨1, [5]⟩),
    .request ⟨0, 1, [7], [9]⟩] ++ lateUIObjects

theorem built_embeddedObjects : Built decodesLateUI embeddedObjects := by
  have hbuild : build lateUI = some lateUIObjects := rfl
  have himage : image lateUIObjects 2 = some lateUIMessage := rfl
  have hdata : decodesLateUI lateUIData = some lateUIMessage := rfl
  have hdecoded : Built decodesLateUI (embeddedDecoded ++ lateUIObjects) :=
    .decode (Built.nil.perform_all hbuild) himage hdata rfl rfl
  have hrun : [Op.newViewChange 1 1 [5] [], .setUI 5 ⟨2, []⟩, .setUI 6 ⟨3, []⟩].foldlM
      (fun s op => if op.wellTyped s then some (op.perform s) else none)
      (embeddedDecoded ++ lateUIObjects) = some embeddedObjects := rfl
  exact hdecoded.perform_all hrun

theorem conversions_agree_embedded : Built decodesLateUI embeddedObjects ∧
    ∃ m, pbMessageFromAPI embeddedObjects 6 = some m ∧
      messageFromAccessors embeddedObjects 6 = some m :=
  ⟨built_embeddedObjects, (built_embeddedObjects.conversions_agree (by decide)).1 rfl⟩

end Concrete

end MinBFT
