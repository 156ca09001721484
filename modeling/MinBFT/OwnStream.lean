import MinBFT.Integrity
import MinBFT.Lib.Gapless
import MinBFT.NewViews
import MinBFT.OutputShape

/-!
# The stream of own messages

The own-message goroutine gets its messages from a stream over the log, which starts over when the
log has been reset, and so may miss what was in the log before. What it misses it gets with the
message that starts the new log: a ViewChange carries the log before it, and a NewView the
ViewChange before it. So the replica never comes across a message of its own out of sequence.
-/

namespace MinBFT

/-- A message that starts a view brings along what comes before it. -/
def Message.Starts : Message → Prop
  | .certified c => c.startsView ≠ none
  | _ => False

def Message.counterOf (id : UInt32) : Message → ℕ
  | .certified c => if c.replicaID = id then c.counter.toNat else 0
  | _ => 0

abbrev InSequence (id : UInt32) : ℕ → List Message → Prop :=
  Gapless Message.Starts (Message.counterOf id)

section Logs

variable {id : UInt32} {n : ℕ}

theorem InSequence.of_certified {l : List Message}
    (h : InSequence id n ((Output.certified l).map .certified)) : InSequence id n l := by
  induction l generalizing n with
  | nil => trivial
  | cons m l ih =>
      cases m with
      | certified c => exact ⟨h.1, ih h.2⟩
      | _ => exact ⟨.inr (Nat.zero_le _), ih (h.mono (Nat.le_max_left _ _))⟩

/-- A valid log is in sequence by itself. -/
theorem BackwardsLog.inSequence {view cv : UInt64} {k : ℕ} {l : List CertifiedMessage}
    (h : BackwardsLog id view l.reverse cv)
    (hmap : l.map (·.counter.toNat) = List.range' k l.length) :
    InSequence id 0 (l.map .certified) := by
  have hcounter : ∀ c ∈ l, (Message.certified c).counterOf id = c.counter.toNat :=
    fun c hc => if_pos (h.replicaID_eq hc)
  cases l with
  | nil => trivial
  | cons m l =>
      have hm := hcounter m List.mem_cons_self
      rw [List.map_cons, List.length_cons, List.range'_succ, List.cons.injEq] at hmap
      refine ⟨?_, Gapless.of_consecutive ?_⟩
      · rcases h.head with hstarts | ⟨-, -, hone⟩
        · exact .inl (by rw [Message.Starts, hstarts]; exact Option.some_ne_none _)
        · refine .inr ?_
          rw [hm, hone]
          exact Nat.le_refl _
      · rw [hm, Nat.max_eq_right (Nat.zero_le _), hmap.1, List.map_map, List.length_map, ← hmap.2]
        exact List.map_congr_left fun c hc => hcounter c (.tail m hc)

end Logs

/-- The log only grows, unless it is reset. -/
theorem Output.Steps.log_cases {p : Params} {o o' : Output} (h : Output.Steps p o o') :
    (o'.resets = o.resets ∧ o.log <+: o'.log) ∨ o.resets < o'.resets := by
  induction h with
  | refl => exact .inl ⟨rfl, List.prefix_refl _⟩
  | tail _ hstep ih =>
      cases hstep with
      | generate => exact ih.imp_left fun ⟨heq, hpre⟩ => ⟨heq, hpre.trans (List.prefix_append _ _)⟩
      | reqViewChange =>
          exact ih.imp_left fun ⟨heq, hpre⟩ => ⟨heq, hpre.trans (List.prefix_append _ _)⟩
      | resetLog o =>
          refine .inr (Nat.lt_succ_of_le ?_)
          rcases ih with ⟨heq, -⟩ | hlt
          · exact Nat.le_of_eq heq.symm
          · exact Nat.le_of_lt hlt
      | startTimer => exact ih

namespace Replica

variable {p : Params} {order : List Request} {C : Replica → Message → Prop} {s s' : Replica}
  {m : Message}

theorem History.counterOf_le (h : History p s) (hm : m ∈ s.handled) :
    m.counterOf p.id ≤ (s.lastUI p.id).toNat := by
  cases m with
  | certified c =>
      rw [Message.counterOf]
      split_ifs with hid
      · exact hid ▸ UInt64.le_iff_toNat_le.mp (h.certified c hm)
      · exact Nat.zero_le _
  | _ => exact Nat.zero_le _

structure Retained (s : Replica) : Prop where
  reqViewChanges : ∀ rvc ∈ s.reqViewChanges.collected, .reqViewChange rvc ∈ s.handled
  viewChanges : ∀ vc ∈ s.viewChanges.members, .certified (.viewChange vc) ∈ s.handled
  embedded : ∀ g ∈ s.output.generated, ∀ x ∈ g.embedded, x ∈ s.handled ∨
    ∃ vc c, g = .certified (.viewChange vc) ∧ c ∈ vc.messageLog ∧ x = .certified c ∧
      x ∈ s.output.generated

theorem Retained.transition (h : Retained s)
    (hkept : s.execution.requests.Holding fun r => .request r ∈ s.handled)
    (hlog : s.output.log <:+ s.output.generated) (htrans : Transition p order m s s') :
    Retained s' := by
  have hhandled := htrans.handled_prefix.subset
  have hgen := htrans.output_steps.generated_prefix.subset
  have hnew : s'.output.generated = s.output.generated ∨ m ∈ s'.handled := by
    cases htrans with
    | refused => exact .inl rfl
    | failed => exact .inl rfl
    | _ => exact .inr (List.mem_append_right _ List.mem_cons_self)
  have hembedded : ∀ g ∈ s'.output.generated, ∀ x ∈ g.embedded, x ∈ s'.handled ∨
      ∃ vc c, g = .certified (.viewChange vc) ∧ c ∈ vc.messageLog ∧ x = .certified c ∧
        x ∈ s'.output.generated := by
    have hold : ∀ g ∈ s.output.generated, ∀ x ∈ g.embedded, x ∈ s'.handled ∨
        ∃ vc c, g = .certified (.viewChange vc) ∧ c ∈ vc.messageLog ∧ x = .certified c ∧
          x ∈ s'.output.generated := by
      intro g hg x hx
      rcases h.embedded g hg x hx with hx | ⟨vc, c, hvc, hc, hxc, hx⟩
      · exact .inl (hhandled hx)
      · exact .inr ⟨vc, c, hvc, hc, hxc, hgen hx⟩
    rcases hnew with heq | hm
    · rw [heq] at hold ⊢
      exact hold
    · intro g hg x hx
      rcases htrans.generated_cases hg with hg | hmade
      · exact hold g hg x hx
      · cases hmade with
        | prepare _ hr =>
            cases List.mem_singleton.mp hx
            rcases hr with rfl | hr
            · exact .inl hm
            · exact .inl (hhandled (hkept.pending _ hr))
        | commit =>
            cases List.mem_singleton.mp hx
            exact .inl hm
        | viewChange hcert =>
            rcases List.mem_append.mp hx with hx | hx
            · obtain ⟨y, hy, rfl⟩ := List.mem_map.mp hx
              obtain ⟨-, -, -, rfl, -⟩ := ReqViewChangeCollector.of_cert hcert
              rcases List.mem_append.mp hy with hy | hy
              · exact .inl (hhandled (h.reqViewChanges y hy))
              · cases List.mem_singleton.mp hy
                exact .inl hm
            · obtain ⟨y, hy, rfl⟩ := List.mem_map.mp hx
              exact .inr ⟨_, y, rfl, hy, rfl, hgen (hlog.subset (Output.mem_certified.mp hy))⟩
        | newView _ hcert =>
            obtain ⟨y, hy, rfl⟩ := List.mem_map.mp hx
            rcases ViewChangeCollector.mem_of_mem_cert hcert hy with rfl | hy
            · exact .inl hm
            · exact .inl (hhandled (h.viewChanges y hy))
  have hreqs : ∀ rvc ∈ s.reqViewChanges.collected, .reqViewChange rvc ∈ s'.handled :=
    fun rvc hrvc => hhandled (h.reqViewChanges rvc hrvc)
  have hvcs : ∀ vc ∈ s.viewChanges.members, .certified (.viewChange vc) ∈ s'.handled :=
    fun vc hvc => hhandled (h.viewChanges vc hvc)
  have hself : ∀ {t : Replica}, m ∈ (t.handle m).handled :=
    List.mem_append_right _ List.mem_cons_self
  cases htrans with
  | viewChange =>
      refine ⟨hreqs, fun vc hvc => ?_, hembedded⟩
      rcases ViewChangeCollector.mem_of_mem_collect hvc with rfl | hvc
      · exact hself
      · exact hvcs vc hvc
  | newView =>
      refine ⟨hreqs, fun vc hvc => ?_, hembedded⟩
      rcases ViewChangeCollector.mem_of_mem_collect hvc with rfl | hvc
      · exact hself
      · exact hvcs vc hvc
  | reqViewChange =>
      refine ⟨fun rvc hrvc => ?_, hvcs, hembedded⟩
      rcases ReqViewChangeCollector.mem_of_mem_collect hrvc with rfl | hrvc
      · exact hself
      · exact hreqs rvc hrvc
  | leftView =>
      refine ⟨fun rvc hrvc => ?_, hvcs, hembedded⟩
      rcases ReqViewChangeCollector.mem_of_mem_collect hrvc with rfl | hrvc
      · exact hself
      · exact hreqs rvc hrvc
  | _ => exact ⟨hreqs, hvcs, hembedded⟩

theorem Retained.requestViewChange {view : UInt64} (h : Retained s) :
    Retained (s.requestViewChange p view) := by
  unfold Replica.requestViewChange
  split_ifs
  · exact h
  · exact ⟨h.reqViewChanges, h.viewChanges, h.embedded⟩
  · refine ⟨h.reqViewChanges, h.viewChanges, fun g hg x hx => ?_⟩
    rcases List.mem_append.mp hg with hg | hg
    · refine (h.embedded g hg x hx).imp_right ?_
      rintro ⟨vc, c, hvc, hc, hxc, hx⟩
      exact ⟨vc, c, hvc, hc, hxc, List.mem_append_left _ hx⟩
    · cases List.mem_singleton.mp hg
      exact absurd hx List.not_mem_nil

theorem Run.retained (hid : p.id < p.config.n) (h : s.Run p C) : Retained s := by
  induction h with
  | init =>
      exact ⟨fun _ hx => absurd hx List.not_mem_nil, fun _ hx => absurd hx List.not_mem_nil,
        fun _ hg => absurd hg List.not_mem_nil⟩
  | process hrun _ _ htrans _ ih =>
      exact ih.transition (hrun.kept_handled hid) (hrun.sources hid).log htrans
  | timeout _ _ _ ih => exact ih.requestViewChange

/-- The log is in sequence by itself. -/
theorem Run.log_inSequence (hid : p.id < p.config.n) (h : s.Run p C) :
    InSequence p.id 0 s.output.log := by
  obtain ⟨before, hbefore⟩ := (h.sources hid).log
  have hcounters := (h.counters hid).1
  rw [← hbefore, Output.certified_append, List.map_append, List.length_append] at hcounters
  rw [← List.range'_append_1] at hcounters
  refine InSequence.of_certified ((validateMessageLog_eq_ok.mp h.logFor).2.inSequence
    (List.append_inj hcounters ?_).2)
  simp

theorem Run.counter_of_getElem? {i : ℕ} {c : CertifiedMessage} (hid : p.id < p.config.n)
    (h : s.Run p C) (hc : (Output.certified s.output.generated)[i]? = some c) :
    c.counter.toNat = i + 1 := by
  have hmap := congrArg (·[i]?) (h.counters hid).1
  obtain ⟨hlt, -⟩ := List.getElem?_eq_some_iff.mp hc
  simp only [List.getElem?_map, hc, Option.map_some, List.getElem?_range' hlt] at hmap
  rw [Option.some.inj hmap]
  omega

/-- The own slot holds a ViewChange that the replica has generated. -/
theorem Run.ownSlot (hid : p.id < p.config.n) (h : s.Run p C) :
    ∀ x, s.viewChanges.own = some x → x.newView = s.viewChanges.view ∧
      x.replicaID = p.id ∧ s.OwnGenerated p (.viewChange x) := by
  induction h with
  | init => exact fun _ hx => nomatch hx
  | @process s s' m order hrun hadmits _ htrans _ ih =>
      have hext := Node.extends_of_transition htrans
      have hgen {c : CertifiedMessage} (hc : s.OwnGenerated p c) : s'.OwnGenerated p c := by
        obtain ⟨g, hg, heq⟩ := hc
        exact ⟨g, hext.generated.subset hg, heq⟩
      have hold : ∀ x, s.viewChanges.own = some x → x.newView = s.viewChanges.view ∧
          x.replicaID = p.id ∧ s'.OwnGenerated p (.viewChange x) := fun x hx =>
        ⟨(ih x hx).1, (ih x hx).2.1, hgen (ih x hx).2.2⟩
      cases htrans with
      | viewChange =>
          exact (ViewChangeCollector.own_collect hold fun hown =>
            ⟨hown, hgen (hrun.ownGenerated hid hadmits hown)⟩).1
      | newView =>
          exact (ViewChangeCollector.own_collect hold fun hown =>
            ⟨hown, hgen (hrun.ownGenerated hid hadmits hown)⟩).1
      | _ => exact hold
  | @timeout s view _ _ _ ih =>
      rw [viewChanges_requestViewChange]
      intro x hx
      obtain ⟨hview, hown, g, hg, heq⟩ := ih x hx
      exact ⟨hview, hown, g, (Node.extends_requestViewChange _ s).generated.subset hg, heq⟩

theorem Run.replicaID_generated {c : CertifiedMessage} (h : s.Run p C)
    (hc : .certified c ∈ s.output.generated) : c.replicaID = p.id := by
  have key : ∀ c ∈ Output.certified s.output.generated, c.replicaID = p.id := by
    clear hc
    induction h with
    | init => exact fun _ hc => absurd hc List.not_mem_nil
    | process _ _ _ htrans _ ih => exact htrans.output_steps.replicaID ih
    | timeout _ _ _ ih => exact (requestViewChange_steps _ _).replicaID ih
  exact key c (Output.mem_certified.mpr hc)

/-- What is embedded in a message to be handled is known, and in sequence by itself. -/
theorem Run.embedded_inSequence (hid : p.id < p.config.n) (htol : p.config.Tolerant)
    (h : s.Run p C) (hm : m ∈ s.handled ∨ m ∈ s.output.generated) :
    (∀ x ∈ m.embedded, x ∈ s.handled ∨ x ∈ s.output.generated) ∧
      InSequence p.id (s.lastUI p.id).toNat m.embedded := by
  have hist := h.history hid
  have hhandled (hall : ∀ x ∈ m.embedded, x ∈ s.handled) :
      (∀ x ∈ m.embedded, x ∈ s.handled ∨ x ∈ s.output.generated) ∧
        InSequence p.id (s.lastUI p.id).toNat m.embedded :=
    ⟨fun x hx => .inl (hall x hx),
      Gapless.of_le fun x hx => Nat.le_succ_of_le (hist.counterOf_le (hall x hx))⟩
  rcases hm with hm | hm
  · exact hhandled (hist.embedded m hm)
  · have hretained := (h.retained hid).embedded m hm
    by_cases hvc : ∃ vc, m = .certified (.viewChange vc)
    · obtain ⟨vc, rfl⟩ := hvc
      have hsound : HereditarilySound p.crypto (.certified (.viewChange vc)) :=
        ((h.proper hid htol).generated _ hm).mono fun _ hx => hx.sound
      refine ⟨fun x hx => (hretained x hx).imp_right fun ⟨_, _, _, _, _, hgen⟩ => hgen, ?_⟩
      refine Gapless.append (Gapless.of_le fun x hx => ?_) fun k _ _ => ?_
      · obtain ⟨rvc, -, rfl⟩ := List.mem_map.mp hx
        exact Nat.zero_le _
      · have hback := hsound.validLog.2
        rw [show vc.replicaID = p.id from h.replicaID_generated hm] at hback
        exact (hback.inSequence (Hereditarily.log_counters hsound).2).mono (Nat.zero_le k)
    · refine hhandled fun x hx => (hretained x hx).resolve_right ?_
      rintro ⟨vc, -, rfl, -⟩
      exact hvc ⟨vc, rfl⟩

end Replica

namespace Node

variable {p : Params} {C : Replica → Message → Prop} {s s' : Node}

/-- A NewView carries the message the replica has certified right before it. -/
theorem Reachable.newView_embeds (hid : p.id < p.config.n) (htol : p.config.Tolerant)
    (h : s.Reachable p C) : ∀ nv, .certified (.newView nv) ∈ s.replica.output.generated →
      ∃ vc ∈ nv.newViewCert, vc.replicaID = p.id ∧
        vc.ui.counter.toNat + 1 = nv.ui.counter.toNat := by
  induction h with
  | init => exact fun _ hnv => absurd hnv List.not_mem_nil
  | @step s s' l h hstep hcond ih =>
      have hrun := h.run
      have hrun' := (h.step hstep hcond).run
      obtain ⟨-, hstepped, -⟩ := step_cases hstep
      intro nv hnv
      rcases hstepped.replica_cases with heq | ⟨view, -, heq⟩ | ⟨m, order, hproc, heq, -⟩
      · exact ih nv (heq ▸ hnv)
      · rw [heq, ← Output.mem_certified, Replica.certified_requestViewChange] at hnv
        exact ih nv (Output.mem_certified.mp hnv)
      · have hvalid := ((hrun'.sources hid).generated _ hnv).self.2.1.1
        rw [heq] at hnv
        rcases (Replica.processMessage_transition _ _).generated_cases hnv with hnv | hmade
        · exact ih nv hnv
        · cases hmade with
          | @newView vc cert ui _ hcert hview hui =>
              have hadmits := h.linked.2.admits hproc
              obtain ⟨before, l, hdiv, -⟩ := h.divided hid htol
              obtain ⟨rfl, -, -⟩ := hdiv.announced (hrun.announcing hid htol)
                (hrun.admitted hid hadmits).self.2.2 hcert hview
              obtain ⟨x, hx, hxview, hxid, g, hg, hxcv, hbytes⟩ :=
                (ViewChangeCollector.own_collect (hrun.ownSlot hid) fun hown =>
                  ⟨hown, hrun.ownGenerated hid hadmits hown⟩).2 cert hcert
              refine ⟨x, hx, hxid, ?_⟩
              obtain ⟨vc', rfl, hvc'⟩ :=
                CertifiedMessage.eq_viewChange_of_authenBytes_eq hbytes.symm
              rw [← Output.mem_certified, hdiv.output, List.append_nil] at hg
              have hlast := (hdiv.opened.viewChange_last hg).2
                (hvc'.symm.trans (hxview.trans hview))
              rw [List.getLast?_eq_getElem?] at hlast
              have hlength : 0 < before.length := List.length_pos_of_mem hg
              have hcounter := hrun.counter_of_getElem? hid (i := before.length - 1)
                (by rw [hdiv.output, List.append_nil]; exact hlast)
              have husig := (hrun.counters hid).2
              rw [hdiv.output, List.append_nil] at husig
              have hnext := (UInt64.eq_add_one_iff hvalid).mp hui
              have hsame : vc'.ui.counter.toNat = x.ui.counter.toNat := congrArg _ hxcv
              have hcounter' : vc'.ui.counter.toNat = before.length - 1 + 1 := hcounter
              change x.ui.counter.toNat + 1 = ui.counter.toNat
              have hnext' : ui.counter.toNat = s.replica.output.usigCounter.toNat + 1 := hnext
              omega

/-- What the own-message goroutine still has to do, what the stream has in store for it, and what
of the log it has been supplied with. -/
structure Streaming (p : Params) (s : Node) : Prop where
  tasks : ∀ k ∈ s.own, k.message ∈ s.replica.handled ∨ k.message ∈ s.replica.output.generated
  inSequence : InSequence p.id (s.replica.lastUI p.id).toNat
    (s.own.map Task.message ++ s.stream.batch)
  resets : s.stream.resets ≤ s.replica.output.resets
  supplied : s.stream.resets = s.replica.output.resets →
    s.stream.next ≤ s.replica.output.log.length ∧
      ∃ done, s.replica.output.log.take s.stream.next = done ++ s.stream.batch ∧
        ∀ x ∈ done, x ∈ s.replica.handled ∨ s.own.getLast?.map Task.message = some x

structure Grown (p : Params) (s s' : Replica) : Prop where
  extends_ : Extends s s'
  lastUI : s.lastUI p.id ≤ s'.lastUI p.id
  output : Output.Steps p s.output s'.output

theorem Stepped.grown {l : Label} (hid : p.id < p.config.n) (h : s.Reachable p C)
    (hstepped : Stepped p s l s') : Grown p s.replica s'.replica := by
  rcases hstepped.replica_cases with heq | ⟨view, -, heq⟩ | ⟨m, order, hproc, heq, -⟩
  · rw [heq]
    exact ⟨.refl _, UInt64.le_refl _, .refl⟩
  · rw [heq]
    refine ⟨extends_requestViewChange _ _, ?_, Replica.requestViewChange_steps _ _⟩
    rw [Replica.lastUI_requestViewChange]
    exact UInt64.le_refl _
  · have htrans := @Replica.processMessage_transition p order m s.replica
    rw [heq]
    refine ⟨extends_of_transition htrans, htrans.lastUI_le ?_ _, htrans.output_steps⟩
    rintro c rfl
    exact (h.run.admitted hid (h.linked.2.admits hproc)).self.2.1.1

namespace Streaming

theorem frame (h : Streaming p s) (hown : s'.own = s.own) (hstream : s'.stream = s.stream)
    (hgrown : Grown p s.replica s'.replica) : Streaming p s' := by
  have hhandled := hgrown.extends_.handled.subset
  refine ⟨?_, ?_, ?_, ?_⟩
  · rw [hown]
    exact fun k hk => (h.tasks k hk).imp (hhandled ·) (hgrown.extends_.generated.subset ·)
  · rw [hown, hstream]
    exact h.inSequence.mono (UInt64.le_iff_toNat_le.mp hgrown.lastUI)
  · rw [hstream]
    rcases hgrown.output.log_cases with ⟨heq, -⟩ | hlt
    · exact heq ▸ h.resets
    · exact h.resets.trans (Nat.le_of_lt hlt)
  · rw [hown, hstream]
    intro heq
    rcases hgrown.output.log_cases with ⟨hsame, t, hlog⟩ | hlt
    · obtain ⟨hnext, done, htake, hdone⟩ := h.supplied (heq.trans hsame)
      rw [← hlog]
      refine ⟨hnext.trans (by simp), done, ?_, fun x hx => (hdone x hx).imp_left (hhandled ·)⟩
      rw [List.take_append_of_le_length hnext]
      exact htake
    · exact absurd (heq ▸ h.resets) (Nat.not_le.mpr hlt)

/-- A task is done. -/
theorem pop {k : Task} {tasks : List Task} (h : Streaming p s) (hown : s.own = k :: tasks)
    (hk : k.message ∈ s.replica.handled) (hist : Replica.History p s.replica) :
    Streaming p { s with own := tasks } := by
  refine ⟨fun x hx => h.tasks x (hown ▸ .tail k hx), ?_, h.resets, fun heq => ?_⟩
  · have hseq := h.inSequence
    rw [hown] at hseq
    have hle := hist.counterOf_le hk
    exact hseq.2.mono (Nat.max_le.mpr ⟨Nat.le_refl _, hle⟩)
  · obtain ⟨hnext, done, htake, hdone⟩ := h.supplied heq
    refine ⟨hnext, done, htake, fun x hx => ?_⟩
    rcases hdone x hx with hx | hlast
    · exact .inl hx
    · rw [hown] at hlast
      cases tasks with
      | nil =>
          cases hlast
          exact .inl hk
      | cons k' tasks => exact .inr (by rwa [List.getLast?_cons_cons] at hlast)

theorem supply {m : Message} {batch : List Message} (h : Streaming p s) (hown : s.own = [])
    (hbatch : s.stream.batch = m :: batch) (hm : m ∈ s.replica.output.generated) :
    Streaming p { s with own := [.handle m], stream := { s.stream with batch } } := by
  refine ⟨?_, ?_, h.resets, fun heq => ?_⟩
  · intro k hk
    cases List.mem_singleton.mp hk
    exact .inr hm
  · have hseq := h.inSequence
    rw [hown, hbatch] at hseq
    exact hseq
  · obtain ⟨hnext, done, htake, hdone⟩ := h.supplied heq
    rw [hown] at hdone
    refine ⟨hnext, done ++ [m], ?_, fun x hx => ?_⟩
    · rw [htake, hbatch, List.append_assoc]
      rfl
    · rcases List.mem_append.mp hx with hx | hx
      · exact .inl ((hdone x hx).resolve_right fun hnone => nomatch hnone)
      · cases List.mem_singleton.mp hx
        exact .inr rfl

theorem fetch (h : Streaming p s) (hist : Replica.History p s.replica)
    (hlog : InSequence p.id 0 s.replica.output.log)
    (hreset : s.stream.batch = [] ∨ s.stream.resets ≠ s.replica.output.resets) :
    Streaming p { s with stream :=
      ⟨s.replica.output.log.drop
          (if s.stream.resets = s.replica.output.resets then s.stream.next else 0),
        s.replica.output.log.length, s.replica.output.resets⟩ } := by
  by_cases heq : s.stream.resets = s.replica.output.resets
  · have hempty := hreset.resolve_right (not_not_intro heq)
    obtain ⟨-, done, htake, hdone⟩ := h.supplied heq
    rw [hempty, List.append_nil] at htake
    have hseq := h.inSequence
    rw [hempty, List.append_nil] at hseq
    rw [if_pos heq]
    refine ⟨h.tasks, hseq.append fun k hk hown => ?_, Nat.le_refl _, fun _ => ?_⟩
    · -- what has been supplied has been handled, or is being handled
      refine Gapless.right (l := s.replica.output.log.take s.stream.next) ?_ (Nat.zero_le k)
        fun x hx => ?_
      · rw [List.take_append_drop]
        exact hlog
      · rcases hdone x (htake ▸ hx) with hx | hx
        · exact (hist.counterOf_le hx).trans hk
        · obtain ⟨t, ht, rfl⟩ := Option.map_eq_some_iff.mp hx
          exact hown _ (List.mem_map.mpr ⟨t, List.mem_of_getLast? ht, rfl⟩)
    · refine ⟨Nat.le_refl _, done, ?_, hdone⟩
      rw [List.take_length, ← htake, List.take_append_drop]
  · rw [if_neg heq, List.drop_zero]
    refine ⟨h.tasks, h.inSequence.left.append fun k _ _ => hlog.mono (Nat.zero_le k),
      Nat.le_refl _, fun _ => ⟨Nat.le_refl _, [], List.take_length, ?_⟩⟩
    exact fun _ hx => absurd hx List.not_mem_nil

theorem expand {m : Message} {tasks : List Task} (h : Streaming p s)
    (hown : s.own = .handle m :: tasks)
    (hembedded : ∀ x ∈ m.embedded, x ∈ s.replica.handled ∨ x ∈ s.replica.output.generated)
    (hseq : InSequence p.id (s.replica.lastUI p.id).toNat m.embedded) :
    Streaming p { s with own := Node.expand m ++ tasks } := by
  have hm := h.tasks (.handle m) (hown ▸ List.mem_cons_self)
  have hmessages : (Node.expand m ++ tasks).map Task.message =
      m.embedded ++ m :: tasks.map Task.message := by
    simp [Node.expand, Task.message, Function.comp_def]
  refine ⟨fun k hk => ?_, ?_, h.resets, fun heq => ?_⟩
  · have hmem : k.message ∈ m.embedded ++ m :: tasks.map Task.message :=
      hmessages ▸ List.mem_map.mpr ⟨k, hk, rfl⟩
    rcases List.mem_append.mp hmem with hmem | hmem
    · exact hembedded _ hmem
    · rcases List.mem_cons.mp hmem with heq | hmem
      · rw [heq]
        exact hm
      · obtain ⟨k', hk', heq⟩ := List.mem_map.mp hmem
        rw [← heq]
        exact h.tasks k' (hown ▸ .tail _ hk')
  · have hold := h.inSequence
    rw [hown] at hold
    change InSequence p.id _ ((Node.expand m ++ tasks).map Task.message ++ _)
    rw [hmessages, List.append_assoc]
    exact hseq.append fun k hk _ => hold.mono hk
  · obtain ⟨hnext, done, htake, hdone⟩ := h.supplied heq
    refine ⟨hnext, done, htake, fun x hx => (hdone x hx).imp_right fun hlast => ?_⟩
    rw [hown] at hlast
    cases tasks with
    | nil =>
        cases hlast
        simp [Node.expand, Task.message]
    | cons k tasks =>
        rw [List.getLast?_cons_cons] at hlast
        simpa using hlast

end Streaming

theorem Reachable.streaming (hid : p.id < p.config.n) (htol : p.config.Tolerant)
    (h : s.Reachable p C) (hlive : s.crashed = none) : Streaming p s := by
  induction h with
  | init =>
      exact ⟨fun _ hk => absurd hk List.not_mem_nil, trivial, Nat.le_refl _,
        fun _ => ⟨Nat.le_refl _, [], rfl, fun _ hx => absurd hx List.not_mem_nil⟩⟩
  | @step s s' l h hstep hcond ih =>
      obtain ⟨hlive', hstepped, -⟩ := step_cases hstep
      have ih := ih hlive'
      obtain ⟨hrun, hlinked⟩ := h.linked
      have hist := hrun.history hid
      have hist' := (h.step hstep hcond).run.history hid
      have hgrown := hstepped.grown hid h
      cases hstepped with
      | fetched hreset => exact ih.fetch hist (hrun.log_inSequence hid) hreset
      | supplied hown hbatch =>
          exact ih.supply hown hbatch (hlinked.batch _ (hbatch ▸ List.mem_cons_self))
      | ownExpanded htasks =>
          obtain ⟨hembedded, hseq⟩ := hrun.embedded_inSequence hid htol
            (ih.tasks (.handle _) (htasks ▸ List.mem_cons_self))
          exact ih.expand htasks hembedded hseq
      | @ownProcessed order m tasks new r htasks hproc =>
          have hframe : Streaming p { s with replica := r } := ih.frame rfl rfl hgrown
          exact hframe.pop htasks (Replica.mem_handled_of_ok hproc) hist'
      | ownFailed => cases hlive
      | ownPanicked => cases hlive
      | _ => exact ih.frame rfl rfl hgrown

/-- The next message of the own-message goroutine is not ahead of its sequence. -/
theorem Reachable.own_not_gap {c : CertifiedMessage} {tasks : List Task}
    (hid : p.id < p.config.n) (htol : p.config.Tolerant) (h : s.Reachable p C)
    (hlive : s.crashed = none) (htasks : s.own = .process (.certified c) :: tasks) :
    c.counter.toNat ≤ (s.replica.lastUI c.replicaID).toNat + 1 := by
  have hstreaming := h.streaming hid htol hlive
  obtain ⟨hrun, hlinked⟩ := h.linked
  have hist := hrun.history hid
  rcases hstreaming.tasks _ (htasks ▸ List.mem_cons_self) with hhandled | hgen
  · exact Nat.le_succ_of_le (UInt64.le_iff_toNat_le.mp (hist.certified c hhandled))
  · have hown := hrun.replicaID_generated hgen
    have hseq := hstreaming.inSequence
    rw [htasks] at hseq
    rw [hown]
    rcases hseq.1 with hstarts | hle
    · -- what the message carries has been handled, and ends right before it
      have hemb := (hlinked.ownAdmits htasks).embedded
      have hsound : HereditarilySound p.crypto (.certified c) :=
        ((hrun.proper hid htol).generated _ hgen).mono fun _ hx => hx.sound
      have hbefore {x : CertifiedMessage} (hx : .certified x ∈ (Message.certified c).embedded)
          (hxid : x.replicaID = p.id) (hxcv : x.counter.toNat + 1 = c.counter.toNat) :
          c.counter.toNat ≤ (s.replica.lastUI p.id).toNat + 1 := by
        have hle := UInt64.le_iff_toNat_le.mp (hist.certified x (hemb _ hx))
        rw [hxid] at hle
        omega
      cases c with
      | viewChange vc =>
          obtain ⟨hempty, hback⟩ := hsound.validLog
          rcases List.eq_nil_or_concat' vc.messageLog with hnil | ⟨l, x, hlog⟩
          · have hone : vc.ui.counter = 1 := (hempty hnil).2
            rw [CertifiedMessage.counter_viewChange, hone]
            exact Nat.le_add_left _ _
          · rw [hlog, BackwardsLog.concat] at hback
            refine hbefore (x := x) ?_ (hback.1.trans hown)
              ((UInt64.eq_add_one_iff hsound.uiValid.1).mp hback.2.1.symm).symm
            exact List.mem_append_right _ (List.mem_map.mpr ⟨x, by simp [hlog], rfl⟩)
      | newView nv =>
          obtain ⟨vc, hvc, hvcid, hvccv⟩ := h.newView_embeds hid htol nv hgen
          exact hbefore (List.mem_map.mpr ⟨vc, hvc, rfl⟩) hvcid hvccv
      | _ => exact absurd rfl hstarts
    · have hcounter : (Message.certified c).counterOf p.id = c.counter.toNat := if_pos hown
      exact hcounter ▸ hle

end Node

end MinBFT
