import MinBFT.Run

/-!
# Interleavings are runs

The tasks of a goroutine are arranged so that a message is processed only when everything embedded
in it has been handled. This holds however the goroutines interleave, and makes the replica of every
reachable node the end of a `Run`.
-/

namespace MinBFT

def Task.message : Task → Message
  | handle m => m
  | process m => m

/-- When the tasks are done in order, every message to be processed satisfies `V` and all that is
embedded in it satisfies `H` by then, provided that handling a message makes it satisfy `H`. -/
def Covered (V H : Message → Prop) : List Task → Prop
  | [] => True
  | .handle m :: tasks => Covered V (fun x => H x ∨ x = m) tasks
  | .process m :: tasks =>
      V m ∧ (∀ x ∈ m.embedded, H x) ∧ Covered V (fun x => H x ∨ x = m) tasks

namespace Covered

variable {V H H' : Message → Prop} {tasks : List Task}

theorem mono (hH : ∀ x, H x → H' x) (h : Covered V H tasks) : Covered V H' tasks := by
  induction tasks generalizing H H' with
  | nil => trivial
  | cons k tasks ih =>
      have hor : ∀ m x, H x ∨ x = m → H' x ∨ x = m := fun m x => Or.imp_left (hH x)
      cases k with
      | handle m => exact ih (hor m) h
      | process m => exact ⟨h.1, fun x hx => hH x (h.2.1 x hx), ih (hor m) h.2.2⟩

theorem handle_append {ms : List Message} (h : Covered V (fun x => H x ∨ x ∈ ms) tasks) :
    Covered V H (ms.map .handle ++ tasks) := by
  induction ms generalizing H with
  | nil => exact h.mono fun x hx => hx.resolve_right List.not_mem_nil
  | cons m ms ih =>
      refine ih (h.mono fun x hx => ?_)
      rw [List.mem_cons] at hx
      tauto

/-- Handling a message found valid comes down to handling what is embedded and processing it. -/
theorem expand {m : Message} (hm : V m) (h : Covered V H (.handle m :: tasks)) :
    Covered V H (Node.expand m ++ tasks) := by
  rw [Node.expand, List.append_assoc]
  refine handle_append ⟨hm, fun x hx => .inr hx, ?_⟩
  exact mono (fun x hx => hx.imp_left .inl) h

/-- Once processed, a message satisfies `H`. -/
theorem tail {m : Message} (hm : H' m) (hH : ∀ x, H x → H' x)
    (h : Covered V H (.process m :: tasks)) : Covered V H' tasks := by
  refine mono (fun x hx => ?_) h.2.2
  rcases hx with hx | rfl
  · exact hH x hx
  · exact hm

end Covered

namespace Node

variable {p : Params}

structure ThreadOK (p : Params) (s : Replica) (t : Thread) : Prop where
  nested : ∀ k ∈ t.tasks, k.message ∈ t.message.nested
  authentic : ∀ x ∈ t.message.nested, s.OwnAuthentic p x
  covered : Covered (Valid p.crypto p.config)
    (fun x => x ∈ s.handled ∧ HereditarilyValid p.crypto p.config x) t.tasks

structure Linked (p : Params) (s : Node) : Prop where
  tags : ∀ g ∈ s.replica.output.generated, tagAccepted p g = true
  log : s.replica.output.log <:+ s.replica.output.generated
  batch : ∀ m ∈ s.stream.batch, m ∈ s.replica.output.generated
  threads : ∀ t ∈ s.threads, ThreadOK p s.replica t
  own : ∀ k ∈ s.own, ∃ g ∈ s.replica.output.generated, k.message ∈ g.nested
  ownCovered : Covered (fun _ => True) (· ∈ s.replica.handled) s.own

/-- A replica that has only seen and generated more. -/
structure Extends (s s' : Replica) : Prop where
  generated : s.output.generated <+: s'.output.generated
  handled : s.handled <+: s'.handled

theorem Extends.refl (s : Replica) : Extends s s := ⟨List.prefix_refl _, List.prefix_refl _⟩

theorem Extends.ownAuthentic {s s' : Replica} (h : Extends s s') {x : Message}
    (hx : s.OwnAuthentic p x) : s'.OwnAuthentic p x := by
  cases x with
  | certified m =>
      intro hid hui
      obtain ⟨g, hg, heq⟩ := hx hid hui
      exact ⟨g, h.generated.subset hg, heq⟩
  | _ => trivial

theorem ThreadOK.extend {s s' : Replica} {t : Thread} (hext : Extends s s')
    (h : ThreadOK p s t) : ThreadOK p s' t :=
  ⟨h.nested, fun x hx => hext.ownAuthentic (h.authentic x hx),
    h.covered.mono fun _ hx => ⟨hext.handled.subset hx.1, hx.2⟩⟩

theorem ThreadOK.expand {s : Replica} {t : Thread} {m : Message} {tasks : List Task}
    (h : ThreadOK p s t) (htasks : t.tasks = .handle m :: tasks)
    (hm : Valid p.crypto p.config m) :
    ThreadOK p s { t with tasks := Node.expand m ++ tasks } := by
  have hnested := h.nested
  have hcovered := h.covered
  rw [htasks] at hnested hcovered
  refine ⟨?_, h.authentic, hcovered.expand hm⟩
  have hself : m ∈ t.message.nested := hnested _ List.mem_cons_self
  intro k hk
  rcases List.mem_append.mp hk with hk | hk
  · rcases List.mem_append.mp hk with hk | hk
    · obtain ⟨x, hx, rfl⟩ := List.mem_map.mp hk
      exact Message.mem_nested_of_embedded hself hx
    · cases List.mem_singleton.mp hk
      exact hself
  · exact hnested k (.tail _ hk)

theorem ThreadOK.failed {s : Replica} {t : Thread} (h : ThreadOK p s t) (e : Option Error) :
    ThreadOK p s { t with tasks := [], failed := e } :=
  ⟨fun _ hk => absurd hk List.not_mem_nil, h.authentic, trivial⟩

theorem Linked.withReplica {s : Node} {r : Replica} (h : Linked p s)
    (hext : Extends s.replica r) (hsteps : Output.Steps p s.replica.output r.output)
    (htags : ∀ g ∈ r.output.generated, tagAccepted p g = true) :
    Linked p { s with replica := r } :=
  ⟨htags, hsteps.log_suffix h.log, fun m hm => hext.generated.subset (h.batch m hm),
    fun t ht => (h.threads t ht).extend hext,
    fun k hk => let ⟨g, hg, hk⟩ := h.own k hk; ⟨g, hext.generated.subset hg, hk⟩,
    h.ownCovered.mono fun _ hx => hext.handled.subset hx⟩

theorem Linked.setThread {s : Node} {i : ℕ} {t : Thread} (h : Linked p s)
    (ht : ThreadOK p s.replica t) : Linked p (s.setThread i t) :=
  ⟨h.tags, h.log, h.batch, fun t' ht' => (List.mem_or_eq_of_mem_set ht').elim (h.threads t')
    fun heq => heq ▸ ht, h.own, h.ownCovered⟩

theorem Linked.crash {s : Node} (h : Linked p s) (e : Option Panic) :
    Linked p { s with crashed := e } :=
  ⟨h.tags, h.log, h.batch, h.threads, h.own, h.ownCovered⟩

theorem Linked.withOwn {s : Node} {tasks : List Task} (h : Linked p s)
    (hown : ∀ k ∈ tasks, ∃ g ∈ s.replica.output.generated, k.message ∈ g.nested)
    (hcov : Covered (fun _ => True) (· ∈ s.replica.handled) tasks) :
    Linked p { s with own := tasks } :=
  ⟨h.tags, h.log, h.batch, h.threads, hown, hcov⟩

theorem extends_requestViewChange (newView : UInt64) (s : Replica) :
    Extends s (s.requestViewChange p newView) := by
  have hsteps := @Replica.requestViewChange_steps p newView s
  refine ⟨hsteps.generated_prefix, ?_⟩
  rw [Replica.handled_requestViewChange]

theorem extends_of_transition {order : List Request} {m : Message} {s s' : Replica}
    (h : Replica.Transition p order m s s') : Extends s s' :=
  ⟨h.output_steps.generated_prefix, h.handled_prefix⟩

/-- The old tags were accepted, and the step has been checked to produce only such. -/
theorem tags_of_check {s s' : Replica} (hold : ∀ g ∈ s.output.generated, tagAccepted p g = true)
    (hpre : s.output.generated <+: s'.output.generated)
    (hcheck : (s'.output.generated.drop s.output.generated.length).all (tagAccepted p) = true) :
    ∀ g ∈ s'.output.generated, tagAccepted p g = true := by
  obtain ⟨new, hnew⟩ := hpre
  rw [← hnew, List.drop_left] at hcheck
  intro g hg
  rw [← hnew] at hg
  rcases List.mem_append.mp hg with hg | hg
  · exact hold g hg
  · exact List.all_eq_true.mp hcheck g hg

variable {C : Replica → Message → Prop}

/-- A message that a goroutine is about to process may be processed. -/
theorem ThreadOK.admits {s : Replica} {t : Thread} {m : Message} {tasks : List Task}
    (h : ThreadOK p s t) (htasks : t.tasks = .process m :: tasks) :
    s.Admits p m ∧ HereditarilyValid p.crypto p.config m := by
  have hnested := h.nested
  have hcovered := h.covered
  rw [htasks] at hnested hcovered
  have hvalid : HereditarilyValid p.crypto p.config m :=
    ⟨hcovered.1, fun x hx => (hcovered.2.1 x hx).2⟩
  have hsub := Message.nested_subset (hnested _ List.mem_cons_self)
  exact ⟨⟨fun x hx => (hcovered.2.1 x hx).1,
    .inl ⟨hvalid, fun x hx => h.authentic x (hsub hx)⟩⟩, hvalid⟩

theorem ThreadOK.processed {s s' : Replica} {t : Thread} {m : Message} {tasks : List Task}
    (h : ThreadOK p s t) (htasks : t.tasks = .process m :: tasks) (hext : Extends s s')
    (hm : m ∈ s'.handled) : ThreadOK p s' { t with tasks } := by
  have hvalid := (h.admits htasks).2
  have hnested := h.nested
  have hcovered := h.covered
  rw [htasks] at hnested hcovered
  exact ⟨fun k hk => hnested k (.tail _ hk), fun x hx => hext.ownAuthentic (h.authentic x hx),
    hcovered.tail ⟨hm, hvalid⟩ fun x hx => ⟨hext.handled.subset hx.1, hx.2⟩⟩

theorem processing_run {s : Node} {i : ℕ} {order : List Request} {t : Thread} {m : Message}
    {tasks : List Task} (ht : s.threads[i]? = some t) (htasks : t.tasks = .process m :: tasks) :
    s.processing (.run i order) = some m := by
  simp [processing, ht, htasks]

theorem processing_own {s : Node} {order : List Request} {m : Message} {tasks : List Task}
    (htasks : s.own = .process m :: tasks) : s.processing (.own order) = some m := by
  simp [processing, htasks]

theorem ownAuthentic_iff {s : Replica} {m : Message} (h : ownAuthentic p s m = true) :
    ∀ x ∈ m.nested, s.OwnAuthentic p x := by
  intro x hx
  have hx := List.all_eq_true.mp h x hx
  cases x with
  | certified c =>
      intro hid hui
      have hgen : hasGenerated p s.output.generated c = true := by
        simpa [hid, hui.1, hui.2] using hx
      obtain ⟨g, hg, heq⟩ := List.any_eq_true.mp hgen
      rw [Bool.and_eq_true, beq_iff_eq, beq_iff_eq] at heq
      exact ⟨g, Output.mem_certified.mp hg, heq⟩
  | _ => trivial

/-- The transition behind a step that processes a message. -/
theorem run_of_process {s : Replica} {m : Message} {order : List Request}
    {res : EStateM.Result Fault Replica Bool} (hrun : s.Run p C) (hadmits : s.Admits p m)
    (hcond : C s m) (htags : ∀ g ∈ s.output.generated, tagAccepted p g = true)
    (hproc : Replica.processMessage p order m s = res)
    (hcheck : (res.state.output.generated.drop s.output.generated.length).all
      (tagAccepted p) = true) :
    res.state.Run p C ∧ Extends s res.state ∧ Output.Steps p s.output res.state.output ∧
      ∀ g ∈ res.state.output.generated, tagAccepted p g = true := by
  have htrans := @Replica.processMessage_transition p order m s
  rw [hproc] at htrans
  have hext := extends_of_transition htrans
  have htags' := tags_of_check htags hext.generated hcheck
  exact ⟨.process hrun hadmits hcond htrans htags', hext, htrans.output_steps, htags'⟩

theorem Linked.ownAdmits {s : Node} {m : Message} {tasks : List Task} (h : Linked p s)
    (htasks : s.own = .process m :: tasks) : s.replica.Admits p m := by
  have hcovered := h.ownCovered
  rw [htasks] at hcovered
  exact ⟨hcovered.2.1, .inr (h.own (.process m) (htasks ▸ List.mem_cons_self))⟩

theorem thread_of_processing {s : Node} {i : ℕ} {order : List Request} {m : Message}
    (h : s.processing (.run i order) = some m) :
    ∃ t ∈ s.threads, ∃ tasks, t.tasks = .process m :: tasks := by
  simp only [processing] at h
  split at h
  · rename_i hhead
    cases h
    obtain ⟨t, ht, hhead⟩ := Option.bind_eq_some_iff.mp hhead
    exact ⟨t, List.mem_of_getElem? ht, t.tasks.tail, (List.cons_head?_tail hhead).symm⟩
  · cases h

theorem processing_cases {s : Node} {l : Label} {m : Message} (h : s.processing l = some m) :
    (∃ t ∈ s.threads, ∃ tasks, t.tasks = .process m :: tasks) ∨
      ∃ tasks, s.own = .process m :: tasks := by
  cases l with
  | run i order => exact .inl (thread_of_processing h)
  | own order =>
      simp only [processing] at h
      split at h
      · rename_i hhead
        cases h
        exact .inr ⟨s.own.tail, (List.cons_head?_tail hhead).symm⟩
      · cases h
  | _ => cases h

/-- A message that some goroutine is about to process may be processed. -/
theorem Linked.admits {s : Node} {l : Label} {m : Message} (h : Linked p s)
    (hproc : s.processing l = some m) : s.replica.Admits p m := by
  rcases processing_cases hproc with ⟨t, ht, tasks, htasks⟩ | ⟨tasks, htasks⟩
  · exact ((h.threads t ht).admits htasks).1
  · exact h.ownAdmits htasks

theorem Linked.init : Linked p (Node.init p) where
  tags := fun _ hg => absurd hg List.not_mem_nil
  log := List.suffix_refl _
  batch := fun _ hm => absurd hm List.not_mem_nil
  threads := fun _ ht => absurd ht List.not_mem_nil
  own := fun _ hk => absurd hk List.not_mem_nil
  ownCovered := trivial

/-- One step keeps the goroutines linked to a run of the replica. -/
theorem Linked.step {s s' : Node} {l : Label} (hrun : s.replica.Run p C) (h : Linked p s)
    (hstep : s.step p l = some s') (hcond : ∀ m, s.processing l = some m → C s.replica m) :
    s'.replica.Run p C ∧ Linked p s' := by
  obtain ⟨-, hstepped, hcheck⟩ := step_cases hstep
  cases hstepped with
  | received hauthentic =>
      refine ⟨hrun, h.tags, h.log, h.batch, ?_, h.own, h.ownCovered⟩
      intro t ht
      rcases List.mem_append.mp ht with ht | ht
      · exact h.threads t ht
      · cases List.mem_singleton.mp ht
        refine ⟨?_, ownAuthentic_iff hauthentic, trivial⟩
        intro k hk
        cases List.mem_singleton.mp hk
        exact Message.self_mem_nested _
  | expanded ht htasks hvalid =>
      exact ⟨hrun, h.setThread ((h.threads _ (List.mem_of_getElem? ht)).expand htasks hvalid)⟩
  | invalid ht =>
      exact ⟨hrun, h.setThread ((h.threads _ (List.mem_of_getElem? ht)).failed _)⟩
  | unknown => exact ⟨hrun, h.crash _⟩
  | processed ht htasks hproc =>
      have hok := h.threads _ (List.mem_of_getElem? ht)
      obtain ⟨hrun', hext, hsteps, htags⟩ := run_of_process hrun (hok.admits htasks).1
        (hcond _ (processing_run ht htasks)) h.tags hproc hcheck
      exact ⟨hrun', (h.withReplica hext hsteps htags).setThread
        (hok.processed htasks hext (Replica.mem_handled_of_ok hproc))⟩
  | failed ht htasks hproc =>
      have hok := h.threads _ (List.mem_of_getElem? ht)
      obtain ⟨hrun', hext, hsteps, htags⟩ := run_of_process hrun (hok.admits htasks).1
        (hcond _ (processing_run ht htasks)) h.tags hproc hcheck
      exact ⟨hrun', (h.withReplica hext hsteps htags).setThread ((hok.extend hext).failed _)⟩
  | panicked ht htasks hproc =>
      have hok := h.threads _ (List.mem_of_getElem? ht)
      obtain ⟨hrun', hext, hsteps, htags⟩ := run_of_process hrun (hok.admits htasks).1
        (hcond _ (processing_run ht htasks)) h.tags hproc hcheck
      exact ⟨hrun', (h.withReplica hext hsteps htags).crash _⟩
  | fetched =>
      refine ⟨hrun, h.tags, h.log, ?_, h.threads, h.own, h.ownCovered⟩
      exact fun m hm => h.log.subset (List.mem_of_mem_drop hm)
  | supplied _ hbatch =>
      have hgen := h.batch _ (hbatch ▸ List.mem_cons_self)
      refine ⟨hrun, h.tags, h.log, fun x hx => h.batch x (hbatch ▸ .tail _ hx), h.threads, ?_,
        trivial⟩
      intro k hk
      cases List.mem_singleton.mp hk
      exact ⟨_, hgen, Message.self_mem_nested _⟩
  | @ownExpanded _ m tasks htasks =>
      have hcovered := h.ownCovered
      rw [htasks] at hcovered
      refine ⟨hrun, h.withOwn ?_ (hcovered.expand trivial)⟩
      obtain ⟨g, hg, hself⟩ := h.own _ (htasks ▸ List.mem_cons_self)
      intro k hk
      rcases List.mem_append.mp hk with hk | hk
      · rcases List.mem_append.mp hk with hk | hk
        · obtain ⟨x, hx, rfl⟩ := List.mem_map.mp hk
          exact ⟨g, hg, Message.mem_nested_of_embedded hself hx⟩
        · cases List.mem_singleton.mp hk
          exact ⟨g, hg, hself⟩
      · exact h.own k (htasks ▸ .tail _ hk)
  | ownProcessed htasks hproc =>
      obtain ⟨hrun', hext, hsteps, htags⟩ := run_of_process hrun (h.ownAdmits htasks)
        (hcond _ (processing_own htasks)) h.tags hproc hcheck
      have hlinked := h.withReplica hext hsteps htags
      have hcovered := h.ownCovered
      rw [htasks] at hcovered
      exact ⟨hrun', hlinked.withOwn (fun k hk => hlinked.own k (htasks ▸ .tail _ hk))
        (hcovered.tail (Replica.mem_handled_of_ok hproc) fun x hx => hext.handled.subset hx)⟩
  | ownFailed htasks hproc =>
      obtain ⟨hrun', hext, hsteps, htags⟩ := run_of_process hrun (h.ownAdmits htasks)
        (hcond _ (processing_own htasks)) h.tags hproc hcheck
      exact ⟨hrun', (h.withReplica hext hsteps htags).crash _⟩
  | ownPanicked htasks hproc =>
      obtain ⟨hrun', hext, hsteps, htags⟩ := run_of_process hrun (h.ownAdmits htasks)
        (hcond _ (processing_own htasks)) h.tags hproc hcheck
      exact ⟨hrun', (h.withReplica hext hsteps htags).crash _⟩
  | @timedOut view hview =>
      have hsteps := @Replica.requestViewChange_steps p (view + 1) s.replica
      have hext := @extends_requestViewChange p (view + 1) s.replica
      have htags := tags_of_check h.tags hext.generated hcheck
      exact ⟨.timeout hrun hview htags, h.withReplica hext hsteps htags⟩

/-- Every reachable state of a node is the end of a run of its replica. -/
theorem Reachable.linked {s : Node} (h : Reachable p C s) :
    s.replica.Run p C ∧ Linked p s := by
  induction h with
  | init => exact ⟨.init, .init⟩
  | step _ hstep hcond ih => exact ih.2.step ih.1 hstep hcond

theorem Reachable.run {s : Node} (h : Reachable p C s) : s.replica.Run p C := h.linked.1

/-- What a step does to the replica: nothing, a timeout, or processing a message, after which the
node is alive only if that has not ended in a panic. -/
theorem Stepped.replica_cases {s s' : Node} {l : Label} (h : Stepped p s l s') :
    s'.replica = s.replica ∨
      (∃ view ∈ s.replica.output.timers,
        s'.replica = s.replica.requestViewChange p (view + 1)) ∨
      ∃ m order, s.processing l = some m ∧
        s'.replica = (Replica.processMessage p order m s.replica).state ∧
        (s'.crashed = none →
          ∀ q r, Replica.processMessage p order m s.replica ≠ .error (.panic q) r) := by
  cases h with
  | @processed i order t m tasks new r ht htasks hproc =>
      refine .inr (.inr ⟨m, order, processing_run ht htasks, ?_, ?_⟩)
      · rw [hproc]
        rfl
      · rw [hproc]
        exact fun _ _ _ hc => nomatch hc
  | @failed i order t m tasks e r ht htasks hproc =>
      refine .inr (.inr ⟨m, order, processing_run ht htasks, ?_, ?_⟩)
      · rw [hproc]
        rfl
      · rw [hproc]
        exact fun _ _ _ hc => nomatch hc
  | @panicked i order t m tasks e r ht htasks hproc =>
      refine .inr (.inr ⟨m, order, processing_run ht htasks, ?_, fun hc => nomatch hc⟩)
      rw [hproc]
      rfl
  | @ownProcessed order m tasks new r htasks hproc =>
      refine .inr (.inr ⟨m, order, processing_own htasks, ?_, ?_⟩)
      · rw [hproc]
        rfl
      · rw [hproc]
        exact fun _ _ _ hc => nomatch hc
  | @ownFailed order m tasks e r htasks hproc =>
      refine .inr (.inr ⟨m, order, processing_own htasks, ?_, fun hc => nomatch hc⟩)
      rw [hproc]
      rfl
  | @ownPanicked order m tasks e r htasks hproc =>
      refine .inr (.inr ⟨m, order, processing_own htasks, ?_, fun hc => nomatch hc⟩)
      rw [hproc]
      rfl
  | timedOut hview => exact .inr (.inl ⟨_, hview, rfl⟩)
  | _ => exact .inl rfl

inductive Continued (p : Params) (s s' : Node) (t : Thread) : Thread → Prop where
  | same : Continued p s s' t t
  | failed (e : Error) : Continued p s s' t { t with tasks := [], failed := some e }
  | expanded {m : Message} {tasks : List Task} (htasks : t.tasks = .handle m :: tasks)
      (hvalid : Valid p.crypto p.config m) :
      Continued p s s' t { t with tasks := expand m ++ tasks }
  | processed {m : Message} {tasks : List Task} {order : List Request}
      (htasks : t.tasks = .process m :: tasks)
      (hreplica : s'.replica = (Replica.processMessage p order m s.replica).state) :
      Continued p s s' t { t with tasks }

theorem getElem?_setThread {s : Node} {i j : ℕ} {t u : Thread} (hj : s.threads[j]? = some u) :
    (s.setThread i t).threads[j]? = some (if i = j then t else u) := by
  obtain ⟨hlt, -⟩ := List.getElem?_eq_some_iff.mp hj
  split_ifs with hij
  · subst hij
    exact List.getElem?_set_self hlt
  · exact (List.getElem?_set_ne hij).trans hj

theorem Stepped.thread_cases {s s' : Node} {l : Label} (h : Stepped p s l s') {j : ℕ} {u : Thread}
    (hj : s.threads[j]? = some u) : ∃ u', s'.threads[j]? = some u' ∧ Continued p s s' u u' := by
  -- the goroutine that steps either is this one or leaves it alone
  have hset : ∀ {i : ℕ} {t t' : Thread} {r : Replica}, s.threads[i]? = some t →
      (Continued p s ({ s with replica := r }.setThread i t') t t') →
      ∃ u', ({ s with replica := r }.setThread i t').threads[j]? = some u' ∧
        Continued p s ({ s with replica := r }.setThread i t') u u' := by
    intro i t t' r ht hcont
    refine ⟨_, @getElem?_setThread { s with replica := r } _ _ _ _ hj, ?_⟩
    split_ifs with hij
    · subst hij
      cases ht.symm.trans hj
      exact hcont
    · exact .same
  cases h with
  | received =>
      refine ⟨u, ?_, .same⟩
      rw [List.getElem?_append_left (List.getElem?_eq_some_iff.mp hj).1]
      exact hj
  | expanded ht htasks hvalid => exact hset ht (.expanded htasks hvalid)
  | invalid ht => exact hset ht (.failed _)
  | @processed i order t m tasks new r ht htasks hproc =>
      have hstate : r = (Replica.processMessage p order m s.replica).state := by
        rw [hproc]
        rfl
      exact hset ht (.processed htasks hstate)
  | failed ht => exact hset ht (.failed _)
  | _ => exact ⟨u, hj, .same⟩

end Node

end MinBFT
