import MinBFT.Connections
import MinBFT.Lib.Sums

/-!
# Work

How many steps the replicas have left to make for the messages around. Handling a message takes two
steps for each message in it. A message in a log has yet to be taken from there, supplied or sent,
and handled, by the replica itself and by each of its peers. A step that is not about a message from
outside takes something off, unless it generates a message.
-/

namespace MinBFT

def Message.weight (m : Message) : ℕ := 2 * m.nested.length

theorem Message.weight_eq (m : Message) : m.weight = 2 + (m.embedded.map Message.weight).sum := by
  have hsum (l : List Message) : 2 * (l.flatMap nested).length = (l.map Message.weight).sum := by
    induction l with
    | nil => rfl
    | cons x l ih =>
        rw [List.flatMap_cons, List.length_append, List.map_cons, List.sum_cons, ← ih, weight]
        omega
  rw [weight, nested_eq, List.length_cons, ← hsum]
  omega

def Task.weight : Task → ℕ
  | .handle m => m.weight
  | .process _ => 1

namespace Task

theorem weight_pos (k : Task) : 0 < k.weight := by
  cases k with
  | handle m =>
      rw [weight, Message.weight_eq]
      omega
  | process m => exact Nat.one_pos

def total (tasks : List Task) : ℕ := (tasks.map weight).sum

@[simp] theorem total_nil : total [] = 0 := rfl

@[simp] theorem total_cons (k : Task) (tasks : List Task) :
    total (k :: tasks) = k.weight + total tasks := by simp [total]

@[simp] theorem total_append (a b : List Task) : total (a ++ b) = total a + total b := by
  simp [total]

theorem total_expand (m : Message) : total (Node.expand m) + 1 = m.weight := by
  have hembedded : total (m.embedded.map .handle) = (m.embedded.map Message.weight).sum := by
    rw [total, List.map_map]
    rfl
  rw [Node.expand, total_append, hembedded, m.weight_eq]
  simp [weight]
  omega

end Task

/-- The steps left for messages that have to be handled and passed on `k` times before. -/
def queued (k : ℕ) (msgs : List Message) : ℕ := (msgs.map fun m => k + m.weight).sum

@[simp] theorem queued_nil (k : ℕ) : queued k [] = 0 := rfl

@[simp] theorem queued_cons (k : ℕ) (m : Message) (msgs : List Message) :
    queued k (m :: msgs) = k + m.weight + queued k msgs := by simp [queued]

@[simp] theorem queued_append (k : ℕ) (a b : List Message) :
    queued k (a ++ b) = queued k a + queued k b := by simp [queued]

theorem queued_succ (k : ℕ) (msgs : List Message) :
    queued (k + 1) msgs = queued k msgs + msgs.length := by
  induction msgs with
  | nil => rfl
  | cons m msgs ih =>
      rw [queued_cons, queued_cons, List.length_cons, ih]
      omega

/-- The step is about no message from outside, and about no timeout. -/
def Label.Internal : Label → Prop
  | .receive _ => False
  | .timeout _ => False
  | _ => True

namespace Node

variable {p : Params} {s s' : Node} {order : List Request} {k : ℕ} {t : Thread} {l : Label}

def work (s : Node) : ℕ :=
  (s.threads.map fun t => Task.total t.tasks).sum + Task.total s.own + queued 1 s.stream.batch +
    queued 2 (s.replica.output.generated.drop s.stream.next)

theorem queued_drop_append {a : List Message} {n : ℕ} (i : ℕ) (h : n ≤ a.length)
    (new : List Message) : queued i ((a ++ new).drop n) = queued i (a.drop n) + queued i new := by
  rw [List.drop_append_of_le_length h, queued_append]

/-- A goroutine has come from one list of tasks to another, and the replica has generated more. -/
theorem work_setThread {r : Replica} {new : List Message} (t' : Thread)
    (hnext : s.stream.next ≤ s.replica.output.generated.length) (ht : s.threads[k]? = some t)
    (hgen : r.output.generated = s.replica.output.generated ++ new) :
    ({ s with replica := r }.setThread k t').work + Task.total t.tasks =
      s.work + Task.total t'.tasks + queued 2 new := by
  have hsum := @List.sum_map_set Thread (fun t => Task.total t.tasks) s.threads k t t' ht
  have hqueue := queued_drop_append 2 hnext new
  simp only [work, setThread, hgen]
  omega

theorem processMessage_generated (order : List Request) (m : Message) (s : Replica) :
    ∃ new, (Replica.processMessage p order m s).state.output.generated =
      s.output.generated ++ new := by
  obtain ⟨new, hnew⟩ :=
    (@Replica.processMessage_transition p order m s).output_steps.generated_prefix
  exact ⟨new, hnew.symm⟩

theorem work_of_runThread (hnext : s.stream.next ≤ s.replica.output.generated.length)
    (ht : s.threads[k]? = some t) (hlive : s'.crashed = none)
    (h : s.runThread p order k t = some s') :
    ∃ new, s'.replica.output.generated = s.replica.output.generated ++ new ∧
      s'.work + 1 ≤ s.work + queued 2 new := by
  have hkept {t' : Thread} (hless : Task.total t'.tasks + 1 ≤ Task.total t.tasks) :
      (s.setThread k t').work + 1 ≤ s.work + queued 2 [] := by
    have hwork : (s.setThread k t').work + Task.total t.tasks =
        s.work + Task.total t'.tasks + queued 2 [] :=
      work_setThread t' hnext ht (List.append_nil _).symm
    omega
  unfold runThread at h
  split at h
  · cases h
  · rename_i m tasks htasks
    have hexpand := Task.total_expand m
    have hpos := (Task.handle m).weight_pos
    split at h
    · cases h
      refine ⟨[], (List.append_nil _).symm, hkept ?_⟩
      simp only [htasks, Task.total_cons, Task.total_append, Task.weight]
      omega
    · cases h
      refine ⟨[], (List.append_nil _).symm, hkept ?_⟩
      simp only [htasks, Task.total_cons, Task.total_nil]
      omega
    · cases h
      cases hlive
  · rename_i m tasks htasks
    obtain ⟨new, hnew⟩ := @processMessage_generated p order m s.replica
    split at h
    · rename_i b r hproc
      cases h
      rw [hproc] at hnew
      have hgen : r.output.generated = s.replica.output.generated ++ new := hnew
      have hwork := work_setThread { t with tasks } hnext ht hgen
      refine ⟨new, hgen, ?_⟩
      simp only [htasks, Task.total_cons, Task.weight] at hwork
      omega
    · rename_i e r hproc
      cases h
      rw [hproc] at hnew
      have hgen : r.output.generated = s.replica.output.generated ++ new := hnew
      have hwork := work_setThread { t with tasks := [], failed := some e } hnext ht hgen
      refine ⟨new, hgen, ?_⟩
      simp only [htasks, Task.total_cons, Task.weight, Task.total_nil] at hwork
      omega
    · cases h
      cases hlive

theorem work_of_runOwn (hnext : s.stream.next ≤ s.replica.output.generated.length)
    (hlive : s'.crashed = none) (h : s.runOwn p order = some s') :
    ∃ new, s'.replica.output.generated = s.replica.output.generated ++ new ∧
      s'.work + 1 ≤ s.work + queued 2 new := by
  unfold runOwn at h
  split at h
  · cases h
  · rename_i m tasks hown
    have hexpand := Task.total_expand m
    cases h
    refine ⟨[], (List.append_nil _).symm, ?_⟩
    simp only [work, hown, Task.total_cons, Task.total_append, Task.weight, queued_nil]
    omega
  · rename_i m tasks hown
    obtain ⟨new, hnew⟩ := @processMessage_generated p order m s.replica
    split at h
    · rename_i b r hproc
      cases h
      rw [hproc] at hnew
      have hgen : r.output.generated = s.replica.output.generated ++ new := hnew
      have hqueue := queued_drop_append 2 hnext new
      refine ⟨new, hgen, ?_⟩
      simp only [work, hown, hgen, Task.total_cons, Task.weight]
      omega
    · cases h
      cases hlive
    · cases h
      cases hlive

/-- A stream that has taken everything from the log stays as it is. -/
theorem work_of_fetch (hnext : s.stream.next ≤ s.replica.output.generated.length)
    (hlog : s.replica.output.log = s.replica.output.generated)
    (hresets : s.stream.resets = s.replica.output.resets) (h : s.fetch = some s') :
    s' = s ∨ s'.replica = s.replica ∧ s'.work + 1 ≤ s.work := by
  unfold fetch at h
  simp only [hresets, if_true, and_true, hlog] at h
  split_ifs at h with hbatch
  cases h
  have hnil := not_not.mp hbatch
  rcases Nat.lt_or_ge s.stream.next s.replica.output.generated.length with hlt | hge
  · right
    have hlen : 0 < (s.replica.output.generated.drop s.stream.next).length := by
      rw [List.length_drop]
      omega
    have hsucc : queued 2 (s.replica.output.generated.drop s.stream.next) = _ := queued_succ 1 _
    refine ⟨rfl, ?_⟩
    simp only [work, hnil, queued_nil, List.drop_length]
    omega
  · left
    have hstream : s.stream = ⟨[], s.replica.output.generated.length,
        s.replica.output.resets⟩ := by
      rw [← hnil, ← hresets, ← Nat.le_antisymm hnext hge]
    rw [List.drop_of_length_le hge, ← hstream]

theorem work_of_step (hl : l.Internal) (h : s.step p l = some s') (hlive : s'.crashed = none)
    (hnext : s.stream.next ≤ s.replica.output.generated.length)
    (hlog : s.replica.output.log = s.replica.output.generated)
    (hresets : s.stream.resets = s.replica.output.resets) :
    s' = s ∨ ∃ new, s'.replica.output.generated = s.replica.output.generated ++ new ∧
      s'.work + 1 ≤ s.work + queued 2 new := by
  have hact := act_of_step h
  cases l with
  | receive m => exact hl.elim
  | timeout view => exact hl.elim
  | run k order =>
      obtain ⟨t, ht, hrun⟩ := Option.bind_eq_some_iff.mp hact
      exact .inr (work_of_runThread hnext ht hlive hrun)
  | own order => exact .inr (work_of_runOwn hnext hlive hact)
  | fetch =>
      rcases work_of_fetch hnext hlog hresets hact with heq | ⟨hreplica, hwork⟩
      · exact .inl heq
      · exact .inr ⟨[], by rw [hreplica, List.append_nil], hwork⟩
  | supply =>
      right
      simp only [act, supply] at hact
      split at hact
      · rename_i m batch hown hbatch
        cases hact
        refine ⟨[], (List.append_nil _).symm, ?_⟩
        simp only [work, hown, hbatch, Task.total_cons, Task.total_nil, Task.weight, queued_cons,
          queued_nil]
        omega
      · cases hact

end Node

namespace Link

variable {s s' : Node} {lk lk' : Link}

def work (s : Node) (lk : Link) : ℕ :=
  lk.stream.isNone.toNat + queued 1 lk.transit + queued 2 lk.source.batch +
    queued 3 (s.replica.output.generated.drop lk.source.next) +
    queued 2 ((lk.unicast.drop lk.forwarded).map .request)

theorem work_of_generated {new : List Message}
    (hnext : lk.source.next ≤ s.replica.output.generated.length)
    (hgen : s'.replica.output.generated = s.replica.output.generated ++ new) :
    lk.work s' = lk.work s + queued 3 new := by
  have hqueue := Node.queued_drop_append 3 hnext new
  simp only [work, hgen]
  omega

theorem work_of_moved (h : Moved s lk lk')
    (hnext : lk.source.next ≤ s.replica.output.generated.length)
    (hlog : s.replica.output.log = s.replica.output.generated)
    (hresets : lk.source.resets = s.replica.output.resets) :
    lk' = lk ∨ lk'.work s + 1 ≤ lk.work s := by
  cases h with
  | opened hnone =>
      right
      simp only [work, hnone, withStream, source, Option.getD_none, Option.getD_some,
        Option.isNone_none, Option.isNone_some, Bool.toNat_true, Bool.toNat_false]
      omega
  | @fetched stream hstream hreset =>
      have hsource : lk.source = stream := by rw [source, hstream, Option.getD_some]
      rw [hsource] at hnext hresets
      have hnil := hreset.resolve_right (not_not_intro hresets)
      rw [if_pos hresets, hlog]
      rcases Nat.lt_or_ge stream.next s.replica.output.generated.length with hlt | hge
      · right
        have hlen : 0 < (s.replica.output.generated.drop stream.next).length := by
          rw [List.length_drop]
          omega
        have hsucc : queued 3 (s.replica.output.generated.drop stream.next) = _ := queued_succ 2 _
        simp only [work, hstream, withStream, source, Option.getD_some, hnil, queued_nil,
          List.drop_length, Option.isNone_some]
        omega
      · left
        have heq : stream = ⟨[], s.replica.output.generated.length,
            s.replica.output.resets⟩ := by
          rw [← hnil, ← hresets, ← Nat.le_antisymm hnext hge]
        rw [List.drop_of_length_le hge, ← heq, withStream, ← hstream]
  | @sent m batch next resets hstream =>
      right
      simp only [work, hstream, push, withStream, source, Option.getD_some,
        Option.isNone_some, queued_append, queued_cons, queued_nil]
      omega
  | @forwarded stream r hstream hr =>
      right
      obtain ⟨hlt, hget⟩ := List.getElem?_eq_some_iff.mp hr
      have hdrop : lk.unicast.drop lk.forwarded = r :: lk.unicast.drop (lk.forwarded + 1) := by
        rw [List.drop_eq_getElem_cons hlt, hget]
      have hwork : (lk.pushForwarded r).work s =
          lk.stream.isNone.toNat + queued 1 (lk.transit ++ [.request r]) +
            queued 2 lk.source.batch + queued 3 (s.replica.output.generated.drop lk.source.next) +
            queued 2 ((lk.unicast.drop (lk.forwarded + 1)).map .request) := rfl
      rw [hwork, work, hdrop]
      simp only [List.map_cons, queued_append, queued_cons, queued_nil]
      omega

theorem work_accept {m : Message} {transit : List Message} (receiver : Node)
    (h : lk.transit = m :: transit) :
    (lk.accept receiver transit).work s + (1 + m.weight) = lk.work s := by
  have hwork : (lk.accept receiver transit).work s = lk.stream.isNone.toNat + queued 1 transit +
      queued 2 lk.source.batch + queued 3 (s.replica.output.generated.drop lk.source.next) +
      queued 2 ((lk.unicast.drop lk.forwarded).map .request) := rfl
  rw [hwork, work, h, queued_cons]
  omega

end Link

namespace Connected

variable {net : Network} {c c' : Connected} {l : Label} {i j : UInt32}

def Label.Internal : Label → Prop
  | .replica _ l => l.Internal
  | .expire _ _ _ => False
  | _ => True

def sending (net : Network) (c : Connected) (i : UInt32) : ℕ :=
  ∑ j ∈ net.correct.erase i, (c.links i j).work (c.system.nodes i)

def work (net : Network) (c : Connected) : ℕ :=
  ∑ i ∈ net.correct, (c.system.nodes i).work + ∑ i ∈ net.correct, c.sending net i

/-- One link changes. -/
theorem sum_sending_le {lk : Link} {sys' : System} {d e : ℕ} (hpeers : net.Peers i j)
    (hgen : ∀ a, (sys'.nodes a).replica.output.generated =
      (c.system.nodes a).replica.output.generated)
    (hwork : lk.work (c.system.nodes i) + d ≤ (c.links i j).work (c.system.nodes i) + e) :
    ∑ a ∈ net.correct, (setLink ⟨sys', c.links⟩ i j lk).sending net a + d ≤
      ∑ a ∈ net.correct, c.sending net a + e := by
  have hsame (a : UInt32) (lk : Link) : lk.work (sys'.nodes a) = lk.work (c.system.nodes a) := by
    rw [Link.work, Link.work, hgen]
  apply Finset.sum_add_le_sum_add hpeers.1
  · intro a _ ha
    apply Finset.sum_congr rfl
    intro b _
    rw [links_setLink_of_ne _ _ fun hab => ha hab.1]
    exact hsame a _
  · apply Finset.sum_add_le_sum_add (Finset.mem_erase.mpr ⟨hpeers.2.2.symm, hpeers.2.1⟩)
    · intro b _ hb
      rw [links_setLink_of_ne _ _ fun hab => hb hab.2]
      exact hsame i _
    · rw [links_setLink_self]
      exact (hsame i lk).symm ▸ hwork

/-- One replica changes, and there is more for each of its peers. -/
theorem sum_sending_of_generated {s : Node} {sys' : System} {new : List Message}
    (hi : i ∈ net.correct) (hnodes : sys'.nodes = Function.update c.system.nodes i s)
    (hgen : s.replica.output.generated =
      (c.system.nodes i).replica.output.generated ++ new)
    (hnext : ∀ j ∈ net.correct, i ≠ j →
      (c.links i j).source.next ≤ (c.system.nodes i).replica.output.generated.length) :
    ∑ a ∈ net.correct, sending net ⟨sys', c.links⟩ a ≤
      ∑ a ∈ net.correct, c.sending net a + (net.correct.card - 1) * queued 3 new := by
  refine Finset.sum_add_le_sum_add (d := 0) hi ?_ ?_
  · intro a _ ha
    apply Finset.sum_congr rfl
    intro b _
    rw [hnodes, Function.update_of_ne ha]
  · have hconst : ∑ _j ∈ net.correct.erase i, queued 3 new =
        (net.correct.card - 1) * queued 3 new := by
      rw [Finset.sum_const_nat fun _ _ => rfl, Finset.card_erase_of_mem hi]
    rw [Nat.add_zero, sending, sending, ← hconst, ← Finset.sum_add_distrib]
    apply Finset.sum_le_sum
    intro j hj
    rw [hnodes, Function.update_self]
    exact Nat.le_of_eq (Link.work_of_generated
      (hnext j (Finset.mem_of_mem_erase hj) (Finset.ne_of_mem_erase hj).symm) hgen)

section Steps

variable (hnet : net.Admissible) (h : Reachable net c) (hn : c.system.NormalCase net)
include hnet h hn

theorem Reachable.next_le (hi : i ∈ net.correct) (hj : j ∈ net.correct) (hij : i ≠ j) :
    (c.links i j).source.next ≤ (c.system.nodes i).replica.output.generated.length :=
  (Reachable.sound hnet h hn hi hj hij).next

theorem Reachable.stream_next (hi : i ∈ net.correct) :
    (c.system.nodes i).stream.resets = (c.system.nodes i).replica.output.resets ∧
      (c.system.nodes i).stream.next ≤ (c.system.nodes i).replica.output.generated.length := by
  have hnode := (Reachable.system h).node i
  have hstreaming := hnode.streaming (hnet.lt hi) hnet.tolerant (hn.alive i hi)
  obtain ⟨hlog, hresets⟩ := hnode.run.log_eq_generated (hnet.lt hi) (hn.views i hi)
  have hsame : (c.system.nodes i).stream.resets = (c.system.nodes i).replica.output.resets := by
    have hle := hstreaming.resets
    omega
  refine ⟨hsame, ?_⟩
  rw [← hlog]
  exact (hstreaming.supplied hsame).1

/-- A replica goes on by itself. -/
theorem Reachable.work_of_replica {l : MinBFT.Label} {sys' : System} (hl : l.Internal)
    (hstep : c.system.step net i l = some sys') (hn' : sys'.NormalCase net) :
    Connected.mk sys' c.links = c ∨ ∃ new, (sys'.nodes i).replica.output.generated =
        (c.system.nodes i).replica.output.generated ++ new ∧
      work net ⟨sys', c.links⟩ + 1 ≤ c.work net + net.correct.card * queued 3 new := by
  obtain ⟨hi, -, s, hs, hnodes⟩ := System.step_cases hstep
  have hnode : sys'.nodes i = s := by rw [hnodes, Function.update_self]
  obtain ⟨hresets, hnext⟩ := Reachable.stream_next hnet h hn hi
  have hlog := (((Reachable.system h).node i).run.log_eq_generated (hnet.lt hi) (hn.views i hi)).1
  rcases Node.work_of_step hl hs (hnode ▸ hn'.alive i hi) hnext hlog hresets with
    rfl | ⟨new, hgen, hwork⟩
  · left
    rw [Function.update_eq_self] at hnodes
    cases sys'
    cases hnodes
    rfl
  · right
    refine ⟨new, hnode ▸ hgen, ?_⟩
    have hown : ∑ a ∈ net.correct, (sys'.nodes a).work + 1 ≤
        ∑ a ∈ net.correct, (c.system.nodes a).work + queued 2 new := by
      apply Finset.sum_add_le_sum_add hi
      · intro a _ ha
        rw [hnodes, Function.update_of_ne ha]
      · rw [hnode]
        exact hwork
    have hsending := sum_sending_of_generated hi hnodes hgen fun j hj hij =>
      Reachable.next_le hnet h hn hi hj hij
    have hsucc : queued 3 new = queued 2 new + new.length := queued_succ 2 new
    have hcard : net.correct.card * queued 3 new =
        (net.correct.card - 1) * queued 3 new + queued 3 new := by
      have hpos := Finset.card_pos.mpr ⟨i, hi⟩
      rw [← Nat.succ_mul, Nat.succ_eq_add_one, Nat.sub_add_cancel hpos]
    simp only [work]
    omega

omit hnet h hn in
theorem work_of_delivered {m : Message} {transit : List Message} {sys' : System}
    (hpeers : net.Peers i j) (htransit : (c.links i j).transit = m :: transit)
    (hstep : c.system.step net j (.receive m) = some sys') :
    work net (setLink ⟨sys', c.links⟩ i j ((c.links i j).accept (c.system.nodes j) transit)) + 1 ≤
        c.work net ∧
      ∀ a, (sys'.nodes a).replica = (c.system.nodes a).replica := by
  obtain ⟨hj, -, s, hs, hnodes⟩ := System.step_cases hstep
  have hreplica : ∀ a, (sys'.nodes a).replica = (c.system.nodes a).replica := by
    intro a
    rw [hnodes]
    by_cases ha : a = j
    · subst ha
      rw [Function.update_self]
      cases (Node.step_cases hs).2.1
      rfl
    · rw [Function.update_of_ne ha]
  refine ⟨?_, hreplica⟩
  have hown : ∑ a ∈ net.correct, (sys'.nodes a).work + 0 ≤
      ∑ a ∈ net.correct, (c.system.nodes a).work + m.weight := by
    apply Finset.sum_add_le_sum_add hj
    · intro a _ ha
      rw [hnodes, Function.update_of_ne ha]
    · rw [hnodes, Function.update_self]
      cases (Node.step_cases hs).2.1
      simp only [Node.work, List.map_append, List.sum_append, List.map_cons, List.map_nil,
        List.sum_cons, List.sum_nil, Task.total_cons, Task.total_nil, Task.weight]
      omega
  have hsending := sum_sending_le (e := 0) hpeers (fun a => by rw [hreplica])
    (Nat.le_of_eq (Link.work_accept (c.system.nodes j) htransit))
  change ∑ a ∈ net.correct, (sys'.nodes a).work + _ + 1 ≤ _
  rw [work]
  omega

omit hnet h hn in
theorem setLink_self (c : Connected) (i j : UInt32) : c.setLink i j (c.links i j) = c := by
  unfold setLink
  congr
  funext a b
  split_ifs with hab
  · rw [hab.1, hab.2]
  · rfl

/-- A step without input from outside takes some of the work off, but may generate a message. -/
theorem Reachable.work_of_step (hl : l.Internal) (hstep : c.step net l = some c')
    (hn' : c'.system.NormalCase net) :
    c' = c ∨ (c'.work net + 1 ≤ c.work net ∧
        ∀ a, (c'.system.nodes a).replica = (c.system.nodes a).replica) ∨
      ∃ i l' new, l'.Internal ∧ c.system.step net i l' = some c'.system ∧
        (c'.system.nodes i).replica.output.generated =
          (c.system.nodes i).replica.output.generated ++ new ∧
        c'.work net + 1 ≤ c.work net + net.correct.card * queued 3 new := by
  cases step_stepped hstep with
  | @replica i l' sys' hsys =>
      rcases Reachable.work_of_replica hnet h hn hl hsys hn' with heq | ⟨new, hgen, hwork⟩
      · exact .inl heq
      · exact .inr (.inr ⟨i, l', new, hl, hsys, hgen, hwork⟩)
  | expired => exact hl.elim
  | @moved _ i j lk hpeers hmoved =>
      have hsound := Reachable.sound hnet h hn hpeers.1 hpeers.2.1 hpeers.2.2
      obtain ⟨hlog, hresets⟩ := ((Reachable.system h).node i).run.log_eq_generated
        (hnet.lt hpeers.1) (hn.views i hpeers.1)
      rcases Link.work_of_moved hmoved hsound.next hlog (hsound.resets.trans hresets.symm) with
        rfl | hwork
      · exact .inl (setLink_self c i j)
      · refine .inr (.inl ⟨?_, fun _ => rfl⟩)
        have hsending : ∑ a ∈ net.correct, (c.setLink i j lk).sending net a + 1 ≤
            ∑ a ∈ net.correct, c.sending net a :=
          sum_sending_le (e := 0) hpeers (fun _ => rfl) hwork
        exact Nat.add_le_add_left hsending _
  | @delivered i j m transit sys' hpeers htransit _ hsys =>
      exact .inr (.inl (work_of_delivered hpeers htransit hsys))

end Steps

end Connected

end MinBFT
