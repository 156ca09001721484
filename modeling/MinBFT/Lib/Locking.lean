import MinBFT.Lib.Sums

/-!
# Threads that share locks

Threads run programs that take and release read-write locks. A thread that is going to write keeps
new readers out from the moment it has announced itself, and then waits for those that are reading.

If all programs take locks in the order of their ranks, then there is always a thread that can go
on, and in the end all threads are done.
-/

namespace Locking

inductive Mode where
  | shared
  | exclusive
deriving DecidableEq

/-- What a thread does next, as far as locks go. What data decides is left open by `choose`. In
`wait`, a lock is taken exclusively, but the thread may also find that it has no need for it any
more. -/
inductive Prog (L : Type) where
  | done
  | lock (l : L) (m : Mode) (next : Prog L)
  /-- The thread has announced that it is going to write. -/
  | pending (l : L) (next : Prog L)
  | unlock (l : L) (m : Mode) (next : Prog L)
  | wait (l : L) (next : Bool → Prog L)
  | choose (next : Bool → Prog L)

structure Thread (L : Type) where
  prog : Prog L
  held : List (L × Mode)

variable {L : Type}

def Held (ts : List (Thread L)) (l : L) : Prop := ∃ t ∈ ts, ∃ m, (l, m) ∈ t.held

/-- Some thread holds the lock exclusively, or is going to. -/
def Writing (ts : List (Thread L)) (l : L) : Prop :=
  ∃ t ∈ ts, (l, .exclusive) ∈ t.held ∨ ∃ next, t.prog = .pending l next

inductive Pass : Thread L → Thread L → Prop where
  | pass {l : L} {next : Bool → Prog L} {held : List (L × Mode)} :
      Pass ⟨.wait l next, held⟩ ⟨next false, held⟩

def Prog.awaited : Prog L → Option L
  | .lock l _ _ => some l
  | .pending l _ => some l
  | .wait l _ => some l
  | _ => none

def Prog.size : Prog L → ℕ
  | .done => 0
  | .lock _ _ next => next.size + 2
  | .pending _ next => next.size + 1
  | .unlock _ _ next => next.size + 1
  | .wait _ next => (next true).size + (next false).size + 1
  | .choose next => (next true).size + (next false).size + 1

theorem Pass.size_lt {t t' : Thread L} (h : Pass t t') : t'.prog.size < t.prog.size := by
  cases h
  simp only [Prog.size]
  omega

def work (ts : List (Thread L)) : ℕ := (ts.map fun t => t.prog.size).sum

/-! ## Code

A piece of code is what it adds in front of the rest of a program, so that `a ∘ b` is `a` followed
by `b`. -/

abbrev Code (L : Type) := Prog L → Prog L

namespace Code

def locked (l : L) (m : Mode) (body : Code L) : Code L :=
  fun next => .lock l m (body (.unlock l m next))

def optional (body : Code L) : Code L := fun next => .choose fun b => if b then body next else next

def either (a a' : Code L) : Code L := fun next => .choose fun b => if b then a next else a' next

def each {α : Type} (xs : List α) (body : α → Code L) : Code L := fun next => xs.foldr body next

def waiting (l : L) (taken passed : Code L) : Code L :=
  fun next => .wait l fun b => if b then taken (.unlock l .exclusive next) else passed next

end Code

/-! ## Steps -/

variable [DecidableEq L]

/-- How a thread can go on among these threads. -/
inductive Move (ts : List (Thread L)) : Thread L → Thread L → Prop where
  | shared {l : L} {next : Prog L} {held : List (L × Mode)} (hfree : ¬ Writing ts l) :
      Move ts ⟨.lock l .shared next, held⟩ ⟨next, (l, .shared) :: held⟩
  | announce {l : L} {next : Prog L} {held : List (L × Mode)} (hfree : ¬ Writing ts l) :
      Move ts ⟨.lock l .exclusive next, held⟩ ⟨.pending l next, held⟩
  | exclusive {l : L} {next : Prog L} {held : List (L × Mode)} (hfree : ¬ Held ts l) :
      Move ts ⟨.pending l next, held⟩ ⟨next, (l, .exclusive) :: held⟩
  | unlock {l : L} {m : Mode} {next : Prog L} {held : List (L × Mode)} (hheld : (l, m) ∈ held) :
      Move ts ⟨.unlock l m next, held⟩ ⟨next, held.erase (l, m)⟩
  | wait {l : L} {next : Bool → Prog L} {held : List (L × Mode)} (hfree : ¬ Held ts l) :
      Move ts ⟨.wait l next, held⟩ ⟨next true, (l, .exclusive) :: held⟩
  | choose {next : Bool → Prog L} {held : List (L × Mode)} (b : Bool) :
      Move ts ⟨.choose next, held⟩ ⟨next b, held⟩

inductive Run (start : List (Thread L)) : ℕ → List (Thread L) → Prop where
  | start : Run start 0 start
  | step {n i : ℕ} {ts : List (Thread L)} {t t' : Thread L} (h : Run start n ts)
      (ht : ts[i]? = some t) (hstep : Move ts t t' ∨ Pass t t') : Run start (n + 1) (ts.set i t')

/-! ## Order -/

/-- The program takes every lock only when all locks held have a lower rank, and has released all of
them in the end. -/
def Ordered (rank : L → ℕ) : List (L × Mode) → Prog L → Prop
  | held, .done => held = []
  | held, .lock l m next => (∀ x ∈ held, rank x.1 < rank l) ∧ Ordered rank ((l, m) :: held) next
  | held, .pending l next =>
      (∀ x ∈ held, rank x.1 < rank l) ∧ Ordered rank ((l, .exclusive) :: held) next
  | held, .unlock l m next => (l, m) ∈ held ∧ Ordered rank (held.erase (l, m)) next
  | held, .wait l next => (∀ x ∈ held, rank x.1 < rank l) ∧
      Ordered rank ((l, .exclusive) :: held) (next true) ∧ Ordered rank held (next false)
  | held, .choose next => ∀ b, Ordered rank held (next b)

variable {rank : L → ℕ} {ts ts' : List (Thread L)} {t t' : Thread L}

theorem Move.ordered (h : Move ts t t') (hord : Ordered rank t.held t.prog) :
    Ordered rank t'.held t'.prog := by
  cases h with
  | shared => exact hord.2
  | announce => exact hord
  | exclusive => exact hord.2
  | unlock => exact hord.2
  | wait => exact hord.2.1
  | choose b => exact hord b

theorem Pass.ordered (h : Pass t t') (hord : Ordered rank t.held t.prog) :
    Ordered rank t'.held t'.prog := by
  cases h
  exact hord.2.2

theorem Run.ordered {start : List (Thread L)} {n : ℕ}
    (hstart : ∀ t ∈ start, Ordered rank t.held t.prog) (h : Run start n ts) :
    ∀ t ∈ ts, Ordered rank t.held t.prog := by
  induction h with
  | start => exact hstart
  | @step n i ts t t' _ ht hstep ih =>
      have hord := ih t (List.mem_of_getElem? ht)
      intro x hx
      rcases List.mem_or_eq_of_mem_set hx with hx | rfl
      · exact ih x hx
      · rcases hstep with hmove | hpass
        · exact hmove.ordered hord
        · exact hpass.ordered hord

theorem Ordered.held_of_done (hord : Ordered rank t.held t.prog) (hdone : t.prog = .done) :
    t.held = [] := by
  rwa [hdone] at hord

/-- A thread that cannot go on is done, or some lock is next. -/
theorem awaited_of_stuck (hord : Ordered rank t.held t.prog) (hstuck : ∀ t', ¬ Move ts t t')
    (hne : t.prog ≠ .done) : ∃ l, t.prog.awaited = some l := by
  obtain ⟨prog, held⟩ := t
  cases prog with
  | done => exact absurd rfl hne
  | lock l m next => exact ⟨l, rfl⟩
  | pending l next => exact ⟨l, rfl⟩
  | unlock l m next => exact absurd (.unlock hord.1) (hstuck _)
  | wait l next => exact ⟨l, rfl⟩
  | choose next => exact absurd (.choose true) (hstuck _)

theorem Ordered.lt_of_awaited (hord : Ordered rank t.held t.prog) {l : L}
    (hl : t.prog.awaited = some l) : ∀ x ∈ t.held, rank x.1 < rank l := by
  obtain ⟨prog, held⟩ := t
  cases prog with
  | lock => cases hl; exact hord.1
  | pending => cases hl; exact hord.1
  | wait => cases hl; exact hord.1
  | done => cases hl
  | unlock => cases hl
  | choose => cases hl

/-- Threads that all wait: someone waits for a lock of higher rank. -/
theorem exists_higher (hord : ∀ t ∈ ts, Ordered rank t.held t.prog)
    (hstuck : ∀ t ∈ ts, ∀ t', ¬ Move ts t t') {l : L} (ht : t ∈ ts)
    (hl : t.prog.awaited = some l) :
    ∃ t' ∈ ts, ∃ l', t'.prog.awaited = some l' ∧ rank l < rank l' := by
  by_cases hheld : Held ts l
  · obtain ⟨u, hu, m, hm⟩ := hheld
    have hne : u.prog ≠ .done := by
      intro hdone
      rw [(hord u hu).held_of_done hdone] at hm
      cases hm
    obtain ⟨l', hl'⟩ := awaited_of_stuck (hord u hu) (hstuck u hu) hne
    exact ⟨u, hu, l', hl', (hord u hu).lt_of_awaited hl' _ hm⟩
  · -- nobody holds the lock, so that whoever has announced itself can have it
    have hwriting : ¬ Writing ts l := by
      rintro ⟨u, hu, hexcl | ⟨next, hpending⟩⟩
      · exact hheld ⟨u, hu, _, hexcl⟩
      · obtain ⟨prog, held⟩ := u
        cases hpending
        exact hstuck _ hu _ (.exclusive hheld)
    obtain ⟨prog, held⟩ := t
    cases prog with
    | lock l' m next =>
        cases hl
        cases m with
        | shared => exact absurd (.shared hwriting) (hstuck _ ht _)
        | exclusive => exact absurd (.announce hwriting) (hstuck _ ht _)
    | pending l' next =>
        cases hl
        exact absurd (.exclusive hheld) (hstuck _ ht _)
    | wait l' next =>
        cases hl
        exact absurd (.wait hheld) (hstuck _ ht _)
    | done => cases hl
    | unlock => cases hl
    | choose => cases hl

/-- As long as not all threads are done, some thread can go on. -/
theorem exists_move (hord : ∀ t ∈ ts, Ordered rank t.held t.prog)
    (hne : ∃ t ∈ ts, t.prog ≠ .done) : ∃ t ∈ ts, ∃ t', Move ts t t' := by
  by_contra hnone
  have hstuck : ∀ t ∈ ts, ∀ t', ¬ Move ts t t' :=
    fun t ht t' hmove => hnone ⟨t, ht, t', hmove⟩
  -- the ranks of the locks that threads wait for would have no bound
  have hunbounded : ∀ n, ∃ t ∈ ts, ∃ l, t.prog.awaited = some l ∧ n ≤ rank l := by
    intro n
    induction n with
    | zero =>
        obtain ⟨t, ht, hne⟩ := hne
        obtain ⟨l, hl⟩ := awaited_of_stuck (hord t ht) (hstuck t ht) hne
        exact ⟨t, ht, l, hl, Nat.zero_le _⟩
    | succ n ih =>
        obtain ⟨t, ht, l, hl, hle⟩ := ih
        obtain ⟨t', ht', l', hl', hlt⟩ := exists_higher hord hstuck ht hl
        exact ⟨t', ht', l', hl', by omega⟩
  obtain ⟨t, ht, l, hl, hle⟩ :=
    hunbounded ((ts.map fun t => (t.prog.awaited.map rank).getD 0).sum + 1)
  have hbound := List.le_sum_of_mem (List.mem_map_of_mem (f := fun t : Thread L =>
    (t.prog.awaited.map rank).getD 0) ht)
  simp only [hl, Option.map_some, Option.getD_some] at hbound
  omega

/-! ## Length of runs -/

theorem Move.size_lt (h : Move ts t t') : t'.prog.size < t.prog.size := by
  cases h with
  | choose b => cases b <;> simp only [Prog.size] <;> omega
  | _ => simp only [Prog.size]; omega

theorem Run.le_work {start : List (Thread L)} {n : ℕ} (h : Run start n ts) :
    n + work ts ≤ work start := by
  induction h with
  | start => omega
  | @step n i ts t t' _ ht hstep ih =>
      have hlt : t'.prog.size < t.prog.size := by
        rcases hstep with hmove | hpass
        · exact hmove.size_lt
        · exact hpass.size_lt
      have hsum := @List.sum_map_set _ (fun t : Thread L => t.prog.size) ts i t t' ht
      unfold work at ih ⊢
      omega

/-! ## Code that takes locks in order -/

namespace Code

/-- The code takes locks of this rank and higher ones in order, and releases all that it takes. -/
def Safe (rank : L → ℕ) (r : ℕ) (c : Code L) : Prop :=
  ∀ held next, (∀ x ∈ held, rank x.1 < r) → Ordered rank held next → Ordered rank held (c next)

variable {r r' : ℕ} {a a' : Code L}

theorem Safe.mono (h : Safe rank r' a) (hle : r ≤ r') : Safe rank r a :=
  fun held next hheld => h held next fun x hx => (hheld x hx).trans_le hle

theorem Safe.id : Safe rank r id := fun _ _ _ h => h

theorem Safe.comp (h : Safe rank r a) (h' : Safe rank r a') : Safe rank r (a ∘ a') :=
  fun held next hheld hnext => h held _ hheld (h' held next hheld hnext)

theorem ordered_unlock {held : List (L × Mode)} {next : Prog L} (l : L) (m : Mode)
    (h : Ordered rank held next) : Ordered rank ((l, m) :: held) (.unlock l m next) := by
  refine ⟨List.mem_cons_self, ?_⟩
  rwa [List.erase_cons_head]

omit [DecidableEq L] in
theorem lt_of_mem_cons {held : List (L × Mode)} {l : L} {m : Mode} (hle : r ≤ rank l)
    (h : ∀ x ∈ held, rank x.1 < r) : ∀ x ∈ (l, m) :: held, rank x.1 < rank l + 1 := by
  intro x hx
  rcases List.mem_cons.mp hx with rfl | hx
  · exact Nat.lt_succ_self _
  · have := h x hx
    omega

theorem Safe.locked {l : L} {m : Mode} (h : Safe rank (rank l + 1) a) (hle : r ≤ rank l) :
    Safe rank r (locked l m a) := by
  intro held next hheld hnext
  refine ⟨fun x hx => (hheld x hx).trans_le hle, ?_⟩
  exact h _ _ (lt_of_mem_cons hle hheld) (ordered_unlock l m hnext)

theorem Safe.optional (h : Safe rank r a) : Safe rank r (optional a) := by
  intro held next hheld hnext b
  cases b with
  | true => exact h held next hheld hnext
  | false => exact hnext

theorem Safe.either (h : Safe rank r a) (h' : Safe rank r a') : Safe rank r (either a a') := by
  intro held next hheld hnext b
  cases b with
  | true => exact h held next hheld hnext
  | false => exact h' held next hheld hnext

theorem Safe.each {α : Type} {xs : List α} {body : α → Code L}
    (h : ∀ x, Safe rank r (body x)) : Safe rank r (each xs body) := by
  intro held next hheld hnext
  induction xs with
  | nil => exact hnext
  | cons x xs ih => exact h x held _ hheld ih

theorem Safe.waiting {l : L} (h : Safe rank (rank l + 1) a) (h' : Safe rank r a')
    (hle : r ≤ rank l) : Safe rank r (waiting l a a') := by
  intro held next hheld hnext
  refine ⟨fun x hx => (hheld x hx).trans_le hle, ?_, h' held next hheld hnext⟩
  exact h _ _ (lt_of_mem_cons hle hheld) (ordered_unlock l _ hnext)

end Code

end Locking
