import MinBFT.Lib.Cursor
import MinBFT.Lib.Machine

/-!
# Message logs and their streams

Package `messagelog`. Whatever goes on at the same time, a stream supplies the log of one epoch
after the other from its beginning, where a new epoch begins with each reset of the log. It may miss
the end of an epoch, or all of it, but once it waits for new messages it has supplied what is in the
log.

A channel that is closed and recreated stands for its place among all that have been made for its
purpose, and all but the last one are closed. What is done under the lock is one step. The slices of
messages are values: nobody but the log extends them.
-/

namespace MinBFT

namespace MessageLog

open Cursor

variable {α : Type}

inductive Supplier (α : Type) where
  | starting
  | looping (resetChan next : ℕ)
  | sending (resetChan newAdded next : ℕ) (msgs : List α)
  | waiting (resetChan newAdded next : ℕ)
  | returned
  /-- A slice is out of range. -/
  | panicked

structure Stream (α : Type) where
  supplier : Supplier α
  /-- The channel passed to `Stream` has been closed. -/
  done : Bool
  /-- What the consumer has received. -/
  received : List α

structure Log (α : Type) where
  msgs : List α
  newAdded : ℕ
  resetChan : ℕ

def init : Log α := ⟨[], 0, 0⟩

structure State (α : Type) where
  log : Log α
  streams : List (Stream α)

/-- Which of the cases that are ready a `select` statement goes on with. -/
inductive Choice where
  | proceed
  | reset
  | done

inductive Label (α : Type) where
  | append (msg : α)
  | reset (msgs : List α)
  | stream
  | close (i : ℕ)
  | supply (i : ℕ) (choice : Choice)

def append (s : Log α) (msg : α) : Log α :=
  { s with msgs := s.msgs ++ [msg], newAdded := s.newAdded + 1 }

def reset (s : Log α) (msgs : List α) : Log α :=
  { s with msgs, resetChan := s.resetChan + 1 }

/-- The iteration of `supplyMessages` up to the point where the lock is released. -/
def snapshot (s : Log α) (resetChan next : ℕ) : Supplier α :=
  let resetChan' := if resetChan < s.resetChan then s.resetChan else resetChan
  let next' := if resetChan < s.resetChan then 0 else next
  if next' ≤ s.msgs.length then
    .sending resetChan' s.newAdded s.msgs.length (s.msgs.drop next')
  else .panicked

/-- One step of `supplyMessages`; `none` if it is blocked. -/
def supply (s : Log α) (t : Stream α) : Choice → Option (Stream α)
  | .proceed =>
      match t.supplier with
      | .starting => some { t with supplier := .looping s.resetChan 0 }
      | .looping resetChan next => some { t with supplier := snapshot s resetChan next }
      | .sending resetChan newAdded next (msg :: msgs) => some { t with
          supplier := .sending resetChan newAdded next msgs
          received := t.received ++ [msg] }
      | .sending resetChan newAdded next [] =>
          some { t with supplier := .waiting resetChan newAdded next }
      | .waiting resetChan newAdded next =>
          if newAdded < s.newAdded then some { t with supplier := .looping resetChan next }
          else none
      | _ => none
  | .reset =>
      match t.supplier with
      | .sending resetChan _ next (_ :: _) =>
          if resetChan < s.resetChan then some { t with supplier := .looping resetChan next }
          else none
      | .waiting resetChan _ next =>
          if resetChan < s.resetChan then some { t with supplier := .looping resetChan next }
          else none
      | _ => none
  | .done =>
      match t.supplier with
      | .sending _ _ _ (_ :: _) => if t.done then some { t with supplier := .returned } else none
      | .waiting _ _ _ => if t.done then some { t with supplier := .returned } else none
      | _ => none

def step (s : State α) : Label α → Option (State α)
  | .append msg => some { s with log := append s.log msg }
  | .reset msgs => some { s with log := reset s.log msgs }
  | .stream => some { s with streams := s.streams ++ [⟨.starting, false, []⟩] }
  | .close i => s.streams[i]?.map fun t =>
      { s with streams := s.streams.set i { t with done := true } }
  | .supply i choice => s.streams[i]?.bind fun t => (supply s.log t choice).map fun t' =>
      { s with streams := s.streams.set i t' }

abbrev Run : List (Label α) → State α → Prop := Machine.Run step ⟨init, []⟩

/-! ## Epochs -/

/-- The calls divided at each `Reset`. The log of an epoch is what has been supplied to the `Reset`
that begins it, followed by what has been appended until the next one. -/
def epochsFrom (supplied : List α) : List (Label α) → List (List α)
  | [] => [supplied]
  | .append msg :: ls => epochsFrom (supplied ++ [msg]) ls
  | .reset msgs :: ls => supplied :: epochsFrom msgs ls
  | _ :: ls => epochsFrom supplied ls

def epochs (ls : List (Label α)) : List (List α) := epochsFrom [] ls

/-- The last epoch goes on. -/
theorem exists_epochs (supplied : List α) (ls : List (Label α)) :
    ∃ earlier current, epochsFrom supplied ls = earlier ++ [current] ∧
      ∀ ls', epochsFrom supplied (ls ++ ls') = earlier ++ epochsFrom current ls' := by
  induction ls generalizing supplied with
  | nil => exact ⟨[], supplied, rfl, fun _ => rfl⟩
  | cons l ls ih =>
      cases l with
      | append msg => exact ih (supplied ++ [msg])
      | reset msgs =>
          obtain ⟨earlier, current, heq, hnext⟩ := ih msgs
          refine ⟨supplied :: earlier, current, ?_, fun ls' => ?_⟩
          · rw [epochsFrom, heq, List.cons_append]
          · rw [List.cons_append, epochsFrom, hnext, List.cons_append]
      | stream => exact ih supplied
      | close i => exact ih supplied
      | supply i choice => exact ih supplied

theorem epochs_snoc {ls : List (Label α)} {earlier : List (List α)} {current : List α}
    (h : epochs ls = earlier ++ [current]) (l : Label α) :
    epochs (ls ++ [l]) = earlier ++ epochsFrom current [l] := by
  obtain ⟨before, last, heq, hnext⟩ := exists_epochs [] ls
  obtain ⟨rfl, hlast⟩ := List.append_inj' (heq.symm.trans h) rfl
  cases hlast
  exact hnext [l]

/-! ## Emitting parts of epochs -/

/-- What has been emitted are beginnings of the logs of some epochs before number `r`, in order. -/
def Emits (logs : List (List α)) (r : ℕ) (l : List α) : Prop :=
  ∃ parts : List (ℕ × List α), l = (parts.map (·.2)).flatten ∧
    (parts.map (·.1)).Pairwise (· < ·) ∧
    ∀ part ∈ parts, part.1 < r ∧ ∃ log, logs[part.1]? = some log ∧ part.2 <+: log

variable {logs logs' : List (List α)} {r r' : ℕ} {l cur log : List α}

theorem emits_nil (logs : List (List α)) (r : ℕ) : Emits logs r [] :=
  ⟨[], rfl, List.Pairwise.nil, fun _ hp => absurd hp List.not_mem_nil⟩

/-- Epochs are added, and the log of the last one grows. -/
def Grows (logs logs' : List (List α)) : Prop :=
  ∀ (i : ℕ) log, logs[i]? = some log → ∃ log', logs'[i]? = some log' ∧ log <+: log'

theorem Grows.length_le (h : Grows logs logs') : logs.length ≤ logs'.length := by
  rcases Nat.eq_zero_or_pos logs.length with hzero | hpos
  · omega
  · obtain ⟨log', hlog', -⟩ := h (logs.length - 1) _ (List.getElem?_eq_getElem (by omega))
    have hlt := (List.getElem?_eq_some_iff.mp hlog').1
    omega

theorem grows_append (logs more : List (List α)) : Grows logs (logs ++ more) := by
  intro i log hlog
  have hi := (List.getElem?_eq_some_iff.mp hlog).1
  exact ⟨log, (List.getElem?_append_left hi).trans hlog, List.prefix_refl log⟩

theorem grows_concat (earlier : List (List α)) (current msgs : List α) :
    Grows (earlier ++ [current]) (earlier ++ [current ++ msgs]) := by
  intro i log hlog
  rcases Nat.lt_or_ge i earlier.length with hi | hi
  · rw [List.getElem?_append_left hi] at hlog
    exact ⟨log, (List.getElem?_append_left hi).trans hlog, List.prefix_refl log⟩
  · rw [List.getElem?_append_right hi, List.getElem?_singleton] at hlog
    split_ifs at hlog with hzero
    cases hlog
    refine ⟨current ++ msgs, ?_, List.prefix_append _ _⟩
    rw [List.getElem?_append_right hi, List.getElem?_singleton, if_pos hzero]

theorem Emits.mono (h : Emits logs r l) (hgrows : Grows logs logs') (hle : r ≤ r') :
    Emits logs' r' l := by
  obtain ⟨parts, hl, hlt, hparts⟩ := h
  refine ⟨parts, hl, hlt, fun part hp => ?_⟩
  obtain ⟨hr, log, hlog, hpre⟩ := hparts part hp
  obtain ⟨log', hlog', hpre'⟩ := hgrows _ _ hlog
  exact ⟨Nat.lt_of_lt_of_le hr hle, log', hlog', hpre.trans hpre'⟩

/-- Going on with the beginning of the log of a later epoch. -/
theorem Emits.append (h : Emits logs r l) (hlog : logs[r]? = some log) (hpre : cur <+: log) :
    Emits logs (r + 1) (l ++ cur) := by
  obtain ⟨parts, rfl, hlt, hparts⟩ := h
  refine ⟨parts ++ [(r, cur)], by simp, ?_, fun part hp => ?_⟩
  · rw [List.map_append, List.pairwise_append]
    refine ⟨hlt, List.pairwise_singleton _ _, fun i hi j hj => ?_⟩
    obtain ⟨part, hp, rfl⟩ := List.mem_map.mp hi
    cases List.mem_singleton.mp hj
    exact (hparts part hp).1
  · rcases List.mem_append.mp hp with hp | hp
    · obtain ⟨hr, hrest⟩ := hparts part hp
      exact ⟨Nat.lt_succ_of_lt hr, hrest⟩
    · cases List.mem_singleton.mp hp
      exact ⟨Nat.lt_succ_self r, log, hlog, hpre⟩

/-! ## Where a stream is -/

/-- Behind beginnings of earlier epochs, what has been received of epoch `r` is `cur`. -/
def Passed (logs : List (List α)) (r : ℕ) (received cur log : List α) : Prop :=
  ∃ before, received = before ++ cur ∧ Emits logs r before ∧ logs[r]? = some log

theorem Passed.mono {received : List α} (h : Passed logs r received cur log)
    (hgrows : Grows logs logs') :
    ∃ log', Passed logs' r received cur log' ∧ log <+: log' := by
  obtain ⟨before, heq, hemits, hlog⟩ := h
  obtain ⟨log', hlog', hpre⟩ := hgrows _ _ hlog
  exact ⟨log', ⟨before, heq, hemits.mono hgrows (Nat.le_refl r), hlog'⟩, hpre⟩

theorem Passed.emits {received : List α} (h : Passed logs r received cur log)
    (hpre : cur <+: log) : Emits logs logs.length received := by
  obtain ⟨before, rfl, hemits, hlog⟩ := h
  have hlt := (List.getElem?_eq_some_iff.mp hlog).1
  exact (hemits.append hlog hpre).mono (fun _ log h => ⟨log, h, List.prefix_refl log⟩) hlt

variable {s : Log α} {t t' : Stream α}

/-- What is in the log is the log of the last epoch, and each of those before has been ended by a
reset. -/
def Tracks (logs : List (List α)) (s : Log α) : Prop :=
  ∃ earlier, logs = earlier ++ [s.msgs] ∧ earlier.length = s.resetChan

theorem Tracks.getElem? (h : Tracks logs s) : logs[s.resetChan]? = some s.msgs := by
  obtain ⟨earlier, rfl, hlen⟩ := h
  rw [← hlen, List.getElem?_concat_length]

theorem tracks_init : Tracks (epochs []) (init : Log α) := ⟨[], rfl, rfl⟩

theorem Tracks.append {ls : List (Label α)} (h : Tracks (epochs ls) s) (msg : α) :
    Tracks (epochs (ls ++ [.append msg])) (append s msg) ∧
      Grows (epochs ls) (epochs (ls ++ [.append msg])) := by
  obtain ⟨earlier, heq, hlen⟩ := h
  have hnext : epochs (ls ++ [.append msg]) = earlier ++ [s.msgs ++ [msg]] := epochs_snoc heq _
  rw [hnext, heq]
  exact ⟨⟨earlier, rfl, hlen⟩, grows_concat _ _ _⟩

theorem Tracks.reset {ls : List (Label α)} (h : Tracks (epochs ls) s) (msgs : List α) :
    Tracks (epochs (ls ++ [.reset msgs])) (reset s msgs) ∧
      Grows (epochs ls) (epochs (ls ++ [.reset msgs])) := by
  obtain ⟨earlier, heq, hlen⟩ := h
  have hnext : epochs (ls ++ [.reset msgs]) = epochs ls ++ [msgs] := by
    rw [epochs_snoc heq, heq, List.append_assoc]
    rfl
  rw [hnext]
  refine ⟨⟨epochs ls, rfl, ?_⟩, grows_append _ _⟩
  rw [heq, List.length_append, hlen]
  rfl

/-- The other steps leave the log as it is. -/
theorem Tracks.other {ls : List (Label α)} (h : Tracks (epochs ls) s) (l : Label α)
    (hl : ∀ msgs, epochsFrom msgs [l] = [msgs]) : epochs (ls ++ [l]) = epochs ls := by
  obtain ⟨earlier, heq, -⟩ := h
  rw [epochs_snoc heq, hl, heq]

/-- The messages that the stream holds at number `next` of its epoch. As long as neither of its
channels is closed, they are all that there are. -/
structure Holds (logs : List (List α)) (s : Log α) (received : List α)
    (resetChan newAdded next : ℕ) (msgs : List α) : Prop where
  passed : ∃ cur log, Passed logs resetChan received cur log ∧ Reads log cur msgs next
  resetChan_le : resetChan ≤ s.resetChan
  newAdded_le : newAdded ≤ s.newAdded
  all : resetChan = s.resetChan → newAdded = s.newAdded → next = s.msgs.length

def Invariant (logs : List (List α)) (s : Log α) (t : Stream α) : Prop :=
  match t.supplier with
  | .starting => t.received = []
  | .looping resetChan next => resetChan ≤ s.resetChan ∧ ∃ cur log,
      Passed logs resetChan t.received cur log ∧ cur <+: log ∧
        (resetChan = s.resetChan → Reads log cur [] next)
  | .sending resetChan newAdded next msgs => Holds logs s t.received resetChan newAdded next msgs
  | .waiting resetChan newAdded next => Holds logs s t.received resetChan newAdded next []
  | .returned => Emits logs logs.length t.received
  | .panicked => False

theorem Holds.append {received msgs : List α} {resetChan newAdded next : ℕ}
    (h : Holds logs s received resetChan newAdded next msgs) (hgrows : Grows logs logs') (msg : α) :
    Holds logs' (append s msg) received resetChan newAdded next msgs := by
  obtain ⟨⟨cur, log, hpassed, hreads⟩, hreset, hadded, -⟩ := h
  obtain ⟨log', hpassed', hpre⟩ := hpassed.mono hgrows
  obtain ⟨l, rfl⟩ := hpre
  refine ⟨⟨cur, _, hpassed', hreads.append l⟩, hreset, Nat.le_succ_of_le hadded, fun _ heq => ?_⟩
  exact absurd heq (Nat.ne_of_lt (Nat.lt_succ_of_le hadded))

theorem Holds.reset {received msgs : List α} {resetChan newAdded next : ℕ}
    (h : Holds logs s received resetChan newAdded next msgs) (hgrows : Grows logs logs')
    (msgs' : List α) : Holds logs' (reset s msgs') received resetChan newAdded next msgs := by
  obtain ⟨⟨cur, log, hpassed, hreads⟩, hreset, hadded, -⟩ := h
  obtain ⟨log', hpassed', hpre⟩ := hpassed.mono hgrows
  obtain ⟨l, rfl⟩ := hpre
  refine ⟨⟨cur, _, hpassed', hreads.append l⟩, Nat.le_succ_of_le hreset, hadded, fun heq => ?_⟩
  exact absurd heq (Nat.ne_of_lt (Nat.lt_succ_of_le hreset))

theorem Invariant.append (h : Invariant logs s t) (hgrows : Grows logs logs') (msg : α) :
    Invariant logs' (append s msg) t := by
  obtain ⟨supplier, done, received⟩ := t
  cases supplier with
  | starting => exact h
  | looping resetChan next =>
      obtain ⟨hle, cur, log, hpassed, hcur, hreads⟩ := h
      obtain ⟨log', hpassed', hpre⟩ := hpassed.mono hgrows
      refine ⟨hle, cur, log', hpassed', hcur.trans hpre, fun heq => ?_⟩
      obtain ⟨l, rfl⟩ := hpre
      exact (hreads heq).append l
  | sending => exact Holds.append h hgrows msg
  | waiting => exact Holds.append h hgrows msg
  | returned => exact Emits.mono h hgrows hgrows.length_le
  | panicked => exact h

theorem Invariant.reset (h : Invariant logs s t) (hgrows : Grows logs logs') (msgs : List α) :
    Invariant logs' (reset s msgs) t := by
  obtain ⟨supplier, done, received⟩ := t
  cases supplier with
  | starting => exact h
  | looping resetChan next =>
      obtain ⟨hle, cur, log, hpassed, hcur, -⟩ := h
      obtain ⟨log', hpassed', hpre⟩ := hpassed.mono hgrows
      refine ⟨Nat.le_succ_of_le hle, cur, log', hpassed', hcur.trans hpre, fun heq => ?_⟩
      exact absurd heq (Nat.ne_of_lt (Nat.lt_succ_of_le hle))
  | sending => exact Holds.reset h hgrows msgs
  | waiting => exact Holds.reset h hgrows msgs
  | returned => exact Emits.mono h hgrows hgrows.length_le
  | panicked => exact h

/-- A look at the log, after which there is nothing that has not been looked at. -/
theorem Invariant.snapshot {resetChan next : ℕ} {done : Bool} {received : List α}
    (hlogs : Tracks logs s) (h : Invariant logs s ⟨.looping resetChan next, done, received⟩) :
    Invariant logs s ⟨snapshot s resetChan next, done, received⟩ := by
  obtain ⟨hle, cur, log, hpassed, hcur, hreads⟩ := h
  have hcurrent := hlogs.getElem?
  unfold MessageLog.snapshot
  by_cases hlt : resetChan < s.resetChan
  · -- what has been received so far belongs to earlier epochs
    simp only [if_pos hlt, Nat.zero_le, if_true, List.drop_zero]
    obtain ⟨before, rfl, hemits, hlog⟩ := hpassed
    have hbefore := (hemits.append hlog hcur).mono
      (fun _ log h => ⟨log, h, List.prefix_refl log⟩) hlt
    exact ⟨⟨[], s.msgs, ⟨_, (List.append_nil _).symm, hbefore, hcurrent⟩,
      (reads_zero s.msgs).look⟩, Nat.le_refl _, Nat.le_refl _, fun _ _ => rfl⟩
  · obtain rfl : resetChan = s.resetChan := Nat.le_antisymm hle (Nat.not_lt.mp hlt)
    have hreads := hreads rfl
    have hlog := hpassed
    obtain ⟨-, -, -, hlog⟩ := hlog
    cases hlog.symm.trans hcurrent
    simp only [if_neg hlt, if_pos hreads.le]
    exact ⟨⟨cur, s.msgs, hpassed, hreads.look⟩, Nat.le_refl _, Nat.le_refl _, fun _ _ => rfl⟩

theorem Holds.emit {received msgs : List α} {resetChan newAdded next : ℕ} {msg : α}
    (h : Holds logs s received resetChan newAdded next (msg :: msgs)) :
    Holds logs s (received ++ [msg]) resetChan newAdded next msgs := by
  obtain ⟨⟨cur, log, ⟨before, rfl, hemits, hlog⟩, hreads⟩, hreset, hadded, hall⟩ := h
  exact ⟨⟨cur ++ [msg], log, ⟨before, List.append_assoc _ _ _, hemits, hlog⟩, hreads.emit⟩,
    hreset, hadded, hall⟩

theorem Holds.returned {received msgs : List α} {resetChan newAdded next : ℕ}
    (h : Holds logs s received resetChan newAdded next msgs) : Emits logs logs.length received :=
  have ⟨⟨_, _, hpassed, hreads⟩, _, _, _⟩ := h
  hpassed.emits hreads.isPrefix

/-- The iteration is left because of a reset. -/
theorem Holds.interrupted {received msgs : List α} {resetChan newAdded next : ℕ} {done : Bool}
    (h : Holds logs s received resetChan newAdded next msgs) (hlt : resetChan < s.resetChan) :
    Invariant logs s ⟨.looping resetChan next, done, received⟩ :=
  have ⟨⟨cur, log, hpassed, hreads⟩, hreset, _, _⟩ := h
  ⟨hreset, cur, log, hpassed, hreads.isPrefix, fun heq => absurd heq (Nat.ne_of_lt hlt)⟩

theorem Invariant.supply {choice : Choice} (hlogs : Tracks logs s) (h : Invariant logs s t)
    (hsupply : supply s t choice = some t') : Invariant logs s t' := by
  obtain ⟨supplier, done, received⟩ := t
  cases choice with
  | proceed =>
      cases supplier with
      | starting =>
          cases hsupply
          cases (show received = [] from h)
          exact ⟨Nat.le_refl _, [], s.msgs, ⟨[], rfl, emits_nil _ _, hlogs.getElem?⟩,
            List.nil_prefix, fun _ => reads_zero _⟩
      | looping resetChan next =>
          cases hsupply
          exact Invariant.snapshot hlogs h
      | sending resetChan newAdded next msgs =>
          cases msgs with
          | nil =>
              cases hsupply
              exact h
          | cons msg msgs =>
              cases hsupply
              exact Holds.emit h
      | waiting resetChan newAdded next =>
          simp only [MessageLog.supply] at hsupply
          split_ifs at hsupply
          cases hsupply
          obtain ⟨⟨cur, log, hpassed, hreads⟩, hreset, -, -⟩ := h
          exact ⟨hreset, cur, log, hpassed, hreads.isPrefix, fun _ => hreads⟩
      | returned => cases hsupply
      | panicked => cases hsupply
  | reset =>
      cases supplier with
      | sending resetChan newAdded next msgs =>
          cases msgs with
          | nil => cases hsupply
          | cons msg msgs =>
              simp only [MessageLog.supply] at hsupply
              split_ifs at hsupply with hlt
              cases hsupply
              exact Holds.interrupted h hlt
      | waiting resetChan newAdded next =>
          simp only [MessageLog.supply] at hsupply
          split_ifs at hsupply with hlt
          cases hsupply
          exact Holds.interrupted h hlt
      | _ => cases hsupply
  | done =>
      cases supplier with
      | sending resetChan newAdded next msgs =>
          cases msgs with
          | nil => cases hsupply
          | cons msg msgs =>
              simp only [MessageLog.supply] at hsupply
              split_ifs at hsupply
              cases hsupply
              exact Holds.returned h
      | waiting resetChan newAdded next =>
          simp only [MessageLog.supply] at hsupply
          split_ifs at hsupply
          cases hsupply
          exact Holds.returned h
      | _ => cases hsupply

structure Consistent (logs : List (List α)) (s : State α) : Prop where
  tracks : Tracks logs s.log
  streams : ∀ t ∈ s.streams, Invariant logs s.log t

theorem Consistent.step {s s' : State α} {ls : List (Label α)} {l : Label α}
    (h : Consistent (epochs ls) s) (hstep : step s l = some s') :
    Consistent (epochs (ls ++ [l])) s' := by
  obtain ⟨hlogs, hinv⟩ := h
  cases l with
  | append msg =>
      cases hstep
      obtain ⟨hlogs', hgrows⟩ := hlogs.append msg
      exact ⟨hlogs', fun t ht => (hinv t ht).append hgrows msg⟩
  | reset msgs =>
      cases hstep
      obtain ⟨hlogs', hgrows⟩ := hlogs.reset msgs
      exact ⟨hlogs', fun t ht => (hinv t ht).reset hgrows msgs⟩
  | stream =>
      cases hstep
      rw [hlogs.other _ fun _ => rfl]
      refine ⟨hlogs, fun t ht => ?_⟩
      rcases List.mem_append.mp ht with ht | ht
      · exact hinv t ht
      · cases List.mem_singleton.mp ht
        exact rfl
  | close i =>
      obtain ⟨t, ht, rfl⟩ := Option.map_eq_some_iff.mp hstep
      rw [hlogs.other _ fun _ => rfl]
      refine ⟨hlogs, fun t' ht' => ?_⟩
      rcases List.mem_or_eq_of_mem_set ht' with ht' | rfl
      · exact hinv t' ht'
      · exact hinv t (List.mem_of_getElem? ht)
  | supply i choice =>
      obtain ⟨t, ht, hstep⟩ := Option.bind_eq_some_iff.mp hstep
      obtain ⟨t', hsupply, rfl⟩ := Option.map_eq_some_iff.mp hstep
      rw [hlogs.other _ fun _ => rfl]
      refine ⟨hlogs, fun x hx => ?_⟩
      rcases List.mem_or_eq_of_mem_set hx with hx | rfl
      · exact hinv x hx
      · exact (hinv t (List.mem_of_getElem? ht)).supply hlogs hsupply

def Blocked (s : Log α) (t : Stream α) : Prop :=
  ∃ next, t.supplier = .waiting s.resetChan s.newAdded next

/-- What the consumer of a stream can rely on, with the logs of the epochs so far. -/
structure Supplied (logs : List (List α)) (s : Log α) (t : Stream α) : Prop where
  inOrder : Emits logs logs.length t.received
  /-- No wake-up is lost. -/
  upToDate : Blocked s t → ∃ earlier current before, logs = earlier ++ [current] ∧
    t.received = before ++ current ∧ Emits earlier earlier.length before
  noPanic : t.supplier ≠ .panicked

theorem Invariant.inOrder (h : Invariant logs s t) : Emits logs logs.length t.received := by
  obtain ⟨supplier, done, received⟩ := t
  cases supplier with
  | starting =>
      cases (show received = [] from h)
      exact emits_nil _ _
  | looping resetChan next =>
      obtain ⟨-, cur, log, hpassed, hcur, -⟩ := h
      exact hpassed.emits hcur
  | sending => exact Holds.returned h
  | waiting => exact Holds.returned h
  | returned => exact h
  | panicked => cases h

theorem Emits.of_append {more : List (List α)} (h : Emits (logs ++ more) logs.length l) :
    Emits logs logs.length l := by
  obtain ⟨parts, hl, hlt, hparts⟩ := h
  refine ⟨parts, hl, hlt, fun part hp => ?_⟩
  obtain ⟨hr, log, hlog, hpre⟩ := hparts part hp
  rw [List.getElem?_append_left hr] at hlog
  exact ⟨hr, log, hlog, hpre⟩

theorem Invariant.upToDate (hlogs : Tracks logs s) (h : Invariant logs s t)
    (hblocked : Blocked s t) :
    ∃ earlier current before, logs = earlier ++ [current] ∧ t.received = before ++ current ∧
      Emits earlier earlier.length before := by
  obtain ⟨next, hwait⟩ := hblocked
  unfold Invariant at h
  rw [hwait] at h
  obtain ⟨⟨cur, log, ⟨before, heq, hemits, hlog⟩, hreads⟩, -, -, hall⟩ := h
  cases hlog.symm.trans hlogs.getElem?
  cases hall rfl rfl
  obtain ⟨earlier, rfl, hlen⟩ := hlogs
  rw [hreads.drained] at heq
  rw [← hlen] at hemits
  exact ⟨earlier, s.msgs, before, rfl, heq, hemits.of_append⟩

/-- In whatever order appends, resets and the steps of streams and their consumers come, the log
holds the messages of the last epoch, and all streams supply what they should. -/
theorem supplied {ls : List (Label α)} {s : State α} (h : Run ls s) :
    (epochs ls).getLast? = some s.log.msgs ∧ ∀ t ∈ s.streams, Supplied (epochs ls) s.log t := by
  obtain ⟨hlogs, hinv⟩ := h.invariant (P := fun ls s => Consistent (epochs ls) s)
    ⟨tracks_init, fun _ ht => absurd ht List.not_mem_nil⟩ fun _ _ _ _ hinv hstep => hinv.step hstep
  refine ⟨?_, fun t ht => ⟨(hinv t ht).inOrder, (hinv t ht).upToDate hlogs, fun hpanic => ?_⟩⟩
  · obtain ⟨earlier, heq, -⟩ := hlogs
    rw [heq, List.getLast?_concat]
  · have hfalse := hinv t ht
    unfold Invariant at hfalse
    rw [hpanic] at hfalse
    exact hfalse

end MessageLog

namespace Concrete

open MessageLog

/-- A stream has sent one of two messages when the log is reset, and goes on with the new log. -/
def overtakenStream : List (Label ℕ) :=
  [.append 1, .append 2, .stream, .supply 0 .proceed, .supply 0 .proceed, .supply 0 .proceed,
    .reset [3], .supply 0 .reset, .append 4, .supply 0 .proceed, .supply 0 .proceed,
    .supply 0 .proceed, .supply 0 .proceed]

theorem supplied_overtakenStream : epochs overtakenStream = [[1, 2], [3, 4]] ∧
    ∃ s, Run overtakenStream s ∧ s.log.msgs = [3, 4] ∧ ∃ t ∈ s.streams,
      t.received = [1, 3, 4] ∧ Supplied (epochs overtakenStream) s.log t := by
  have h : (Machine.exec step (fun _ _ => true) ⟨init, []⟩ overtakenStream).any
      (fun s => s.streams.any (·.received == [1, 3, 4])) = true := rfl
  obtain ⟨s, hrun, hs⟩ := Machine.exists_run h
  obtain ⟨t, ht, hreceived⟩ := List.any_eq_true.mp hs
  obtain ⟨hlast, hsupplied⟩ := supplied hrun
  exact ⟨rfl, s, hrun, (Option.some.inj hlast).symm, t, ht, beq_iff_eq.mp hreceived,
    hsupplied t ht⟩

end Concrete

end MinBFT
