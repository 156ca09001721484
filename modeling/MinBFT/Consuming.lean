import MinBFT.Lib.Machine
import MinBFT.Lib.Sequential
import MinBFT.SimpleLedger

/-!
# The sample ledger as a consumer

`SimpleLedger.Deliver` hands the payload over to the goroutine that `NewSimpleLedger` has started,
and returns a channel. The goroutine takes one payload at a time, appends a block, and waits until
its encoding has been received from the channel before it takes the next one. Deliveries may be made
concurrently.

`StateDigest` appends to the encoding of the last block what its hash function yields for no input
at all, so the encoding itself is a part of the digest. As each block contains the hash of the one
before, the digest determines everything that has been delivered.
-/

namespace MinBFT

namespace SimpleLedger

variable {sha256 : BlockHash} {l l' : SimpleLedger} {payload : Bytes}
  {payloads payloads' : List Bytes}

/-- The new block comes last. -/
theorem appendBlock_eq_some {b : SimpleBlock}
    (h : l.appendBlock sha256 payload = some (b, l')) :
    b = ⟨l.length + 1, l.lastHash sha256, payload⟩ ∧ l'.blocks = l.blocks ++ [b] := by
  unfold appendBlock at h
  split_ifs at h
  cases h
  exact ⟨rfl, rfl⟩

/-! ## The digest of the state -/

theorem lastIndex_lt (h : 0 < l.length) : (l.length - 1).toNat < l.blocks.length := by
  have hlast := lastIndex_add_one h
  omega

/-- `StateDigest`; there is none of an empty ledger. -/
def stateDigest (sha256 : BlockHash) (l : SimpleLedger) : Option Bytes :=
  if h : 0 < l.length then
    let block := l.blocks.get ⟨(l.length - 1).toNat, lastIndex_lt h⟩
    some (block.marshalBinary ++ sha256.sum [])
  else none

/-- No two of the blocks have the same hash and different encodings. -/
def CollisionFree (sha256 : BlockHash) (blocks : List SimpleBlock) : Prop :=
  ∀ b ∈ blocks, ∀ b' ∈ blocks, b.hash sha256 = b'.hash sha256 → b.marshalBinary = b'.marshalBinary

instance (blocks : List SimpleBlock) : Decidable (CollisionFree sha256 blocks) :=
  inferInstanceAs (Decidable (∀ b ∈ blocks, ∀ b' ∈ blocks, _ → _))

theorem stateDigest_eq (l : SimpleLedger) : l.stateDigest sha256 =
    l.blocks.getLast?.map fun b => b.marshalBinary ++ sha256.sum [] := by
  unfold stateDigest
  split_ifs with hpos
  · have hlast := lastIndex_add_one hpos
    have hindex : (l.length - 1).toNat = l.blocks.length - 1 := by omega
    rw [List.getLast?_eq_getElem?, List.getElem?_eq_getElem (by omega)]
    simp only [List.get_eq_getElem, hindex, Option.map_some]
  · have hzero : l.length.toNat = 0 := by
      by_contra hne
      exact hpos (UInt64.lt_iff_toNat_lt.mpr (by rw [UInt64.toNat_zero]; omega))
    rw [List.eq_nil_of_length_eq_zero (l.length_eq.trans hzero)]
    rfl

theorem deliverAll_append (h : deliverAll sha256 (payloads ++ [payload]) .new = some l') :
    ∃ l b, deliverAll sha256 payloads .new = some l ∧
      l.appendBlock sha256 payload = some (b, l') := by
  unfold deliverAll at h
  rw [List.foldlM_append] at h
  obtain ⟨l, hl, happend⟩ := Option.bind_eq_some_iff.mp h
  rw [List.foldlM_cons] at happend
  obtain ⟨l₁, hmap, hpure⟩ := Option.bind_eq_some_iff.mp happend
  cases hpure
  obtain ⟨⟨b, l₂⟩, hb, rfl⟩ := Option.map_eq_some_iff.mp hmap
  exact ⟨l, b, hl, hb⟩

/-- Two last blocks with one encoding have the same payload, and are linked to the same hash. -/
theorem inj_of_marshalBinary_eq {b b' : SimpleBlock} (h : b.marshalBinary = b'.marshalBinary) :
    b.height = b'.height ∧ b.prevBlockHashArray = b'.prevBlockHashArray ∧
      b.payload = b'.payload := by
  obtain ⟨hheight, h⟩ := BigEndian.uint64_append_inj h
  have hlen := b.length_prevBlockHashArray.trans b'.length_prevBlockHashArray.symm
  exact ⟨hheight, List.append_inj h hlen⟩

theorem CollisionFree.mono {blocks blocks' : List SimpleBlock} (h : CollisionFree sha256 blocks)
    (hsub : blocks' ⊆ blocks) : CollisionFree sha256 blocks' :=
  fun b hb b' hb' => h b (hsub hb) b' (hsub hb')

/-- The hash of the last block determines its encoding. -/
theorem getLast?_of_lastHash_eq (hlen : l.length = l'.length)
    (hfree : CollisionFree sha256 (l.blocks ++ l'.blocks))
    (h : l.lastHash sha256 = l'.lastHash sha256) :
    l.blocks.getLast?.map SimpleBlock.marshalBinary =
      l'.blocks.getLast?.map SimpleBlock.marshalBinary := by
  have hlength : l.blocks.length = l'.blocks.length := by rw [l.length_eq, l'.length_eq, hlen]
  cases hb : l.blocks.getLast? with
  | none =>
      rw [List.getLast?_eq_none_iff.mp hb] at hlength
      rw [List.eq_nil_of_length_eq_zero hlength.symm]
      rfl
  | some b =>
      cases hb' : l'.blocks.getLast? with
      | none =>
          rw [List.getLast?_eq_none_iff.mp hb'] at hlength
          rw [List.eq_nil_of_length_eq_zero hlength] at hb
          cases hb
      | some b' =>
          rw [lastHash_of_getLast hb, lastHash_of_getLast hb'] at h
          have hbytes := hfree b (List.mem_append_left _ (List.mem_of_getLast? hb)) b'
            (List.mem_append_right _ (List.mem_of_getLast? hb')) h
          rw [Option.map_some, Option.map_some, hbytes]

theorem lastHash_eq_of_array_eq {p p' : Bytes} {h h' : UInt64} (hlen : l.length = l'.length)
    (heq : SimpleBlock.prevBlockHashArray ⟨h, l.lastHash sha256, p⟩ =
      SimpleBlock.prevBlockHashArray ⟨h', l'.lastHash sha256, p'⟩) :
    l.lastHash sha256 = l'.lastHash sha256 := by
  by_cases hpos : 0 < l.length
  · have hsize : ∀ k : SimpleLedger, 0 < k.length → (k.lastHash sha256).length = hashSize := by
      intro k hk
      unfold lastHash
      rw [dif_pos hk]
      exact sha256.length_sum _
    rwa [SimpleBlock.prevBlockHashArray_of_length (hsize l hpos),
      SimpleBlock.prevBlockHashArray_of_length (hsize l' (hlen ▸ hpos))] at heq
  · unfold lastHash
    rw [dif_neg hpos, dif_neg (hlen ▸ hpos)]

theorem payloads_eq_of_stateDigest_eq (h : deliverAll sha256 payloads .new = some l)
    (h' : deliverAll sha256 payloads' .new = some l')
    (hfree : CollisionFree sha256 (l.blocks ++ l'.blocks))
    (hdigest : l.stateDigest sha256 = l'.stateDigest sha256) : payloads = payloads' := by
  rw [stateDigest_eq, stateDigest_eq] at hdigest
  induction payloads using List.reverseRecOn generalizing payloads' l l' with
  | nil =>
      cases h
      cases payloads' using List.reverseRecOn with
      | nil => rfl
      | append_singleton ps p =>
          obtain ⟨m, b, -, hb⟩ := deliverAll_append h'
          rw [(appendBlock_eq_some hb).2, List.getLast?_concat] at hdigest
          cases hdigest
  | append_singleton ps p ih =>
      obtain ⟨m, b, hm, hb⟩ := deliverAll_append h
      obtain ⟨hblock, hblocks⟩ := appendBlock_eq_some hb
      cases payloads' using List.reverseRecOn with
      | nil =>
          cases h'
          rw [hblocks, List.getLast?_concat] at hdigest
          cases hdigest
      | append_singleton ps' p' =>
          obtain ⟨m', b', hm', hb'⟩ := deliverAll_append h'
          obtain ⟨hblock', hblocks'⟩ := appendBlock_eq_some hb'
          rw [hblocks, hblocks', List.getLast?_concat, List.getLast?_concat, Option.map_some,
            Option.map_some, Option.some.injEq] at hdigest
          obtain ⟨hheight, harray, hpayload⟩ :=
            inj_of_marshalBinary_eq (List.append_cancel_right hdigest)
          rw [hblock, hblock'] at hheight harray hpayload
          have hlen : m.length = m'.length := (UInt64.add_left_inj 1).mp hheight
          have hlast := lastHash_eq_of_array_eq hlen harray
          have hfree' : CollisionFree sha256 (m.blocks ++ m'.blocks) := by
            apply hfree.mono
            intro x hx
            rw [hblocks, hblocks']
            simp only [List.mem_append] at hx ⊢
            tauto
          have hmarshal := congrArg (Option.map (· ++ sha256.sum []))
            (getLast?_of_lastHash_eq hlen hfree' hlast)
          rw [Option.map_map, Option.map_map] at hmarshal
          rw [ih hm hm' hfree' hmarshal, show p = p' from hpayload]

/-- Unless hashes collide, two ledgers have the same digest only if the same has been delivered to
them in the same order. -/
theorem stateDigest_eq_iff (h : deliverAll sha256 payloads .new = some l)
    (h' : deliverAll sha256 payloads' .new = some l')
    (hfree : CollisionFree sha256 (l.blocks ++ l'.blocks)) :
    l.stateDigest sha256 = l'.stateDigest sha256 ↔ payloads = payloads' := by
  constructor
  · exact payloads_eq_of_stateDigest_eq h h' hfree
  · rintro rfl
    rw [Option.some.inj (h.symm.trans h')]

/-! ## Concurrent deliveries -/

/-- Blocks are encoded by `json`. A slice that cannot grow makes the ledger panic. -/
def consumer (sha256 : BlockHash) (json : SimpleBlock → Bytes) :
    Sequential.Object SimpleLedger Bytes Bytes where
  init := .new
  step l payload := (l.appendBlock sha256 payload).map fun r => (r.2, json r.1)

inductive Phase where
  /-- The payload has not been taken from `acceptedMsgQueue` yet. -/
  | sending
  | accepted
  | computed (result : Bytes)
  | received (result : Bytes)
deriving DecidableEq

structure Delivery where
  payload : Bytes
  phase : Phase
deriving DecidableEq

/-- The ledger and its goroutine, which works on the payload of the current delivery. -/
structure Consumption where
  ledger : SimpleLedger
  deliveries : List Delivery
  current : Option ℕ
  panicked : Bool
  /-- The deliveries for which a block has been appended. -/
  appended : List (ℕ × Bytes)

namespace Consumption

inductive Label where
  | deliver (payload : Bytes)
  | accept (i : ℕ)
  | append
  | receive

def setPhase (s : Consumption) (i : ℕ) (d : Delivery) (phase : Phase) : Consumption :=
  { s with deliveries := s.deliveries.set i { d with phase } }

section Steps

variable (sha256 : BlockHash) (json : SimpleBlock → Bytes)

def init : Consumption := ⟨.new, [], none, false, []⟩

def accept (s : Consumption) (i : ℕ) (d : Delivery) : Option Consumption :=
  match s.current, d.phase with
  | none, .sending => some { s.setPhase i d .accepted with current := some i }
  | _, _ => none

def append (s : Consumption) (i : ℕ) (d : Delivery) : Option Consumption :=
  match d.phase with
  | .accepted => match s.ledger.appendBlock sha256 d.payload with
      | none => some { s with panicked := true }
      | some (block, ledger) => some { s.setPhase i d (.computed (json block)) with
          ledger, appended := s.appended ++ [(i, d.payload)] }
  | _ => none

def receive (s : Consumption) (i : ℕ) (d : Delivery) : Option Consumption :=
  match d.phase with
  | .computed result => some { s.setPhase i d (.received result) with current := none }
  | _ => none

def step (s : Consumption) (l : Label) : Option Consumption :=
  if s.panicked then none
  else match l with
    | .deliver payload => some { s with deliveries := s.deliveries ++ [⟨payload, .sending⟩] }
    | .accept i => s.deliveries[i]?.bind (s.accept i)
    | .append => s.current.bind fun i => s.deliveries[i]?.bind (s.append sha256 json i)
    | .receive => s.current.bind fun i => s.deliveries[i]?.bind (s.receive i)

abbrev Steps (s : Consumption) : Consumption → Prop :=
  Machine.Reachable (step sha256 json) s fun _ _ => True

end Steps

section Cases

variable {sha256 : BlockHash} {json : SimpleBlock → Bytes} {s s' : Consumption}

inductive Stepped (sha256 : BlockHash) (json : SimpleBlock → Bytes) (s : Consumption) :
    Consumption → Prop where
  | delivered (payload : Bytes) :
      Stepped sha256 json s { s with deliveries := s.deliveries ++ [⟨payload, .sending⟩] }
  | accepted {i : ℕ} {d : Delivery} (hi : s.deliveries[i]? = some d) (hphase : d.phase = .sending) :
      Stepped sha256 json s { s.setPhase i d .accepted with current := some i }
  | panicked : Stepped sha256 json s { s with panicked := true }
  | appended {i : ℕ} {d : Delivery} {block : SimpleBlock} {ledger : SimpleLedger}
      (hi : s.deliveries[i]? = some d) (hphase : d.phase = .accepted)
      (happend : s.ledger.appendBlock sha256 d.payload = some (block, ledger)) :
      Stepped sha256 json s { s.setPhase i d (.computed (json block)) with
        ledger, appended := s.appended ++ [(i, d.payload)] }
  | received {i : ℕ} {d : Delivery} {result : Bytes} (hi : s.deliveries[i]? = some d)
      (hphase : d.phase = .computed result) :
      Stepped sha256 json s { s.setPhase i d (.received result) with current := none }

theorem stepped {l : Label} (h : step sha256 json s l = some s') : Stepped sha256 json s s' := by
  unfold step at h
  split_ifs at h
  cases l with
  | deliver payload =>
      cases h
      exact .delivered payload
  | accept i =>
      obtain ⟨d, hi, h⟩ := Option.bind_eq_some_iff.mp h
      unfold accept at h
      split at h
      · next hphase =>
          cases h
          exact .accepted hi hphase
      · cases h
  | append =>
      obtain ⟨i, -, h⟩ := Option.bind_eq_some_iff.mp h
      obtain ⟨d, hi, h⟩ := Option.bind_eq_some_iff.mp h
      unfold append at h
      split at h
      · next hphase =>
          split at h
          · cases h
            exact .panicked
          · next happend =>
              cases h
              exact .appended hi hphase happend
      · cases h
  | receive =>
      obtain ⟨i, -, h⟩ := Option.bind_eq_some_iff.mp h
      obtain ⟨d, hi, h⟩ := Option.bind_eq_some_iff.mp h
      unfold receive at h
      split at h
      · next hphase =>
          cases h
          exact .received hi hphase
      · cases h

end Cases

end Consumption

def Delivery.result (d : Delivery) : Option Bytes :=
  match d.phase with
  | .computed result => some result
  | .received result => some result
  | _ => none

namespace Consumption

variable {sha256 : BlockHash} {json : SimpleBlock → Bytes} {s s' : Consumption}

def object (sha256 : BlockHash) (json : SimpleBlock → Bytes) :
    Sequential.Object SimpleLedger (ℕ × Bytes) Bytes := (consumer sha256 json).comap (·.2)

structure Invariant (sha256 : BlockHash) (json : SimpleBlock → Bytes) (s : Consumption) :
    Prop where
  run : (object sha256 json).run s.appended = some s.ledger
  nodup : s.appended.Nodup
  /-- There is a block for precisely the deliveries that have a result. -/
  appended : ∀ i payload, (i, payload) ∈ s.appended →
    ∃ d, s.deliveries[i]? = some d ∧ d.payload = payload ∧ d.result ≠ none
  results : ∀ i d result, s.deliveries[i]? = some d → d.result = some result →
    ∃ k, s.appended[k]? = some (i, d.payload) ∧
      (object sha256 json).result s.appended k = some result

theorem invariant_init : Invariant sha256 json init where
  run := rfl
  nodup := List.nodup_nil
  appended := fun _ _ hx => absurd hx List.not_mem_nil
  results := fun _ _ _ hi => nomatch hi

/-- A delivery goes on without getting a result. -/
theorem Invariant.setPhase {i : ℕ} {d : Delivery} {phase : Phase} (h : Invariant sha256 json s)
    (hi : s.deliveries[i]? = some d) (hresult : (Delivery.mk d.payload phase).result = d.result)
    (current : Option ℕ) :
    Invariant sha256 json { s.setPhase i d phase with current } := by
  obtain ⟨hlt, -⟩ := List.getElem?_eq_some_iff.mp hi
  refine ⟨h.run, h.nodup, fun j payload hj => ?_, fun j e result hj he => ?_⟩
  · obtain ⟨e, he, hpayload, hsome⟩ := h.appended j payload hj
    by_cases hij : i = j
    · subst hij
      obtain rfl := Option.some.inj (hi.symm.trans he)
      exact ⟨⟨d.payload, phase⟩, List.getElem?_set_self hlt, hpayload, hresult ▸ hsome⟩
    · exact ⟨e, (List.getElem?_set_ne hij).trans he, hpayload, hsome⟩
  · by_cases hij : i = j
    · subst hij
      have heq := (List.getElem?_set_self hlt).symm.trans hj
      obtain rfl := Option.some.inj heq
      exact h.results i d result hi (hresult ▸ he)
    · exact h.results j e result ((List.getElem?_set_ne hij).symm.trans hj) he

theorem Invariant.delivered (h : Invariant sha256 json s) (payload : Bytes) :
    Invariant sha256 json { s with deliveries := s.deliveries ++ [⟨payload, .sending⟩] } := by
  refine ⟨h.run, h.nodup, fun j p hj => ?_, fun j e result hj he => ?_⟩
  · obtain ⟨e, he, hrest⟩ := h.appended j p hj
    refine ⟨e, ?_, hrest⟩
    rw [List.getElem?_append_left (List.getElem?_eq_some_iff.mp he).1]
    exact he
  · rw [List.getElem?_append] at hj
    split_ifs at hj with hlt
    · exact h.results j e result hj he
    · rw [List.getElem?_singleton] at hj
      split_ifs at hj
      obtain rfl := Option.some.inj hj
      cases he

theorem Invariant.append {i : ℕ} {d : Delivery} {block : SimpleBlock} {ledger : SimpleLedger}
    (h : Invariant sha256 json s) (hi : s.deliveries[i]? = some d) (hphase : d.phase = .accepted)
    (happend : s.ledger.appendBlock sha256 d.payload = some (block, ledger)) :
    Invariant sha256 json { s.setPhase i d (.computed (json block)) with
      ledger, appended := s.appended ++ [(i, d.payload)] } := by
  obtain ⟨hlt, -⟩ := List.getElem?_eq_some_iff.mp hi
  have hnone : d.result = none := by rw [Delivery.result, hphase]
  have hfresh : ∀ payload, (i, payload) ∉ s.appended := by
    intro payload hmem
    obtain ⟨e, he, -, hsome⟩ := h.appended i payload hmem
    obtain rfl := Option.some.inj (hi.symm.trans he)
    exact hsome hnone
  have hstep : (object sha256 json).step s.ledger (i, d.payload) = some (ledger, json block) := by
    simp only [object, Sequential.Object.comap, consumer, happend, Option.map_some]
  obtain ⟨hrun, hresult⟩ := Sequential.Object.append h.run hstep
  refine ⟨hrun, ?_, fun j payload hj => ?_, fun j e result hj he => ?_⟩
  · apply List.nodup_append.mpr
    refine ⟨h.nodup, List.nodup_singleton _, fun x hx y hy heq => hfresh d.payload ?_⟩
    rwa [← List.mem_singleton.mp hy, ← heq]
  · rcases List.mem_append.mp hj with hj | hj
    · obtain ⟨e, he, hpayload, hsome⟩ := h.appended j payload hj
      have hij : i ≠ j := by
        rintro rfl
        exact hfresh payload hj
      exact ⟨e, (List.getElem?_set_ne hij).trans he, hpayload, hsome⟩
    · obtain ⟨rfl, rfl⟩ := Prod.mk.inj (List.mem_singleton.mp hj)
      exact ⟨⟨d.payload, .computed (json block)⟩, List.getElem?_set_self hlt, rfl, nofun⟩
  · by_cases hij : i = j
    · subst hij
      obtain rfl := Option.some.inj ((List.getElem?_set_self hlt).symm.trans hj)
      obtain rfl := Option.some.inj he
      exact ⟨s.appended.length, List.getElem?_concat_length, hresult⟩
    · obtain ⟨k, hk, hkresult⟩ :=
        h.results j e result ((List.getElem?_set_ne hij).symm.trans hj) he
      refine ⟨k, ?_, Sequential.Object.result_of_prefix (List.prefix_append _ _) hkresult⟩
      rw [List.getElem?_append_left (List.getElem?_eq_some_iff.mp hk).1]
      exact hk

theorem Invariant.step (h : Invariant sha256 json s) (hstep : Stepped sha256 json s s') :
    Invariant sha256 json s' := by
  cases hstep with
  | delivered payload => exact h.delivered payload
  | accepted hi hphase => exact h.setPhase hi (by simp only [Delivery.result, hphase]) _
  | panicked => exact ⟨h.run, h.nodup, h.appended, h.results⟩
  | appended hi hphase happend => exact h.append hi hphase happend
  | received hi hphase => exact h.setPhase hi (by simp only [Delivery.result, hphase]) _

def calls (s : Consumption) : Sequential.Calls (ℕ × Bytes) Bytes where
  invoked x := ∃ d, s.deliveries[x.1]? = some d ∧ d.payload = x.2
  returned x result := s.deliveries[x.1]? = some ⟨x.2, .received result⟩

theorem Invariant.linearization (h : Invariant sha256 json s) :
    Sequential.Linearization (object sha256 json) s.calls s.appended where
  nodup := h.nodup
  invoked := by
    rintro ⟨i, payload⟩ hx
    obtain ⟨d, hd, hpayload, -⟩ := h.appended i payload hx
    exact ⟨d, hd, hpayload⟩
  returned := fun x result hret => h.results x.1 _ result hret rfl

end Consumption

end SimpleLedger

namespace Concrete

open SimpleLedger

def trailingHash : BlockHash where
  sum data := copy (List.replicate hashSize 0) data.reverse
  length_sum data := by rw [length_copy, List.length_replicate]

theorem stateDigest_differs : ∃ l l',
    deliverAll trailingHash [[1], [2]] .new = some l ∧
      deliverAll trailingHash [[1], [3]] .new = some l' ∧
      l.stateDigest trailingHash ≠ l'.stateDigest trailingHash := by
  have hfree : ((deliverAll trailingHash [[1], [2]] .new).bind fun l =>
      (deliverAll trailingHash [[1], [3]] .new).map fun l' =>
        decide (CollisionFree trailingHash (l.blocks ++ l'.blocks))) = some true := by
    decide +kernel
  obtain ⟨l, hl, hfree⟩ := Option.bind_eq_some_iff.mp hfree
  obtain ⟨l', hl', hfree⟩ := Option.map_eq_some_iff.mp hfree
  refine ⟨l, l', hl, hl', fun hdigest => ?_⟩
  have heq := (stateDigest_eq_iff hl hl' (of_decide_eq_true hfree)).mp hdigest
  exact absurd heq (by decide)

def bareResult (block : SimpleBlock) : Bytes := block.payload

end Concrete

end MinBFT
