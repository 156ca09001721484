import Mathlib.Data.List.Chain
import MinBFT.Lib.BigEndian
import MinBFT.Lib.Counter
import MinBFT.Lib.EState
import MinBFT.Messages

/-!
# Blocks of the sample ledger

`sample/requestconsumer/simpleledger.go`: every delivered payload makes a block with the hash of the
block before. `UnmarshalBinary` copies the previous hash into the slice that the receiver happens to
have, and a new block has none. Height and payload are decoded in any case, but a block comes back
from its encoding, and the links of a chain can be verified, only if the receiver has a slice of the
size of a hash.
-/

namespace MinBFT

open BigEndian

def hashSize : ℕ := 32

structure BlockHash where
  sum : Bytes → Bytes
  length_sum : ∀ data, (sum data).length = hashSize

/-- `copy`, as far as the source reaches and there is room. -/
def copy (dst src : Bytes) : Bytes := src.take dst.length ++ dst.drop src.length

theorem length_copy (dst src : Bytes) : (copy dst src).length = dst.length := by
  rw [copy, List.length_append, List.length_take, List.length_drop]
  omega

theorem copy_of_length_eq {dst src : Bytes} (h : src.length = dst.length) : copy dst src = src := by
  rw [copy, List.take_of_length_le h.le, List.drop_of_length_le h.ge, List.append_nil]

structure SimpleBlock where
  height : UInt64
  prevBlockHash : Bytes
  payload : Bytes
deriving DecidableEq

inductive BlockError where
  | height
  | prevBlockHash

namespace SimpleBlock

def zero : SimpleBlock := ⟨0, [], []⟩

/-- The previous hash as it is written: in an array of its own, which is zero at first. -/
def prevBlockHashArray (b : SimpleBlock) : Bytes :=
  copy (List.replicate hashSize 0) b.prevBlockHash

/-- Writing to a buffer does not fail. -/
def marshalBinary (b : SimpleBlock) : Bytes :=
  uint64 b.height ++ (b.prevBlockHashArray ++ b.payload)

/-- The receiver keeps what has been assigned to it when reading fails. -/
def unmarshalBinary (marshaled : Bytes) : EStateM BlockError SimpleBlock Unit :=
  match readUint64 marshaled with
  | none => throw .height
  | some (height, r) => do
      modify fun b => { b with height }
      if r.length < hashSize then throw .prevBlockHash
      modify fun b => { b with
        prevBlockHash := copy b.prevBlockHash (r.take hashSize)
        payload := r.drop hashSize }

def hash (sha256 : BlockHash) (b : SimpleBlock) : Bytes := sha256.sum b.marshalBinary

theorem length_prevBlockHashArray (b : SimpleBlock) : b.prevBlockHashArray.length = hashSize := by
  rw [prevBlockHashArray, length_copy, List.length_replicate]

theorem prevBlockHashArray_of_length {b : SimpleBlock} (h : b.prevBlockHash.length = hashSize) :
    b.prevBlockHashArray = b.prevBlockHash := by
  apply copy_of_length_eq
  rw [h, List.length_replicate]

/-- There is no block without height and previous hash. -/
theorem unmarshalBinary_of_length_lt {marshaled : Bytes} (h : marshaled.length < 8 + hashSize)
    (r : SimpleBlock) : ∃ e r', unmarshalBinary marshaled r = .error e r' := by
  unfold unmarshalBinary
  cases hread : readUint64 marshaled with
  | none => exact ⟨_, _, rfl⟩
  | some field =>
      obtain ⟨height, rest⟩ := field
      have hlen := congrArg List.length (eq_append_of_readUint64 hread)
      rw [List.length_append, length_uint64] at hlen
      have hlt : rest.length < hashSize := by omega
      refine ⟨.prevBlockHash, { r with height }, ?_⟩
      simp only [EStateM.bind_apply, EStateM.modify_apply, if_pos hlt, EStateM.throw_apply]

/-- What becomes of an encoded block. -/
theorem unmarshalBinary_marshalBinary (b r : SimpleBlock) :
    unmarshalBinary b.marshalBinary r =
      .ok () ⟨b.height, copy r.prevBlockHash b.prevBlockHashArray, b.payload⟩ := by
  have hlen := b.length_prevBlockHashArray
  have hnot : ¬ (b.prevBlockHashArray ++ b.payload).length < hashSize := by
    rw [List.length_append]
    omega
  unfold unmarshalBinary
  rw [marshalBinary, readUint64_uint64]
  simp only [EStateM.bind_apply, EStateM.modify_apply, if_neg hnot,
    List.take_left' hlen, List.drop_left' hlen]

def RoundTrips (sha256 : BlockHash) (r b : SimpleBlock) : Prop :=
  ∃ b', unmarshalBinary b.marshalBinary r = .ok () b' ∧ b'.height = b.height ∧
    b'.prevBlockHash = b.prevBlockHash ∧ b'.payload = b.payload ∧ b'.hash sha256 = b.hash sha256

theorem roundTrips_iff (sha256 : BlockHash) (r : SimpleBlock) {b : SimpleBlock}
    (h : b.prevBlockHash.length = hashSize) :
    RoundTrips sha256 r b ↔ r.prevBlockHash.length = hashSize := by
  have harray := prevBlockHashArray_of_length h
  constructor
  · rintro ⟨b', hb', -, hprev, -⟩
    rw [unmarshalBinary_marshalBinary] at hb'
    cases hb'
    have hlen := congrArg List.length hprev
    rwa [length_copy, h] at hlen
  · intro hr
    have hcopy : copy r.prevBlockHash b.prevBlockHashArray = b.prevBlockHash := by
      rw [harray]
      exact copy_of_length_eq (h.trans hr.symm)
    refine ⟨b, ?_, rfl, rfl, rfl, rfl⟩
    rw [unmarshalBinary_marshalBinary, hcopy]

def recode (r b : SimpleBlock) : Option SimpleBlock :=
  match unmarshalBinary b.marshalBinary r with
  | .ok _ b' => some b'
  | .error _ _ => none

theorem recode_eq (r b : SimpleBlock) :
    recode r b = some ⟨b.height, copy r.prevBlockHash b.prevBlockHashArray, b.payload⟩ := by
  rw [recode, unmarshalBinary_marshalBinary]

def Link (sha256 : BlockHash) (b b' : SimpleBlock) : Prop := b'.prevBlockHash = b.hash sha256

theorem Link.length {sha256 : BlockHash} {b b' : SimpleBlock} (h : Link sha256 b b') :
    b'.prevBlockHash.length = hashSize := by
  rw [show b'.prevBlockHash = b.hash sha256 from h]
  exact sha256.length_sum _

/-- The blocks still form a chain once each of them has been encoded and decoded. -/
def Verifies (sha256 : BlockHash) (r : SimpleBlock) (blocks : List SimpleBlock) : Prop :=
  ∃ blocks', blocks.mapM (recode r) = some blocks' ∧ blocks'.IsChain (Link sha256)

section Recoding

variable {sha256 : BlockHash} {r : SimpleBlock}

/-- Links are verified for decoded blocks as they are for these. -/
theorem verifies_iff (blocks : List SimpleBlock) : Verifies sha256 r blocks ↔
    (blocks.map fun b => (⟨b.height, copy r.prevBlockHash b.prevBlockHashArray, b.payload⟩ :
      SimpleBlock)).IsChain (Link sha256) := by
  have hmap : blocks.mapM (recode r) = some (blocks.map fun b =>
      ⟨b.height, copy r.prevBlockHash b.prevBlockHashArray, b.payload⟩) := by
    rw [funext (recode_eq r)]
    exact List.mapM_pure
  unfold Verifies
  rw [hmap]
  simp

/-- With room for a hash in the receiver, linked blocks are linked when decoded. -/
theorem verifies_of_isChain (hr : r.prevBlockHash.length = hashSize) {blocks : List SimpleBlock}
    (h : blocks.IsChain (Link sha256)) : Verifies sha256 r blocks := by
  have hcopy : ∀ b : SimpleBlock, copy r.prevBlockHash b.prevBlockHashArray =
      b.prevBlockHashArray := by
    intro b
    exact copy_of_length_eq (b.length_prevBlockHashArray.trans hr.symm)
  rw [verifies_iff]
  apply List.isChain_map_of_isChain _ _ h
  intro b b' hlink
  have hbytes : marshalBinary ⟨b.height, b.prevBlockHashArray, b.payload⟩ = b.marshalBinary := by
    have harray := prevBlockHashArray_of_length
      (b := ⟨b.height, b.prevBlockHashArray, b.payload⟩) b.length_prevBlockHashArray
    simp only [marshalBinary, harray]
  unfold Link hash
  rw [hcopy, hcopy, hbytes, prevBlockHashArray_of_length hlink.length]
  exact hlink

/-- A link can be verified only if there was room for the hash. -/
theorem length_of_verifies {blocks : List SimpleBlock} (h : Verifies sha256 r blocks)
    (hlen : 1 < blocks.length) : r.prevBlockHash.length = hashSize := by
  rw [verifies_iff, List.isChain_iff_getElem] at h
  have hlink := h 0 (by rwa [List.length_map])
  have hhash := hlink.length
  rwa [List.getElem_map, length_copy] at hhash

end Recoding

end SimpleBlock

structure SimpleLedger where
  blocks : List SimpleBlock
  length : UInt64
  length_eq : blocks.length = length.toNat

/-- The greatest length of a slice. -/
def maxLength : ℕ := 2 ^ 63 - 1

namespace SimpleLedger

variable (sha256 : BlockHash)

def new : SimpleLedger := ⟨[], 0, rfl⟩

theorem lastIndex_add_one {l : SimpleLedger} (h : 0 < l.length) :
    (l.length - 1).toNat + 1 = l.blocks.length := by
  have hpos : 0 < l.length.toNat := UInt64.lt_iff_toNat_lt.mp h
  rw [l.length_eq, UInt64.toNat_sub_one_add_one hpos]

def lastHash (l : SimpleLedger) : Bytes :=
  if h : 0 < l.length then
    (l.blocks.get ⟨(l.length - 1).toNat, by have := lastIndex_add_one h; omega⟩).hash sha256
  else []

/-- The new block and the ledger with it. There is a panic if the slice of blocks cannot grow. -/
def appendBlock (l : SimpleLedger) (payload : Bytes) : Option (SimpleBlock × SimpleLedger) :=
  if h : l.blocks.length < maxLength then
    let block : SimpleBlock := ⟨l.length + 1, l.lastHash sha256, payload⟩
    some (block, ⟨l.blocks ++ [block], l.length + 1, by
      have hlt : l.length.toNat < 2 ^ 63 - 1 := by rw [← l.length_eq]; exact h
      rw [List.length_append, List.length_singleton, l.length_eq, UInt64.toNat_add,
        UInt64.toNat_one]
      omega⟩)
  else none

def deliverAll (payloads : List Bytes) (l : SimpleLedger) : Option SimpleLedger :=
  payloads.foldlM (fun l payload => (l.appendBlock sha256 payload).map (·.2)) l

variable {sha256 : BlockHash}

theorem lastHash_of_getLast {l : SimpleLedger} {b : SimpleBlock} (h : b ∈ l.blocks.getLast?) :
    l.lastHash sha256 = b.hash sha256 := by
  have hlast := List.getLast?_eq_getElem? ▸ Option.mem_def.mp h
  obtain ⟨hlt, hget⟩ := List.getElem?_eq_some_iff.mp hlast
  have hpos : 0 < l.length := by
    apply UInt64.lt_iff_toNat_lt.mpr
    rw [← l.length_eq, UInt64.toNat_zero]
    omega
  have hsub : (l.length - 1).toNat = l.blocks.length - 1 := by
    have := lastIndex_add_one hpos
    omega
  unfold lastHash
  rw [dif_pos hpos]
  simp only [List.get_eq_getElem, hsub, hget]

/-- Appending a block keeps the chain linked. -/
theorem isChain_appendBlock {l l' : SimpleLedger} {payload : Bytes} {b : SimpleBlock}
    (h : l.blocks.IsChain (SimpleBlock.Link sha256))
    (happend : l.appendBlock sha256 payload = some (b, l')) :
    l'.blocks.IsChain (SimpleBlock.Link sha256) ∧ l'.blocks.length = l.blocks.length + 1 := by
  unfold appendBlock at happend
  split_ifs at happend with hlen
  cases happend
  refine ⟨?_, List.length_append⟩
  apply List.isChain_append.mpr
  refine ⟨h, List.isChain_singleton _, ?_⟩
  intro a ha c hc
  cases Option.mem_def.mp hc
  exact lastHash_of_getLast ha

theorem isChain_deliverAll {payloads : List Bytes} {l l' : SimpleLedger}
    (h : l.blocks.IsChain (SimpleBlock.Link sha256))
    (hdeliver : deliverAll sha256 payloads l = some l') :
    l'.blocks.IsChain (SimpleBlock.Link sha256) ∧
      l'.blocks.length = l.blocks.length + payloads.length := by
  induction payloads generalizing l with
  | nil =>
      cases hdeliver
      exact ⟨h, rfl⟩
  | cons payload payloads ih =>
      obtain ⟨l₁, happend, hrest⟩ := Option.bind_eq_some_iff.mp hdeliver
      obtain ⟨⟨b, l₂⟩, hb, rfl⟩ := Option.map_eq_some_iff.mp happend
      obtain ⟨hchain, hlen⟩ := isChain_appendBlock h hb
      obtain ⟨hchain', hlen'⟩ := ih hchain hrest
      refine ⟨hchain', ?_⟩
      rw [hlen', hlen, List.length_cons]
      omega

/-- Whatever a slice has room for can be delivered. -/
theorem isSome_deliverAll {payloads : List Bytes} {l : SimpleLedger}
    (h : l.blocks.length + payloads.length ≤ maxLength) :
    (deliverAll sha256 payloads l).isSome = true := by
  induction payloads generalizing l with
  | nil => rfl
  | cons payload payloads ih =>
      rw [List.length_cons] at h
      have hlt : l.blocks.length < maxLength := by omega
      unfold deliverAll
      rw [List.foldlM_cons, appendBlock, dif_pos hlt]
      apply ih
      simp only [List.length_append, List.length_singleton]
      omega

end SimpleLedger

/-- Blocks are decoded, and the links of every chain verified, precisely if the receiver has room
for the previous hash; less than 40 bytes are rejected in any case. -/
theorem SimpleBlock.decodes_iff (sha256 : BlockHash) (r : SimpleBlock) :
    (∀ b : SimpleBlock, b.prevBlockHash.length = hashSize →
      (RoundTrips sha256 r b ↔ r.prevBlockHash.length = hashSize)) ∧
    (∀ marshaled : Bytes, marshaled.length < 40 →
      ∃ e r', unmarshalBinary marshaled r = .error e r') ∧
    ∀ payloads l, SimpleLedger.deliverAll sha256 payloads .new = some l →
      (Verifies sha256 r l.blocks ↔
        payloads.length ≤ 1 ∨ r.prevBlockHash.length = hashSize) := by
  refine ⟨fun b hb => roundTrips_iff sha256 r hb, fun m hm => unmarshalBinary_of_length_lt hm r, ?_⟩
  intro payloads l hdeliver
  obtain ⟨hchain, hlen⟩ := SimpleLedger.isChain_deliverAll List.isChain_nil hdeliver
  have hlen' : l.blocks.length = payloads.length := by simpa [SimpleLedger.new] using hlen
  constructor
  · intro hverifies
    rcases Nat.lt_or_ge 1 payloads.length with hlong | hshort
    · exact .inr (length_of_verifies hverifies (hlen'.symm ▸ hlong))
    · exact .inl hshort
  · rintro (hshort | hr)
    · rw [verifies_iff, List.isChain_iff_getElem]
      intro i hi
      rw [List.length_map] at hi
      omega
    · exact verifies_of_isChain hr hchain

namespace Concrete

def leadingHash : BlockHash where
  sum data := copy (List.replicate hashSize 0) data
  length_sum data := by rw [length_copy, List.length_replicate]

def allocatedBlock : SimpleBlock := ⟨0, List.replicate hashSize 0, []⟩

def linkedBlock : SimpleBlock := ⟨2, List.replicate hashSize 7, [1, 2, 3]⟩

theorem decodes_iff_allocated : ∃ l,
    SimpleLedger.deliverAll leadingHash [[1], [2], [3]] .new = some l ∧
      SimpleBlock.RoundTrips leadingHash allocatedBlock linkedBlock ∧
      SimpleBlock.Verifies leadingHash allocatedBlock l.blocks := by
  have hsome : (SimpleLedger.deliverAll leadingHash [[1], [2], [3]] .new).isSome = true :=
    SimpleLedger.isSome_deliverAll (by decide)
  obtain ⟨l, hl⟩ := Option.isSome_iff_exists.mp hsome
  obtain ⟨hround, -, hchain⟩ := SimpleBlock.decodes_iff leadingHash allocatedBlock
  exact ⟨l, hl, (hround linkedBlock rfl).mpr rfl, (hchain _ l hl).mpr (.inr rfl)⟩

/-- Decoded into a new block, a block has no previous hash, and two blocks are no chain. -/
theorem hash_lost :
    SimpleBlock.unmarshalBinary linkedBlock.marshalBinary .zero = .ok () ⟨2, [], [1, 2, 3]⟩ ∧
      linkedBlock.prevBlockHash.length = hashSize ∧
      ∃ l, SimpleLedger.deliverAll leadingHash [[1], [2]] .new = some l ∧
        l.blocks.IsChain (SimpleBlock.Link leadingHash) ∧
        ¬ SimpleBlock.Verifies leadingHash .zero l.blocks := by
  refine ⟨SimpleBlock.unmarshalBinary_marshalBinary _ _, rfl, ?_⟩
  have hsome : (SimpleLedger.deliverAll leadingHash [[1], [2]] .new).isSome = true :=
    SimpleLedger.isSome_deliverAll (by decide)
  obtain ⟨l, hl⟩ := Option.isSome_iff_exists.mp hsome
  obtain ⟨hchain, hlen⟩ := SimpleLedger.isChain_deliverAll List.isChain_nil hl
  refine ⟨l, hl, hchain, ?_⟩
  intro hverifies
  have hsize := SimpleBlock.length_of_verifies hverifies (by rw [hlen]; decide)
  cases hsize

end Concrete

end MinBFT
