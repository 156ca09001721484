import Mathlib.Data.List.AList
import Mathlib.Data.List.Induction
import Mathlib.Tactic.Ring

/-!
# Fixed-width big-endian encodings

`bigEndian w n` is the `w`-byte big-endian representation of `n`, most significant byte first. It
has length `w` whatever `n` is, and it determines `n` among the numbers below `256 ^ w`. Fields of
fixed width can therefore be read back from a concatenation.
-/

namespace BigEndian

def bigEndian : ℕ → ℕ → List UInt8
  | 0, _ => []
  | w + 1, n => bigEndian w (n / 256) ++ [UInt8.ofNat n]

@[simp] theorem length_bigEndian (w n : ℕ) : (bigEndian w n).length = w := by
  induction w generalizing n with
  | zero => rfl
  | succ w ih => simp [bigEndian, ih]

theorem bigEndian_inj {w m n : ℕ} (hm : m < 256 ^ w) (hn : n < 256 ^ w)
    (h : bigEndian w m = bigEndian w n) : m = n := by
  induction w generalizing m n with
  | zero =>
      rw [pow_zero] at hm hn
      omega
  | succ w ih =>
      rw [pow_succ] at hm hn
      rw [bigEndian, bigEndian] at h
      obtain ⟨hhigh, hlow⟩ := List.append_inj' h rfl
      have hdiv : m / 256 = n / 256 := ih (by omega) (by omega) hhigh
      have hmod : m % 256 = n % 256 := by
        have := congrArg UInt8.toNat (List.singleton_inj.mp hlow)
        simpa using this
      omega

/-- A fixed-width field in front of a rest is read back together with the rest. -/
theorem bigEndian_append_inj {w m n : ℕ} {s t : List UInt8} (hm : m < 256 ^ w)
    (hn : n < 256 ^ w) (h : bigEndian w m ++ s = bigEndian w n ++ t) : m = n ∧ s = t := by
  obtain ⟨hfield, hrest⟩ := List.append_inj h (by simp)
  exact ⟨bigEndian_inj hm hn hfield, hrest⟩

/-- A fixed-width field behind a part of unknown length is read back from the end. -/
theorem append_bigEndian_inj {w m n : ℕ} {s t : List UInt8} (hm : m < 256 ^ w)
    (hn : n < 256 ^ w) (h : s ++ bigEndian w m = t ++ bigEndian w n) : s = t ∧ m = n := by
  obtain ⟨hrest, hfield⟩ := List.append_inj' h (by simp)
  exact ⟨hrest, bigEndian_inj hm hn hfield⟩

def uint32 (n : UInt32) : List UInt8 := bigEndian 4 n.toNat

def uint64 (n : UInt64) : List UInt8 := bigEndian 8 n.toNat

@[simp] theorem length_uint32 (n : UInt32) : (uint32 n).length = 4 := length_bigEndian 4 _

@[simp] theorem length_uint64 (n : UInt64) : (uint64 n).length = 8 := length_bigEndian 8 _

theorem uint32_append_inj {m n : UInt32} {s t : List UInt8} (h : uint32 m ++ s = uint32 n ++ t) :
    m = n ∧ s = t := by
  obtain ⟨hmn, hst⟩ := bigEndian_append_inj m.toNat_lt n.toNat_lt h
  exact ⟨UInt32.toNat_inj.mp hmn, hst⟩

theorem uint64_append_inj {m n : UInt64} {s t : List UInt8} (h : uint64 m ++ s = uint64 n ++ t) :
    m = n ∧ s = t := by
  obtain ⟨hmn, hst⟩ := bigEndian_append_inj m.toNat_lt n.toNat_lt h
  exact ⟨UInt64.toNat_inj.mp hmn, hst⟩

theorem uint64_injective : Function.Injective uint64 := by
  intro m n h
  have h' : uint64 m ++ [] = uint64 n ++ [] := by rw [h]
  exact (uint64_append_inj h').1

theorem append_uint64_inj {m n : UInt64} {s t : List UInt8} (h : s ++ uint64 m = t ++ uint64 n) :
    s = t ∧ m = n := by
  obtain ⟨hst, hmn⟩ := append_bigEndian_inj m.toNat_lt n.toNat_lt h
  exact ⟨hst, UInt64.toNat_inj.mp hmn⟩

def value (s : List UInt8) : ℕ := s.foldl (fun n b => n * 256 + b.toNat) 0

theorem value_append_singleton (s : List UInt8) (b : UInt8) :
    value (s ++ [b]) = value s * 256 + b.toNat := by
  simp [value]

theorem value_bigEndian {w n : ℕ} (h : n < 256 ^ w) : value (bigEndian w n) = n := by
  induction w generalizing n with
  | zero =>
      rw [pow_zero] at h
      obtain rfl : n = 0 := by omega
      rfl
  | succ w ih =>
      rw [pow_succ] at h
      rw [bigEndian, value_append_singleton, ih (by omega), UInt8.toNat_ofNat']
      omega

theorem value_lt (s : List UInt8) : value s < 256 ^ s.length := by
  induction s using List.reverseRecOn with
  | nil => exact Nat.one_pos
  | append_singleton s b ih =>
      have hb := b.toNat_lt
      rw [value_append_singleton, List.length_append, List.length_singleton, pow_succ]
      omega

theorem bigEndian_value (s : List UInt8) : bigEndian s.length (value s) = s := by
  induction s using List.reverseRecOn with
  | nil => rfl
  | append_singleton s b ih =>
      have hb := b.toNat_lt
      have hdiv : (value s * 256 + b.toNat) / 256 = value s := by omega
      have hbyte : UInt8.ofNat (value s * 256 + b.toNat) = b := by
        apply UInt8.toNat_inj.mp
        rw [UInt8.toNat_ofNat']
        omega
      rw [value_append_singleton, List.length_append, List.length_singleton, bigEndian, hdiv, hbyte,
        ih]

def readUint64 (s : List UInt8) : Option (UInt64 × List UInt8) :=
  if s.length < 8 then none else some (UInt64.ofNat (value (s.take 8)), s.drop 8)

theorem readUint64_uint64 (n : UInt64) (s : List UInt8) :
    readUint64 (uint64 n ++ s) = some (n, s) := by
  have hlen := length_uint64 n
  rw [readUint64, if_neg (by simp), List.take_left' hlen, List.drop_left' hlen, uint64,
    value_bigEndian n.toNat_lt, UInt64.ofNat_toNat]

/-- What has been read is what the bytes start with. -/
theorem eq_append_of_readUint64 {data s : List UInt8} {n : UInt64}
    (h : readUint64 data = some (n, s)) : data = uint64 n ++ s := by
  unfold readUint64 at h
  split_ifs at h with hlen
  have htake : (data.take 8).length = 8 := List.length_take_of_le (Nat.not_lt.mp hlen)
  have hlt := value_lt (data.take 8)
  have hfield := bigEndian_value (data.take 8)
  rw [htake] at hlt hfield
  cases h
  rw [uint64, UInt64.toNat_ofNat_of_lt' hlt, hfield, List.take_append_drop]

end BigEndian
