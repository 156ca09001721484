import Mathlib.Data.List.Induction
import MinBFT.Lib.BigEndian

/-!
# Little-endian words

A number as a row of 32-bit words, least significant first, and the same number read from its bytes
in the opposite order.
-/

namespace LittleEndian

open BigEndian

def words : ℕ → ℕ → List UInt32
  | 0, _ => []
  | k + 1, n => UInt32.ofNat n :: words k (n / 2 ^ 32)

theorem value_append (s t : List UInt8) : value (s ++ t) = value s * 256 ^ t.length + value t := by
  induction t using List.reverseRecOn with
  | nil => simp [value]
  | append_singleton t b ih =>
      rw [← List.append_assoc, value_append_singleton, ih, value_append_singleton,
        List.length_append, List.length_singleton, pow_succ]
      ring

theorem value_uint32 (n : UInt32) : value (uint32 n) = n.toNat := value_bigEndian n.toNat_lt

/-- Reading the words from the last to the first, each with its most significant byte first. -/
theorem value_words {k n : ℕ} (h : n < (2 ^ 32) ^ k) :
    value ((words k n).reverse.flatMap uint32) = n := by
  induction k generalizing n with
  | zero =>
      rw [pow_zero] at h
      obtain rfl : n = 0 := by omega
      rfl
  | succ k ih =>
      rw [pow_succ] at h
      rw [words, List.reverse_cons, List.flatMap_append, value_append, ih (by omega),
        List.flatMap_singleton, value_uint32, length_uint32, UInt32.toNat_ofNat']
      omega

/-- The bytes of a word, by shifting. -/
theorem uint32_eq_shifts (w : UInt32) :
    uint32 w = [(w >>> 24).toUInt8, (w >>> 16).toUInt8, (w >>> 8).toUInt8, (w >>> 0).toUInt8] := by
  simp only [uint32, bigEndian, List.nil_append, List.cons_append, List.cons.injEq, and_true]
  refine ⟨?_, ?_, ?_, ?_⟩ <;> apply UInt8.toNat_inj.mp <;>
    simp [UInt32.toNat_shiftRight, Nat.shiftRight_eq_div_pow, Nat.div_div_eq_div_mul]

/-- The bytes of a 64-bit number from the least significant one, by shifting. -/
theorem reverse_uint64 (n : UInt64) :
    (uint64 n).reverse = [n.toUInt8, (n >>> 8).toUInt8, (n >>> 16).toUInt8, (n >>> 24).toUInt8,
      (n >>> 32).toUInt8, (n >>> 40).toUInt8, (n >>> 48).toUInt8, (n >>> 56).toUInt8] := by
  simp only [uint64, bigEndian, List.nil_append, List.cons_append, List.reverse_cons,
    List.reverse_nil, List.cons.injEq, and_true]
  refine ⟨?_, ?_, ?_, ?_, ?_, ?_, ?_, ?_⟩ <;> apply UInt8.toNat_inj.mp <;>
    simp [UInt64.toNat_shiftRight, Nat.shiftRight_eq_div_pow, Nat.div_div_eq_div_mul]

end LittleEndian
