import Mathlib.Data.Nat.Digits.Lemmas

/- Numbers written as bytes, the most significant byte first. -/
namespace BigEndian

def value (bytes : List UInt8) : Nat := Nat.ofDigits 256 (bytes.reverse.map UInt8.toNat)

/-- The digits of a number, padded with zeros in front to `k` bytes. -/
def bytesOf (k n : Nat) : List UInt8 := ((Nat.digitsAppend 256 k n).map UInt8.ofNat).reverse

@[simp] theorem value_nil : value [] = 0 := rfl

theorem value_append (a b : List UInt8) :
    value (a ++ b) = value a * 256 ^ b.length + value b := by
  unfold value
  rw [List.reverse_append, List.map_append, Nat.ofDigits_append, List.length_map,
    List.length_reverse]
  ring

theorem value_cons (b : UInt8) (bytes : List UInt8) :
    value (b :: bytes) = b.toNat * 256 ^ bytes.length + value bytes := by
  have split := value_append [b] bytes
  have one : value [b] = b.toNat := by simp [value]
  rwa [one] at split

theorem digit_lt (bytes : List UInt8) : ∀ d ∈ bytes.reverse.map UInt8.toNat, d < 256 := by
  intro d member
  obtain ⟨b, _, rfl⟩ := List.mem_map.mp member
  exact b.toNat_lt

theorem value_lt (bytes : List UInt8) : value bytes < 256 ^ bytes.length := by
  have bound := Nat.ofDigits_lt_base_pow_length (by decide) (digit_lt bytes)
  rwa [List.length_map, List.length_reverse] at bound

theorem value_inj {a b : List UInt8} (len : a.length = b.length) (same : value a = value b) :
    a = b := by
  have digits := Nat.ofDigits_inj_of_len_eq (by decide) (by simp [len]) (digit_lt a) (digit_lt b)
    same
  have reversed : a.reverse = b.reverse :=
    List.map_injective_iff.mpr (fun _ _ => UInt8.toNat_inj.mp) digits
  exact List.reverse_injective reversed

theorem length_bytesOf {k n : Nat} (fits : n < 256 ^ k) : (bytesOf k n).length = k := by
  unfold bytesOf
  rw [List.length_reverse, List.length_map]
  exact Nat.length_digitsAppend (by decide) k fits

theorem value_bytesOf (k n : Nat) : value (bytesOf k n) = n := by
  have digits : (Nat.digitsAppend 256 k n).map (fun d => (UInt8.ofNat d).toNat) =
      Nat.digitsAppend 256 k n := by
    refine (List.map_congr_left fun d member => ?_).trans (List.map_id _)
    exact Nat.mod_eq_of_lt (Nat.lt_of_mem_digitsAppend (by decide) k d member)
  unfold value bytesOf
  rw [List.reverse_reverse, List.map_map]
  exact (congrArg _ digits).trans
    (by rw [Nat.digitsAppend, Nat.ofDigits_append_replicate_zero, Nat.ofDigits_digits])

end BigEndian
