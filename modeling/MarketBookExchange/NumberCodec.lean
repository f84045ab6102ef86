import MarketBookExchange.Conversions
import MarketBookExchange.Lib.BigEndian
import MarketBookExchange.Lib.Outcome

/- What the two number codecs compute: `number_to_bytes` writes a number most significant byte
   first, and `byte_conversion` reads up to 4 such bytes as an int. -/
namespace MarketBookExchange
open BigEndian Outcome

theorem pushBytes_eq (fuel : Nat) : ∀ {number : Int}, number < 256 ^ fuel →
    pushBytes fuel number = (Nat.digits 256 number.toNat).map UInt8.ofNat := by
  induction fuel with
  | zero =>
    intro number small
    rw [show number.toNat = 0 by simp at small; omega]
    rfl
  | succ fuel ih =>
    intro number small
    unfold pushBytes
    by_cases positive : number > 0
    · have rest : number / 256 < 256 ^ fuel := by
        apply Int.ediv_lt_of_lt_mul (by decide)
        rwa [pow_succ] at small
      have low : (number % 256).toNat = number.toNat % 256 := by omega
      have high : (number / 256).toNat = number.toNat / 256 := by omega
      rw [if_pos positive, ih rest, low, high, Nat.digits_def' (by decide)
        (show 0 < number.toNat by omega), List.map_cons]
    · rw [if_neg positive, show number.toNat = 0 by omega]
      rfl

theorem numberToBytes_eq {number : Int} (small : number < 256 ^ 8) (numBytes : Nat) :
    numberToBytes number numBytes = bytesOf numBytes number.toNat := by
  unfold numberToBytes bytesOf Nat.digitsAppend
  simp only [pushBytes_eq 8 small, List.map_append, List.map_replicate, List.length_map]
  rfl

/-- The number takes at most `width` bytes, and is a long long. -/
def FitsBytes (width : Nat) (number : Int) : Prop :=
  0 ≤ number ∧ number < 2 ^ (8 * width) ∧ number < 2 ^ 63

theorem length_written {width : Nat} {number : Int} (fits : FitsBytes width number) :
    (numberToBytes number width).length = width := by
  obtain ⟨low, small, long⟩ := fits
  rw [numberToBytes_eq (by omega)]
  apply length_bytesOf
  rw [pow_mul] at small
  zify
  rw [Int.toNat_of_nonneg low]
  exact small

theorem or_byte (b : UInt8) {cnt v : Nat} (narrow : cnt < 4) (small : v < 256 ^ cnt) :
    BitVec.ofNat 32 v ||| b.toBitVec.setWidth 32 <<< (8 * cnt) =
      BitVec.ofNat 32 (v + 256 ^ cnt * b.toNat) := by
  have power : 256 ^ cnt = 2 ^ (8 * cnt) := (pow_mul 2 8 cnt).symm
  have bound : 256 ^ (cnt + 1) ≤ 2 ^ 32 := by
    calc 256 ^ (cnt + 1) ≤ 256 ^ 4 := Nat.pow_le_pow_right (by decide) narrow
      _ = 2 ^ 32 := by decide
  have byte := b.toNat_lt
  have sum : v + 256 ^ cnt * b.toNat < 256 ^ (cnt + 1) := by
    rw [pow_succ]
    nlinarith
  apply BitVec.eq_of_toNat_eq
  simp only [BitVec.toNat_or, BitVec.toNat_ofNat, BitVec.toNat_shiftLeft, BitVec.toNat_setWidth,
    UInt8.toNat_toBitVec, Nat.shiftLeft_eq]
  rw [Nat.mod_eq_of_lt (by omega : v < 2 ^ 32), Nat.mod_eq_of_lt (by omega : b.toNat < 2 ^ 32),
    Nat.mod_eq_of_lt (by omega : v + 256 ^ cnt * b.toNat < 2 ^ 32), ← power,
    Nat.mul_comm b.toNat, Nat.mod_eq_of_lt (by omega : 256 ^ cnt * b.toNat < 2 ^ 32), power,
    Nat.or_comm, ← Nat.two_pow_add_eq_or_of_lt (by rwa [← power]), Nat.add_comm]

/-- The loop has read the low `cnt` bytes, `v`, and the `digits` are next, the lowest first. -/
theorem byteLoop_eq (message : List UInt8) (last : Nat) (digits : List UInt8) :
    ∀ cnt v : Nat, (∀ i b, digits[i]? = some b → message[last - (cnt + i)]? = some b) →
      cnt + digits.length ≤ 4 → v < 256 ^ cnt →
      byteLoop message last digits.length cnt ((BitVec.ofNat 32 v).signExtend 64) =
        .ok ((BitVec.ofNat 32 (v + 256 ^ cnt * Nat.ofDigits 256 (digits.map UInt8.toNat))).signExtend
          64) := by
  induction digits with
  | nil =>
    intro cnt v _ _ _
    simp [byteLoop]
  | cons b digits ih =>
    intro cnt v bytes narrow small
    have here : message[last - cnt]? = some b := bytes 0 b rfl
    rw [List.length_cons] at narrow
    have shifted := or_byte b (show cnt < 4 by omega) small
    rw [List.length_cons, byteLoop, readByte, here]
    simp only [ok_bind]
    rw [if_neg (by omega), ← BitVec.signExtend_or, shifted, ih]
    · rw [List.map_cons, Nat.ofDigits_cons, pow_succ]
      congr 3
      ring
    · intro i c next
      rw [← bytes (i + 1) c next, Nat.add_assoc, Nat.add_comm 1 i]
    · omega
    · rw [pow_succ]
      have := b.toNat_lt
      nlinarith

def field (message : List UInt8) (first count : Nat) : List UInt8 :=
  (message.drop first).take count

/-- What an int of these bytes is: 4 bytes with the top bit set are negative. -/
def signedValue (bytes : List UInt8) : Int := (BitVec.ofNat 32 (value bytes)).toInt

theorem length_field {message : List UInt8} {first count : Nat}
    (inside : first + count ≤ message.length) : (field message first count).length = count := by
  unfold field
  rw [List.length_take, List.length_drop]
  omega

theorem field_append (front bytes rest : List UInt8) :
    field (front ++ (bytes ++ rest)) front.length bytes.length = bytes := by
  unfold field
  rw [List.drop_left, List.take_left]

theorem field_reverse {message : List UInt8} {first count : Nat}
    (inside : first + count ≤ message.length) (i : Nat) (b : UInt8)
    (digit : (field message first count).reverse[i]? = some b) :
    message[first + count - 1 - i]? = some b := by
  have below : i < count := by
    by_contra above
    rw [List.getElem?_eq_none (by rw [List.length_reverse, length_field inside]; omega)] at digit
    cases digit
  rw [List.getElem?_reverse (by rwa [length_field inside]), length_field inside, field,
    List.getElem?_take, if_pos (by omega), List.getElem?_drop] at digit
  rw [← digit]
  congr 1
  omega

theorem byteConversion_ok {message : List UInt8} {first count : Nat} (positive : 1 ≤ count)
    (narrow : count ≤ 4) (inside : first + count ≤ message.length) :
    byteConversion message first (first + count - 1) =
      .ok (signedValue (field message first count)) := by
  have run := byteLoop_eq message (first + count - 1) (field message first count).reverse 0 0
    (fun i b digit => by rw [Nat.zero_add]; exact field_reverse inside i b digit)
    (by rw [List.length_reverse, length_field inside]; omega) (by decide)
  rw [List.length_reverse, length_field inside] at run
  unfold byteConversion
  rw [show first + count - 1 + 1 - first = count by omega,
    show (0 : BitVec 64) = (BitVec.ofNat 32 0).signExtend 64 by rfl, run]
  simp only [ok_bind, pure_eq_ok, Nat.zero_add, pow_zero, Nat.one_mul]
  rw [BitVec.toInt_signExtend_of_le (by decide)]
  rfl

theorem byteConversion_inside {message : List UInt8} {first count : Nat} {n : Int}
    (positive : 1 ≤ count) (run : byteConversion message first (first + count - 1) = .ok n) :
    first + count ≤ message.length := by
  unfold byteConversion at run
  obtain ⟨ans, loop, _⟩ := bind_ok run
  rw [show first + count - 1 + 1 - first = (count - 1) + 1 by omega, byteLoop] at loop
  obtain ⟨b, read, _⟩ := bind_ok loop
  unfold readByte at read
  by_contra outside
  rw [List.getElem?_eq_none (by omega)] at read
  cases read

/-- Numbers that an int holds are read as they are. -/
theorem signedValue_eq {bytes : List UInt8} (four : bytes.length ≤ 4) {n : Int} (low : 0 ≤ n)
    (high : n < 2 ^ 31) : signedValue bytes = n ↔ (value bytes : Int) = n := by
  have bound := value_lt bytes
  have power : 256 ^ bytes.length ≤ 256 ^ 4 := Nat.pow_le_pow_right (by decide) four
  unfold signedValue
  rw [BitVec.toInt_ofNat']
  rw [Int.bmod_def]
  omega

end MarketBookExchange
