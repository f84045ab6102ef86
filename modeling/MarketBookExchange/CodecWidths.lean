import MarketBookExchange.NumberCodec

/- The two number codecs at every width from 1 to 8. Nothing limits what `number_to_bytes`
   writes, and `byte_conversion` shifts an int. -/
namespace MarketBookExchange
open BigEndian Outcome

/- The client's copies of the two functions are the server's, word for word. -/
namespace Client

def numberToBytes (number : Int) (numBytes : Nat) : List UInt8 :=
  MarketBookExchange.numberToBytes number numBytes

def byteConversion (message : List UInt8) (first last : Nat) : Except Fault Int :=
  MarketBookExchange.byteConversion message first last

end Client

/-- What is asked of a codec. A number above its width would have to be refused, and neither
    encoder has a way to refuse one; a shift out of range ends the decoder in a fault. -/
structure CodecExact (encode : Int → Nat → List UInt8)
    (decode : List UInt8 → Nat → Nat → Except Fault Int) (w : Nat) (n : Int) : Prop where
  length : (encode n w).length = w
  bigEndian : n < 2 ^ (8 * w) → (value (encode n w) : Int) = n
  decoded : n < 2 ^ (8 * w) → ∀ front rest : List UInt8,
    decode (front ++ (encode n w ++ rest)) front.length (front.length + w - 1) = .ok n

section Widths
variable {w : Nat} {n : Int}

theorem numberToBytes_length (low : 0 ≤ n) (long : n < 2 ^ 63)
    (length : (numberToBytes n w).length = w) : n < 2 ^ (8 * w) := by
  have bound := value_lt (numberToBytes n w)
  rw [length, numberToBytes_eq (by omega), value_bytesOf] at bound
  rw [pow_mul]
  zify at bound
  rwa [Int.toNat_of_nonneg low] at bound

/-- The fifth byte would be shifted by 32. -/
theorem byteLoop_wide (message : List UInt8) (last count : Nat) :
    ∀ cnt ans, cnt ≤ 4 → 4 < cnt + count → last < message.length →
      byteLoop message last count cnt ans = .error .shiftRange := by
  induction count with
  | zero =>
    intro cnt ans narrow wide
    omega
  | succ count ih =>
    intro cnt ans narrow wide inside
    have here : last - cnt < message.length := by omega
    rw [byteLoop, readByte, List.getElem?_eq_getElem here]
    simp only [ok_bind]
    by_cases fifth : cnt = 4
    · rw [if_pos (by omega)]
      rfl
    · rw [if_neg (by omega)]
      apply ih
      · omega
      · omega
      · exact inside

theorem byteConversion_wide {message : List UInt8} {first count : Nat} (wide : 5 ≤ count)
    (inside : first + count ≤ message.length) :
    byteConversion message first (first + count - 1) = .error .shiftRange := by
  unfold byteConversion
  rw [byteLoop_wide]
  · rfl
  · omega
  · omega
  · omega

theorem signedValue_lt (bytes : List UInt8) : signedValue bytes < 2 ^ 31 := BitVec.toInt_lt

theorem codecExact_iff (positive : 1 ≤ w) (low : 0 ≤ n) (long : n < 2 ^ 63) :
    CodecExact numberToBytes byteConversion w n ↔
      w ≤ 4 ∧ n < 2 ^ (8 * w) ∧ n < 2 ^ 31 := by
  constructor
  · intro codec
    have small := numberToBytes_length low long codec.length
    have decoded := codec.decoded small [] []
    have inside : 0 + w ≤ (numberToBytes n w).length := by rw [codec.length, Nat.zero_add]
    rw [List.nil_append, List.append_nil, List.length_nil] at decoded
    have narrow : w ≤ 4 := by
      by_contra wide
      rw [byteConversion_wide (by omega) inside] at decoded
      cases decoded
    rw [byteConversion_ok positive narrow inside] at decoded
    refine ⟨narrow, small, ?_⟩
    rw [← Except.ok.inj decoded]
    exact signedValue_lt _
  · rintro ⟨narrow, small, int⟩
    have length := length_written ⟨low, small, long⟩
    have written : (value (numberToBytes n w) : Int) = n := by
      rw [numberToBytes_eq (by omega), value_bytesOf]
      exact Int.toNat_of_nonneg low
    constructor
    · exact length
    · exact fun _ => written
    · intro _ front rest
      have place := field_append front (numberToBytes n w) rest
      rw [length] at place
      rw [byteConversion_ok positive narrow (by simp [length]), place]
      congr 1
      rw [signedValue_eq (by omega) low int]
      exact written

end Widths

/-- At the widths that the configuration offers the codecs of server and client are exact up
    to 4 bytes and below 2 ^ 31, and nowhere else. -/
theorem codecs_exact_iff {w : Nat} {n : Int} (positive : 1 ≤ w) (low : 0 ≤ n)
    (long : n < 2 ^ 63) :
    (CodecExact numberToBytes byteConversion w n ∧
      CodecExact Client.numberToBytes Client.byteConversion w n) ↔
      w ≤ 4 ∧ n < 2 ^ (8 * w) ∧ n < 2 ^ 31 := by
  have server := codecExact_iff positive low long
  have client : CodecExact Client.numberToBytes Client.byteConversion w n ↔ _ := server
  rw [server, client, and_self]

theorem codecs_exact_iff_threeBytes :
    CodecExact numberToBytes byteConversion 3 0xFEDCBA ∧
      CodecExact Client.numberToBytes Client.byteConversion 3 0xFEDCBA :=
  (codecs_exact_iff (by decide) (by decide) (by decide)).mpr (by decide)

/-- A price of 2 ^ 31 in 4 bytes, any number in 8, and a number of 5 bytes in 4. -/
theorem codecs_exact_iff_fails :
    byteConversion (numberToBytes (2 ^ 31) 4) 0 3 = .ok (-2 ^ 31) ∧
    byteConversion (numberToBytes 5 8) 0 7 = .error .shiftRange ∧
    (numberToBytes (2 ^ 32) 4).length = 5 ∧
    ¬ CodecExact numberToBytes byteConversion 4 (2 ^ 31) ∧
    ¬ CodecExact Client.numberToBytes Client.byteConversion 8 5 ∧
    ¬ CodecExact numberToBytes byteConversion 4 (2 ^ 32) := by
  have top : byteConversion (numberToBytes (2 ^ 31) 4) 0 3 = .ok (-2 ^ 31) :=
    ok_of_toOption (by decide +kernel)
  have wide : byteConversion (numberToBytes 5 8) 0 7 = .error .shiftRange :=
    @byteConversion_wide (numberToBytes 5 8) 0 8 (by decide) (by decide +kernel)
  have longer : (numberToBytes (2 ^ 32) 4).length = 5 := by decide +kernel
  refine ⟨top, wide, longer, fun codec => ?_, fun codec => ?_, fun codec => ?_⟩
  · have back := codec.decoded (by decide) [] []
    rw [List.append_nil] at back
    cases top.symm.trans back
  · have back := codec.decoded (by decide) [] []
    rw [List.append_nil] at back
    cases wide.symm.trans back
  · exact absurd (longer.symm.trans codec.length) (by decide)

end MarketBookExchange
