import MarketBookExchange.NumberCodec
import MarketBookExchange.Server

/- The requests a client writes, and what the server's decoders make of a read that begins
   with one of them. -/
namespace MarketBookExchange
open BigEndian Outcome

/-- A call of the client, `orderType` being the one character of its side. -/
inductive Request where
  | sendOrder (orderType : UInt8) (symbol : List UInt8) (priceLevel qty : Int)
  | sendModify (orderType : UInt8) (symbol : List UInt8) (orderId priceLevel qty : Int)
  | sendKill (symbol : List UInt8) (orderId : Int)

def sideOf (orderType : UInt8) : OrderType :=
  if orderType = 'B'.toUInt8 then .buy else .sell

def padMessage (w : Widths) (message : List UInt8) : List UInt8 :=
  message ++ List.replicate (w.frame - message.length) ' '.toUInt8

namespace Request

/-- The message before it is padded. `number_to_bytes` is the server's, word for word. -/
def fields (w : Widths) : Request → List UInt8
  | sendOrder orderType symbol priceLevel qty =>
    ['O'.toUInt8, orderType] ++ (symbol ++ (numberToBytes qty w.qty ++
      numberToBytes priceLevel w.price))
  | sendModify orderType symbol orderId priceLevel qty =>
    ['U'.toUInt8, orderType] ++ (symbol ++ (numberToBytes qty w.qty ++
      (numberToBytes priceLevel w.price ++ numberToBytes orderId w.id)))
  | sendKill symbol orderId => ['X'.toUInt8] ++ (symbol ++ numberToBytes orderId w.id)

def frame (w : Widths) (request : Request) : List UInt8 := padMessage w (request.fields w)

def order : Request → Order
  | sendOrder orderType symbol priceLevel qty =>
    { requestType := .sendOrder, orderType := sideOf orderType, symbol, priceLevel, qty }
  | sendModify orderType symbol orderId priceLevel qty =>
    { requestType := .modifyOrder, orderType := sideOf orderType, symbol, priceLevel, qty,
      delId := orderId }
  | sendKill symbol orderId => { requestType := .killOrder, symbol, delId := orderId }

end Request

structure Order.Fits (w : Widths) (order : Order) : Prop where
  symbol : order.symbol.length = w.symbol
  qty : 0 ≤ order.qty ∧ order.qty < 2 ^ 31
  priceLevel : 0 ≤ order.priceLevel ∧ order.priceLevel < 2 ^ 31
  delId : 0 ≤ order.delId ∧ order.delId < 2 ^ 31

structure Widths.FourBytes (w : Widths) : Prop where
  qty : w.qty = 4
  price : w.price = 4
  id : w.id = 4

section Fields
variable {message : List UInt8} {first : Nat}

theorem append_prefix_iff (part rest : List UInt8) : part ++ rest <+: message.drop first ↔
    field message first part.length = part ∧ rest <+: message.drop (first + part.length) := by
  unfold field
  rw [← List.drop_drop]
  constructor
  · rintro ⟨more, shape⟩
    rw [← shape, List.append_assoc]
    exact ⟨List.take_left, by rw [List.drop_left]; exact ⟨more, rfl⟩⟩
  · rintro ⟨shape, more, ends⟩
    refine ⟨more, ?_⟩
    rw [List.append_assoc, ends]
    nth_rewrite 1 [← shape]
    exact List.take_append_drop _ _

theorem prefix_iff (part : List UInt8) : part <+: message.drop first ↔
    field message first part.length = part := by
  unfold field
  rw [List.prefix_iff_eq_take]
  exact eq_comm

theorem length_numberToBytes {n : Int} (high : n < 2 ^ 31) : (numberToBytes n 4).length = 4 := by
  rw [numberToBytes_eq (by omega)]
  exact length_bytesOf (by omega)

/-- Four bytes are read as a number exactly when they are the bytes it is written as. -/
theorem byteConversion_iff {n : Int} (low : 0 ≤ n) (high : n < 2 ^ 31) :
    byteConversion message first (first + 3) = .ok n ↔
      field message first 4 = numberToBytes n 4 := by
  have len := length_numberToBytes high
  have written : value (numberToBytes n 4) = n.toNat := by
    rw [numberToBytes_eq (by omega), value_bytesOf]
  constructor
  · intro run
    have inside : first + 4 ≤ message.length := byteConversion_inside (by decide) run
    have read := byteConversion_ok (by decide) (by decide) inside
    rw [show first + 4 - 1 = first + 3 by omega, run] at read
    have number := (signedValue_eq (length_field inside).le low high).mp
      (Except.ok.inj read).symm
    apply value_inj
    · rw [length_field inside, len]
    · rw [written]
      omega
  · intro shape
    have four : (field message first 4).length = 4 := by rw [shape, len]
    have inside : first + 4 ≤ message.length := by
      unfold field at four
      rw [List.length_take, List.length_drop] at four
      omega
    rw [show first + 3 = first + 4 - 1 by omega, byteConversion_ok (by decide) (by decide) inside]
    congr 1
    rw [signedValue_eq four.le low high, shape, written]
    omega

theorem field_succ (count : Nat) {b : UInt8} (here : message[first]? = some b) :
    field message first (count + 1) = b :: field message (first + 1) count := by
  unfold field
  obtain ⟨inside, shape⟩ := List.getElem?_eq_some_iff.mp here
  rw [List.drop_eq_getElem_cons inside, shape, List.take_succ_cons]

theorem readSymbol_iff (message : List UInt8) (count : Nat) : ∀ (first : Nat) (s : List UInt8),
    readSymbol message first count = .ok s ↔ s.length = count ∧ field message first count = s := by
  induction count with
  | zero =>
    intro first s
    simp [readSymbol, field, eq_comm]
  | succ count ih =>
    intro first s
    have step : readSymbol message first (count + 1) = readByte message first >>= fun b =>
        readSymbol message (first + 1) count >>= fun rest => pure (b :: rest) := by
      unfold readSymbol
      rw [List.range_succ_eq_map, List.mapM_cons, List.mapM_map]
      simp only [Function.comp_def, Nat.add_zero, Nat.succ_eq_add_one, Nat.add_comm _ 1,
        ← Nat.add_assoc]
    rw [step, readByte]
    cases here : message[first]? with
    | none =>
      refine iff_of_false (fun run => by cases run) ?_
      rintro ⟨len, shape⟩
      rw [List.getElem?_eq_none_iff] at here
      rw [field, List.drop_eq_nil_of_le here, List.take_nil] at shape
      subst shape
      cases len
    | some b =>
      rw [field_succ count here, ok_bind]
      constructor
      · intro run
        obtain ⟨rest, later, run⟩ := bind_ok run
        cases run
        obtain ⟨len, shape⟩ := (ih _ _).mp later
        rw [List.length_cons, len, shape]
        exact ⟨rfl, rfl⟩
      · rintro ⟨len, rfl⟩
        have later := (ih (first + 1) _).mpr ⟨Nat.succ.inj len, rfl⟩
        rw [later]
        rfl

theorem readSymbol_eq (message : List UInt8) (first : Nat) {count : Nat} {s : List UInt8}
    (len : s.length = count) :
    readSymbol message first count = .ok s ↔ field message first count = s := by
  rw [readSymbol_iff, and_iff_right len]

theorem readSide_iff {t : OrderType} :
    readSide message = .ok t ↔ ∃ c, message[1]? = some c ∧ sideOf c = t := by
  unfold readSide readByte
  cases message[1]? with
  | none =>
    refine iff_of_false (fun run => by cases run) ?_
    rintro ⟨_, shape, _⟩
    cases shape
  | some c =>
    simp only [ok_bind, pure_eq_ok, Except.ok.injEq, Option.some.injEq, exists_eq_left', sideOf]

theorem field_header {c t : UInt8} :
    field message 0 2 = [c, t] ↔ message[0]? = some c ∧ message[1]? = some t := by
  rcases message with - | ⟨a, - | ⟨b, rest⟩⟩ <;> simp [field]

end Fields

section Decoders
variable {w : Widths} {message : List UInt8} {orderType : UInt8} {symbol : List UInt8}
  {orderId priceLevel qty : Int}

theorem decodeSendOrder_iff (four : w.FourBytes)
    (fits : (Request.sendOrder orderType symbol priceLevel qty).order.Fits w) :
    decodeSendOrder w message = .ok (Request.sendOrder orderType symbol priceLevel qty).order ↔
      (∃ c, message[1]? = some c ∧ sideOf c = sideOf orderType) ∧
      field message 2 w.symbol = symbol ∧
      field message (w.symbol + 2) 4 = numberToBytes qty 4 ∧
      field message (w.symbol + 6) 4 = numberToBytes priceLevel 4 := by
  have ticker := readSymbol_eq (s := symbol) message 2 fits.symbol
  rw [← readSide_iff, ← byteConversion_iff (n := qty) fits.qty.1 fits.qty.2,
    ← byteConversion_iff (n := priceLevel) fits.priceLevel.1 fits.priceLevel.2, ← ticker]
  unfold decodeSendOrder
  rw [four.qty, four.price]
  constructor
  · intro run
    obtain ⟨_, side, run⟩ := bind_ok run
    obtain ⟨_, name, run⟩ := bind_ok run
    obtain ⟨_, quantity, run⟩ := bind_ok run
    obtain ⟨_, price, run⟩ := bind_ok run
    cases run
    exact ⟨side, name, quantity, price⟩
  · rintro ⟨side, name, quantity, price⟩
    rw [side, ok_bind, name, ok_bind, quantity, ok_bind, price, ok_bind]
    rfl

theorem decodeModifyOrder_iff (four : w.FourBytes)
    (fits : (Request.sendModify orderType symbol orderId priceLevel qty).order.Fits w) :
    decodeModifyOrder w message =
        .ok (Request.sendModify orderType symbol orderId priceLevel qty).order ↔
      (∃ c, message[1]? = some c ∧ sideOf c = sideOf orderType) ∧
      field message 2 w.symbol = symbol ∧
      field message (w.symbol + 2) 4 = numberToBytes qty 4 ∧
      field message (w.symbol + 6) 4 = numberToBytes priceLevel 4 ∧
      field message (w.symbol + 10) 4 = numberToBytes orderId 4 := by
  have ticker := readSymbol_eq (s := symbol) message 2 fits.symbol
  rw [← readSide_iff, ← byteConversion_iff (n := qty) fits.qty.1 fits.qty.2,
    ← byteConversion_iff (n := priceLevel) fits.priceLevel.1 fits.priceLevel.2,
    ← byteConversion_iff (n := orderId) fits.delId.1 fits.delId.2, ← ticker]
  unfold decodeModifyOrder
  rw [four.qty, four.price, four.id]
  constructor
  · intro run
    obtain ⟨_, side, run⟩ := bind_ok run
    obtain ⟨_, name, run⟩ := bind_ok run
    obtain ⟨_, quantity, run⟩ := bind_ok run
    obtain ⟨_, price, run⟩ := bind_ok run
    obtain ⟨_, id, run⟩ := bind_ok run
    cases run
    exact ⟨side, name, quantity, price, id⟩
  · rintro ⟨side, name, quantity, price, id⟩
    rw [side, ok_bind, name, ok_bind, quantity, ok_bind, price, ok_bind, id, ok_bind]
    rfl

theorem decodeKillOrder_iff (four : w.FourBytes)
    (fits : (Request.sendKill symbol orderId).order.Fits w) :
    decodeKillOrder w message = .ok (Request.sendKill symbol orderId).order ↔
      field message 1 w.symbol = symbol ∧
      field message (w.symbol + 1) 4 = numberToBytes orderId 4 := by
  have ticker := readSymbol_eq (s := symbol) message 1 fits.symbol
  rw [← byteConversion_iff (n := orderId) fits.delId.1 fits.delId.2, ← ticker]
  unfold decodeKillOrder
  rw [four.id]
  constructor
  · intro run
    obtain ⟨_, name, run⟩ := bind_ok run
    obtain ⟨_, id, run⟩ := bind_ok run
    cases run
    exact ⟨name, id⟩
  · rintro ⟨name, id⟩
    rw [name, ok_bind, id, ok_bind]
    rfl

theorem fields_sendOrder (four : w.FourBytes)
    (fits : (Request.sendOrder orderType symbol priceLevel qty).order.Fits w) :
    (Request.sendOrder orderType symbol priceLevel qty).fields w <+: message ↔
      (message[0]? = some 'O'.toUInt8 ∧ message[1]? = some orderType) ∧
      field message 2 w.symbol = symbol ∧
      field message (w.symbol + 2) 4 = numberToBytes qty 4 ∧
      field message (w.symbol + 6) 4 = numberToBytes priceLevel 4 := by
  have name : symbol.length = w.symbol := fits.symbol
  have quantity : (numberToBytes qty 4).length = 4 := length_numberToBytes fits.qty.2
  have price : (numberToBytes priceLevel 4).length = 4 := length_numberToBytes fits.priceLevel.2
  unfold Request.fields
  rw [← List.drop_zero (l := message), append_prefix_iff, append_prefix_iff, append_prefix_iff,
    prefix_iff, four.qty, four.price, quantity, price, name, List.drop_zero, ← field_header]
  simp only [List.length_cons, List.length_nil, Nat.zero_add, Nat.reduceAdd, Nat.add_comm 2]

theorem fields_sendModify (four : w.FourBytes)
    (fits : (Request.sendModify orderType symbol orderId priceLevel qty).order.Fits w) :
    (Request.sendModify orderType symbol orderId priceLevel qty).fields w <+: message ↔
      (message[0]? = some 'U'.toUInt8 ∧ message[1]? = some orderType) ∧
      field message 2 w.symbol = symbol ∧
      field message (w.symbol + 2) 4 = numberToBytes qty 4 ∧
      field message (w.symbol + 6) 4 = numberToBytes priceLevel 4 ∧
      field message (w.symbol + 10) 4 = numberToBytes orderId 4 := by
  have name : symbol.length = w.symbol := fits.symbol
  have quantity : (numberToBytes qty 4).length = 4 := length_numberToBytes fits.qty.2
  have price : (numberToBytes priceLevel 4).length = 4 := length_numberToBytes fits.priceLevel.2
  have id : (numberToBytes orderId 4).length = 4 := length_numberToBytes fits.delId.2
  unfold Request.fields
  rw [← List.drop_zero (l := message), append_prefix_iff, append_prefix_iff, append_prefix_iff,
    append_prefix_iff, prefix_iff, four.qty, four.price, four.id, quantity, price, id, name,
    List.drop_zero, ← field_header]
  simp only [List.length_cons, List.length_nil, Nat.zero_add, Nat.reduceAdd, Nat.add_comm 2]

theorem fields_sendKill (four : w.FourBytes)
    (fits : (Request.sendKill symbol orderId).order.Fits w) :
    (Request.sendKill symbol orderId).fields w <+: message ↔
      message[0]? = some 'X'.toUInt8 ∧ field message 1 w.symbol = symbol ∧
      field message (w.symbol + 1) 4 = numberToBytes orderId 4 := by
  have name : symbol.length = w.symbol := fits.symbol
  have id : (numberToBytes orderId 4).length = 4 := length_numberToBytes fits.delId.2
  have letter : field message 0 1 = ['X'.toUInt8] ↔ message[0]? = some 'X'.toUInt8 := by
    cases message <;> simp [field]
  unfold Request.fields
  rw [← List.drop_zero (l := message), append_prefix_iff, append_prefix_iff, prefix_iff, four.id,
    id, name, List.drop_zero, ← letter]
  simp only [List.length_cons, List.length_nil, Nat.zero_add, Nat.add_comm 1]

theorem decoded_kind {w : Widths} {message : List UInt8} {order : Order} :
    (decodeSendOrder w message = .ok order → order.requestType = .sendOrder) ∧
    (decodeModifyOrder w message = .ok order → order.requestType = .modifyOrder) ∧
    (decodeKillOrder w message = .ok order → order.requestType = .killOrder) := by
  refine ⟨fun run => ?_, fun run => ?_, fun run => ?_⟩
  · unfold decodeSendOrder at run
    obtain ⟨_, _, run⟩ := bind_ok run
    obtain ⟨_, _, run⟩ := bind_ok run
    obtain ⟨_, _, run⟩ := bind_ok run
    obtain ⟨_, _, run⟩ := bind_ok run
    cases run
    rfl
  · unfold decodeModifyOrder at run
    obtain ⟨_, _, run⟩ := bind_ok run
    obtain ⟨_, _, run⟩ := bind_ok run
    obtain ⟨_, _, run⟩ := bind_ok run
    obtain ⟨_, _, run⟩ := bind_ok run
    obtain ⟨_, _, run⟩ := bind_ok run
    cases run
    rfl
  · unfold decodeKillOrder at run
    obtain ⟨_, _, run⟩ := bind_ok run
    obtain ⟨_, _, run⟩ := bind_ok run
    cases run
    rfl

theorem map_some_iff {x : Except Fault Order} {order : Order} :
    some <$> x = .ok (some order) ↔ x = .ok order := by
  cases x with
  | ok o => exact ⟨fun run => by cases run; rfl, fun run => by cases run; rfl⟩
  | error e => exact ⟨fun run => (by cases run), fun run => by cases run⟩

theorem decodeRequest_iff (w : Widths) (message : List UInt8) (order : Order) :
    decodeRequest w message = .ok (some order) ↔
      match order.requestType with
      | .sendOrder => message[0]? = some 'O'.toUInt8 ∧ decodeSendOrder w message = .ok order
      | .modifyOrder => message[0]? = some 'U'.toUInt8 ∧ decodeModifyOrder w message = .ok order
      | .killOrder => message[0]? = some 'X'.toUInt8 ∧ decodeKillOrder w message = .ok order := by
  have first : ∀ letter : UInt8, letter ≠ 0 →
      (message.headD 0 = letter ↔ message[0]? = some letter) := by
    intro letter nonempty
    cases message with
    | nil => simp [nonempty.symm]
    | cons b rest => simp
  obtain ⟨send, modify, kill⟩ :
      (decodeSendOrder w message = .ok order → order.requestType = .sendOrder) ∧
      (decodeModifyOrder w message = .ok order → order.requestType = .modifyOrder) ∧
      (decodeKillOrder w message = .ok order → order.requestType = .killOrder) := decoded_kind
  rw [← first _ (by decide), ← first _ (by decide), ← first _ (by decide)]
  unfold decodeRequest
  simp only
  split
  · rename_i letter
    rw [map_some_iff]
    constructor
    · intro run
      rw [send run]
      exact ⟨letter, run⟩
    · intro run
      split at run
      · exact run.2
      · exact absurd (letter.symm.trans run.1) (by decide)
      · exact absurd (letter.symm.trans run.1) (by decide)
  · rename_i notSend
    split
    · rename_i letter
      rw [map_some_iff]
      constructor
      · intro run
        rw [modify run]
        exact ⟨letter, run⟩
      · intro run
        split at run
        · exact absurd run.1 notSend
        · exact run.2
        · exact absurd (letter.symm.trans run.1) (by decide)
    · rename_i notModify
      split
      · rename_i letter
        rw [map_some_iff]
        constructor
        · intro run
          rw [kill run]
          exact ⟨letter, run⟩
        · intro run
          split at run
          · exact absurd run.1 notSend
          · exact absurd run.1 notModify
          · exact run.2
      · rename_i notKill
        refine iff_of_false (fun run => by cases run) fun run => ?_
        split at run
        · exact notSend run.1
        · exact notModify run.1
        · exact notKill run.1

end Decoders

namespace Request

/-- A read begins with the fields of a request; the letter of a side other than `B` may be
    another such letter, since the server does not see the difference. -/
def Begins (w : Widths) (request : Request) (read : List UInt8) : Prop :=
  ∃ same : Request, same.order = request.order ∧ same.fields w <+: read

section Begins
variable {w : Widths} {request : Request} {read : List UInt8}

theorem decodeRequest_of_fields (four : w.FourBytes) (fits : request.order.Fits w)
    (begins : request.fields w <+: read) :
    decodeRequest w read = .ok (some request.order) := by
  rw [decodeRequest_iff]
  cases request with
  | sendOrder orderType symbol priceLevel qty =>
    obtain ⟨⟨letter, side⟩, parts⟩ := (fields_sendOrder four fits).mp begins
    exact ⟨letter, (decodeSendOrder_iff four fits).mpr ⟨⟨orderType, side, rfl⟩, parts⟩⟩
  | sendModify orderType symbol orderId priceLevel qty =>
    obtain ⟨⟨letter, side⟩, parts⟩ := (fields_sendModify four fits).mp begins
    exact ⟨letter, (decodeModifyOrder_iff four fits).mpr ⟨⟨orderType, side, rfl⟩, parts⟩⟩
  | sendKill symbol orderId =>
    obtain ⟨letter, parts⟩ := (fields_sendKill four fits).mp begins
    exact ⟨letter, (decodeKillOrder_iff four fits).mpr parts⟩

theorem begins_of_decodeRequest (four : w.FourBytes) (fits : request.order.Fits w)
    (run : decodeRequest w read = .ok (some request.order)) : request.Begins w read := by
  rw [decodeRequest_iff] at run
  cases request with
  | sendOrder orderType symbol priceLevel qty =>
    obtain ⟨letter, run⟩ := run
    obtain ⟨⟨c, here, side⟩, parts⟩ := (decodeSendOrder_iff four fits).mp run
    have shape : (sendOrder c symbol priceLevel qty).order =
        (sendOrder orderType symbol priceLevel qty).order := by simp only [order, side]
    exact ⟨_, shape, (fields_sendOrder four (by rwa [shape])).mpr ⟨⟨letter, here⟩, parts⟩⟩
  | sendModify orderType symbol orderId priceLevel qty =>
    obtain ⟨letter, run⟩ := run
    obtain ⟨⟨c, here, side⟩, parts⟩ := (decodeModifyOrder_iff four fits).mp run
    have shape : (sendModify c symbol orderId priceLevel qty).order =
        (sendModify orderType symbol orderId priceLevel qty).order := by simp only [order, side]
    exact ⟨_, shape, (fields_sendModify four (by rwa [shape])).mpr ⟨⟨letter, here⟩, parts⟩⟩
  | sendKill symbol orderId =>
    obtain ⟨letter, run⟩ := run
    exact ⟨_, rfl, (fields_sendKill four fits).mpr
      ⟨letter, (decodeKillOrder_iff four fits).mp run⟩⟩

/-- The server decodes a request exactly from the reads that begin with its fields. -/
theorem decodeRequest_begins (four : w.FourBytes) (fits : request.order.Fits w) :
    decodeRequest w read = .ok (some request.order) ↔ request.Begins w read := by
  constructor
  · exact begins_of_decodeRequest four fits
  · rintro ⟨same, shape, begins⟩
    rw [← shape] at fits ⊢
    exact decodeRequest_of_fields four fits begins

end Begins
end Request
end MarketBookExchange
