import MdfeedItch.ItchMessages

/-! # Decoding one framed ITCH message

`decode_frame` of `core/parser.cpp`. The moving pointer `p` is the cursor; it
starts behind the type byte and runs over the caller's whole buffer, so only the
length checks keep its reads inside the frame. -/
namespace MdfeedItch
open ByteCursor

inductive ParseStatus | ok | shortBuffer | unknownType | lengthMismatch
  deriving DecidableEq, Repr

structure ParseResult where
  status : ParseStatus
  consumed : ℕ
  message : Option AnyMessage
  deriving DecidableEq, Repr

def readU8 : Cursor UInt8 := UInt8.ofNat <$> takeWord 1
def readU16 : Cursor UInt16 := UInt16.ofNat <$> takeWord 2
def readU32 : Cursor UInt32 := UInt32.ofNat <$> takeWord 4
def readU48 : Cursor UInt64 := UInt64.ofNat <$> takeWord 6
def readU64 : Cursor UInt64 := UInt64.ofNat <$> takeWord 8

/-- `memcpy` of `n` bytes into a fixed-size array. -/
def readArray (n : ℕ) : Cursor (Vector UInt8 n) :=
  (fun bs => Vector.ofFn (fun i : Fin n => bs.getD i 0)) <$> takeBytes n

def readSymbol : Cursor Symbol := readArray symbolLen
def readSide : Cursor Side := Side.mk <$> readU8

def decodeSystemEvent : Cursor SystemEventMsg := do
  let stockLocate ← readU16
  let trackingNumber ← readU16
  let ts ← readU48
  let eventCode ← readU8
  return { stockLocate, trackingNumber, ts, eventCode }

def decodeStockDirectory : Cursor StockDirectoryMsg := do
  let stockLocate ← readU16
  let trackingNumber ← readU16
  let ts ← readU48
  let symbol ← readSymbol
  let marketCategory ← readU8
  let financialStatus ← readU8
  let roundLotSize ← readU32
  return { stockLocate, trackingNumber, ts, symbol, marketCategory, financialStatus, roundLotSize }

def decodeAddOrder : Cursor AddOrderMsg := do
  let stockLocate ← readU16
  let trackingNumber ← readU16
  let ts ← readU48
  let orderId ← readU64
  let side ← readSide
  let shares ← readU32
  let symbol ← readSymbol
  let price ← readU32
  return { stockLocate, trackingNumber, ts, orderId, side, shares, symbol, price }

def decodeAddOrderMPID : Cursor AddOrderMPIDMsg := do
  let base ← decodeAddOrder
  let attribution ← readArray 4
  return { base, attribution }

def decodeOrderExecuted : Cursor OrderExecutedMsg := do
  let stockLocate ← readU16
  let trackingNumber ← readU16
  let ts ← readU48
  let orderId ← readU64
  let executedShares ← readU32
  let matchNumber ← readU64
  return { stockLocate, trackingNumber, ts, orderId, executedShares, matchNumber }

def decodeOrderExecutedWithPrice : Cursor OrderExecutedWithPriceMsg := do
  let base ← decodeOrderExecuted
  let printable ← readU8
  let executionPrice ← readU32
  return { base, printable, executionPrice }

def decodeOrderCancel : Cursor OrderCancelMsg := do
  let stockLocate ← readU16
  let trackingNumber ← readU16
  let ts ← readU48
  let orderId ← readU64
  let canceledShares ← readU32
  return { stockLocate, trackingNumber, ts, orderId, canceledShares }

def decodeOrderDelete : Cursor OrderDeleteMsg := do
  let stockLocate ← readU16
  let trackingNumber ← readU16
  let ts ← readU48
  let orderId ← readU64
  return { stockLocate, trackingNumber, ts, orderId }

def decodeOrderReplace : Cursor OrderReplaceMsg := do
  let stockLocate ← readU16
  let trackingNumber ← readU16
  let ts ← readU48
  let originalOrderId ← readU64
  let newOrderId ← readU64
  let shares ← readU32
  let price ← readU32
  return { stockLocate, trackingNumber, ts, originalOrderId, newOrderId, shares, price }

def decodeTrade : Cursor TradeMsg := do
  let stockLocate ← readU16
  let trackingNumber ← readU16
  let ts ← readU48
  let orderId ← readU64
  let side ← readSide
  let shares ← readU32
  let symbol ← readSymbol
  let price ← readU32
  let matchNumber ← readU64
  return { stockLocate, trackingNumber, ts, orderId, side, shares, symbol, price, matchNumber }

/-- The arm of the `switch` for one message type, behind its length check. -/
def decodeBody : MessageType → Cursor AnyMessage
  | .systemEvent => AnyMessage.systemEvent <$> decodeSystemEvent
  | .stockDirectory => AnyMessage.stockDirectory <$> decodeStockDirectory
  | .addOrder => AnyMessage.addOrder <$> decodeAddOrder
  | .addOrderMPID => AnyMessage.addOrderMPID <$> decodeAddOrderMPID
  | .orderExecuted => AnyMessage.orderExecuted <$> decodeOrderExecuted
  | .orderExecutedWithPrice => AnyMessage.orderExecutedWithPrice <$> decodeOrderExecutedWithPrice
  | .orderCancel => AnyMessage.orderCancel <$> decodeOrderCancel
  | .orderDelete => AnyMessage.orderDelete <$> decodeOrderDelete
  | .orderReplace => AnyMessage.orderReplace <$> decodeOrderReplace
  | .trade => AnyMessage.trade <$> decodeTrade

/-- Decode the frame at the front of a buffer. An out-of-range read in an arm
would leave `message` empty with status `ok`; `decodeFrame_message` excludes it. -/
def decodeFrame (bytes : List UInt8) : ParseResult :=
  if bytes.length < 2 then ⟨.shortBuffer, 0, none⟩
  else
    let length := ofBytes (bytes.take 2)
    let total := 2 + length
    if bytes.length < total then ⟨.shortBuffer, 0, none⟩
    else if length < 1 then ⟨.lengthMismatch, total, none⟩
    else
      match MessageType.ofByte (bytes.getD 2 0) with
      | none => ⟨.unknownType, total, none⟩
      | some type =>
        if length = type.wireSize then
          ⟨.ok, total, ((decodeBody type).run (bytes.drop 3)).map Prod.fst⟩
        else ⟨.lengthMismatch, total, none⟩

section Reads
variable {α β : Type}

private theorem reads_map {c : Cursor α} {n : ℕ} (h : Reads c n) (f : α → β) : Reads (f <$> c) n := by
  intro bs hbs
  obtain ⟨a, ha⟩ := h bs hbs
  exact ⟨f a, by rw [StateT.run_map, ha]; rfl⟩

theorem readU8_reads : Reads readU8 1 := reads_map (takeWord_reads 1) _
theorem readU16_reads : Reads readU16 2 := reads_map (takeWord_reads 2) _
theorem readU32_reads : Reads readU32 4 := reads_map (takeWord_reads 4) _
private theorem readU48_reads : Reads readU48 6 := reads_map (takeWord_reads 6) _
theorem readU64_reads : Reads readU64 8 := reads_map (takeWord_reads 8) _
theorem readArray_reads (n : ℕ) : Reads (readArray n) n := reads_map (takeBytes_reads n) _
private theorem readSide_reads : Reads readSide 1 := reads_map readU8_reads _

/-- The ten bytes every body starts with: locate, tracking number, timestamp. -/
private theorem header_reads {f : UInt16 → UInt16 → UInt64 → Cursor α} {n : ℕ}
    (h : ∀ a b c, Reads (f a b c) n) :
    Reads (do let a ← readU16; let b ← readU16; let c ← readU48; f a b c) (2 + (2 + (6 + n))) :=
  readU16_reads.bind fun a => readU16_reads.bind fun b => readU48_reads.bind fun c => h a b c

private theorem decodeAddOrder_reads : Reads decodeAddOrder 35 :=
  header_reads fun _ _ _ => readU64_reads.bind fun _ => readSide_reads.bind fun _ =>
    readU32_reads.bind fun _ => (readArray_reads 8).bind fun _ => readU32_reads.bind fun _ => .pure _

private theorem decodeOrderExecuted_reads : Reads decodeOrderExecuted 30 :=
  header_reads fun _ _ _ => readU64_reads.bind fun _ => readU32_reads.bind fun _ =>
    readU64_reads.bind fun _ => .pure _

/-- The bytes an arm reads behind the type byte. The stock directory arm stops
fourteen bytes before the end of its frame; every other arm reads all of it. -/
def bytesRead : MessageType → ℕ
  | .stockDirectory => 24
  | t => t.wireSize - 1

theorem bytesRead_lt (t : MessageType) : bytesRead t < t.wireSize := by
  cases t <;> decide

theorem decodeBody_reads (t : MessageType) : Reads (decodeBody t) (bytesRead t) := by
  cases t with
  | systemEvent => exact reads_map (header_reads fun _ _ _ => readU8_reads.bind fun _ => .pure _) _
  | stockDirectory =>
    exact reads_map (header_reads fun _ _ _ => (readArray_reads 8).bind fun _ =>
      readU8_reads.bind fun _ => readU8_reads.bind fun _ => readU32_reads.bind fun _ => .pure _) _
  | addOrder => exact reads_map decodeAddOrder_reads _
  | addOrderMPID =>
    exact reads_map (decodeAddOrder_reads.bind fun _ => (readArray_reads 4).bind fun _ => .pure _) _
  | orderExecuted => exact reads_map decodeOrderExecuted_reads _
  | orderExecutedWithPrice =>
    exact reads_map (decodeOrderExecuted_reads.bind fun _ => readU8_reads.bind fun _ =>
      readU32_reads.bind fun _ => .pure _) _
  | orderCancel =>
    exact reads_map (header_reads fun _ _ _ => readU64_reads.bind fun _ =>
      readU32_reads.bind fun _ => .pure _) _
  | orderDelete => exact reads_map (header_reads fun _ _ _ => readU64_reads.bind fun _ => .pure _) _
  | orderReplace =>
    exact reads_map (header_reads fun _ _ _ => readU64_reads.bind fun _ => readU64_reads.bind fun _ =>
      readU32_reads.bind fun _ => readU32_reads.bind fun _ => .pure _) _
  | trade =>
    exact reads_map (header_reads fun _ _ _ => readU64_reads.bind fun _ => readSide_reads.bind fun _ =>
      readU32_reads.bind fun _ => (readArray_reads 8).bind fun _ => readU32_reads.bind fun _ =>
        readU64_reads.bind fun _ => .pure _) _

end Reads

/-- A message is present exactly when the status is `ok`. -/
theorem decodeFrame_message (bytes : List UInt8) :
    (decodeFrame bytes).message.isSome ↔ (decodeFrame bytes).status = .ok := by
  unfold decodeFrame
  by_cases hshort : bytes.length < 2
  · simp [hshort]
  · simp only [hshort, if_false]
    by_cases htotal : bytes.length < 2 + ofBytes (bytes.take 2)
    · simp [htotal]
    · simp only [htotal, if_false]
      split_ifs with hzero
      · simp
      · cases MessageType.ofByte (bytes.getD 2 0) with
        | none => simp
        | some t =>
          dsimp only
          split_ifs with hsize
          · have hread := bytesRead_lt t
            obtain ⟨m, hm⟩ := decodeBody_reads t (bytes.drop 3) (by rw [List.length_drop]; omega)
            simp [hm]
          · simp

end MdfeedItch
