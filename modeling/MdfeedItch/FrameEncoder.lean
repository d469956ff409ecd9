import MdfeedItch.ByteLayout
import MdfeedItch.FrameDecoder

/-! # Encoding one framed ITCH message

`framed_size` and `encode_frame` of `core/parser.cpp`. The encoder writes at
absolute offsets into a buffer of the caller; `frameFields` is its table of
offsets. What it does not write keeps the caller's bytes. -/
namespace MdfeedItch
open ByteCursor ByteLayout

def u8Bytes (v : UInt8) : List UInt8 := [v]
def u16Bytes (v : UInt16) : List UInt8 := toBytes 2 v.toNat
def u32Bytes (v : UInt32) : List UInt8 := toBytes 4 v.toNat
/-- The low six bytes of a timestamp; the two high ones are not written. -/
def u48Bytes (v : UInt64) : List UInt8 := toBytes 6 v.toNat
def u64Bytes (v : UInt64) : List UInt8 := toBytes 8 v.toNat
def arrayBytes {n : ℕ} (v : Vector UInt8 n) : List UInt8 := v.toList

namespace AnyMessage

@[simp] def type : AnyMessage → MessageType
  | systemEvent _ => .systemEvent
  | stockDirectory _ => .stockDirectory
  | addOrder _ => .addOrder
  | addOrderMPID _ => .addOrderMPID
  | orderExecuted _ => .orderExecuted
  | orderExecutedWithPrice _ => .orderExecutedWithPrice
  | orderCancel _ => .orderCancel
  | orderDelete _ => .orderDelete
  | orderReplace _ => .orderReplace
  | trade _ => .trade

@[simp] def stockLocate : AnyMessage → StockLocate
  | systemEvent m => m.stockLocate
  | stockDirectory m => m.stockLocate
  | addOrder m => m.stockLocate
  | addOrderMPID m => m.base.stockLocate
  | orderExecuted m => m.stockLocate
  | orderExecutedWithPrice m => m.base.stockLocate
  | orderCancel m => m.stockLocate
  | orderDelete m => m.stockLocate
  | orderReplace m => m.stockLocate
  | trade m => m.stockLocate

@[simp] def trackingNumber : AnyMessage → TrackingNumber
  | systemEvent m => m.trackingNumber
  | stockDirectory m => m.trackingNumber
  | addOrder m => m.trackingNumber
  | addOrderMPID m => m.base.trackingNumber
  | orderExecuted m => m.trackingNumber
  | orderExecutedWithPrice m => m.base.trackingNumber
  | orderCancel m => m.trackingNumber
  | orderDelete m => m.trackingNumber
  | orderReplace m => m.trackingNumber
  | trade m => m.trackingNumber

@[simp] def ts : AnyMessage → Timestamp
  | systemEvent m => m.ts
  | stockDirectory m => m.ts
  | addOrder m => m.ts
  | addOrderMPID m => m.base.ts
  | orderExecuted m => m.ts
  | orderExecutedWithPrice m => m.base.ts
  | orderCancel m => m.ts
  | orderDelete m => m.ts
  | orderReplace m => m.ts
  | trade m => m.ts

end AnyMessage

/-- `framed_size`: the length prefix and the wire size of the variant. -/
def framedSize (msg : AnyMessage) : ℕ := 2 + msg.type.wireSize

/-- The writes of `write_header`. -/
def headerFields (msg : AnyMessage) : List Field :=
  [(0, u16Bytes (UInt16.ofNat msg.type.wireSize)), (2, u8Bytes msg.type.code), (3, u16Bytes msg.stockLocate),
    (5, u16Bytes msg.trackingNumber), (7, u48Bytes msg.ts)]

/-- The writes of an add behind the header, shared by types A and F. -/
def addOrderFields (m : AddOrderMsg) : List Field :=
  [(13, u64Bytes m.orderId), (21, u8Bytes m.side.code), (22, u32Bytes m.shares), (26, arrayBytes m.symbol),
    (34, u32Bytes m.price)]

/-- The writes of an execution behind the header, shared by types E and C. -/
def orderExecutedFields (m : OrderExecutedMsg) : List Field :=
  [(13, u64Bytes m.orderId), (21, u32Bytes m.executedShares), (25, u64Bytes m.matchNumber)]

/-- The writes of the arm for one variant behind the header. -/
def bodyFields : AnyMessage → List Field
  | .systemEvent m => [(13, u8Bytes m.eventCode)]
  | .stockDirectory m =>
    [(13, arrayBytes m.symbol), (21, u8Bytes m.marketCategory), (22, u8Bytes m.financialStatus),
      (23, u32Bytes m.roundLotSize)]
  | .addOrder m => addOrderFields m
  | .addOrderMPID m => addOrderFields m.base ++ [(38, arrayBytes m.attribution)]
  | .orderExecuted m => orderExecutedFields m
  | .orderExecutedWithPrice m =>
    orderExecutedFields m.base ++ [(33, u8Bytes m.printable), (34, u32Bytes m.executionPrice)]
  | .orderCancel m => [(13, u64Bytes m.orderId), (21, u32Bytes m.canceledShares)]
  | .orderDelete m => [(13, u64Bytes m.orderId)]
  | .orderReplace m =>
    [(13, u64Bytes m.originalOrderId), (21, u64Bytes m.newOrderId), (29, u32Bytes m.shares),
      (33, u32Bytes m.price)]
  | .trade m =>
    [(13, u64Bytes m.orderId), (21, u8Bytes m.side.code), (22, u32Bytes m.shares), (26, arrayBytes m.symbol),
      (34, u32Bytes m.price), (38, u64Bytes m.matchNumber)]

def frameFields (msg : AnyMessage) : List Field := headerFields msg ++ bodyFields msg

/-- `encode_frame`: what it returns and the buffer it leaves. A buffer that is too short stays as it is. -/
def encodeFrame (msg : AnyMessage) (out : List UInt8) : ℕ × List UInt8 :=
  if out.length < framedSize msg then (0, out)
  else (framedSize msg, overwriteAll out (frameFields msg))

/-- The bytes that the encoder writes. -/
def frameBytes (msg : AnyMessage) : List UInt8 := fieldBytes (frameFields msg)

@[simp] theorem length_u8Bytes (v : UInt8) : (u8Bytes v).length = 1 := rfl
@[simp] theorem length_u16Bytes (v : UInt16) : (u16Bytes v).length = 2 := length_toBytes 2 _
@[simp] theorem length_u32Bytes (v : UInt32) : (u32Bytes v).length = 4 := length_toBytes 4 _
@[simp] theorem length_u48Bytes (v : UInt64) : (u48Bytes v).length = 6 := length_toBytes 6 _
@[simp] theorem length_u64Bytes (v : UInt64) : (u64Bytes v).length = 8 := length_toBytes 8 _
@[simp] theorem length_arrayBytes {n : ℕ} (v : Vector UInt8 n) : (arrayBytes v).length = n := by simp [arrayBytes]

/-- The offsets of the encoder have no holes and no overlaps. -/
theorem frameFields_consecutive (msg : AnyMessage) : Consecutive 0 (frameFields msg) := by
  cases msg <;> simp [frameFields, headerFields, bodyFields, addOrderFields, orderExecutedFields,
    Consecutive, symbolLen]

/-- The written bytes fill the frame, up to the last fourteen of a stock directory. -/
theorem length_frameBytes (msg : AnyMessage) : (frameBytes msg).length = 3 + bytesRead msg.type := by
  cases msg <;>
    simp [frameBytes, fieldBytes, frameFields, headerFields, bodyFields, addOrderFields, orderExecutedFields,
      AnyMessage.type, bytesRead, MessageType.wireSize, symbolLen]

/-- In a large enough buffer exactly the written bytes change. -/
theorem encodeFrame_eq {msg : AnyMessage} {out : List UInt8} (h : framedSize msg ≤ out.length) :
    encodeFrame msg out = (framedSize msg, frameBytes msg ++ out.drop (frameBytes msg).length) := by
  have hwrite := @overwriteAll_consecutive [] out _ (frameFields_consecutive msg)
  rw [encodeFrame, if_neg (Nat.not_lt.mpr h)]
  exact congrArg (Prod.mk _) hwrite

end MdfeedItch
