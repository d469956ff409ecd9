import MdfeedItch.ByteCursor

/-! # Primitive types and decoded ITCH messages

`core/types.h` and `core/itch_messages.h`. Fixed-width integers keep their width. -/
namespace MdfeedItch
open ByteCursor

abbrev OrderId := UInt64
abbrev Price := UInt32
abbrev Quantity := UInt32
abbrev Timestamp := UInt64
abbrev StockLocate := UInt16
abbrev TrackingNumber := UInt16
abbrev SequenceNumber := UInt64
abbrev SymbolKey := UInt64

abbrev symbolLen : ℕ := 8
abbrev Symbol := Vector UInt8 symbolLen

/-- `enum class Side : uint8_t`. The decoder casts any wire byte to it, so every
byte is a value; `Buy` and `Sell` are the two named ones. -/
structure Side where
  code : UInt8
  deriving DecidableEq, Repr

def Side.buy : Side := ⟨0x42⟩
def Side.sell : Side := ⟨0x53⟩

/-- The test `side == Side::Buy` that selects the ladder. -/
def Side.isBuy (s : Side) : Bool := decide (s = Side.buy)

/-- `make_symbol`: the first bytes of a name, padded with blanks. -/
def makeSymbol (s : List UInt8) : Symbol := Vector.ofFn (fun i => s.getD i 32)

/-- The eight symbol bytes shifted together, first byte highest. -/
def symbolKey (s : Symbol) : SymbolKey := UInt64.ofNat (ofBytes s.toList)

private theorem symbol_value_lt (s : Symbol) : ofBytes s.toList < 2 ^ 64 := by
  have h := ofBytes_lt s.toList
  rwa [Vector.length_toList] at h

/-- No two symbols share a key. -/
theorem symbolKey_injective : Function.Injective symbolKey := by
  intro s t h
  have hn := congrArg UInt64.toNat h
  rw [symbolKey, symbolKey, UInt64.toNat_ofNat', UInt64.toNat_ofNat',
    Nat.mod_eq_of_lt (symbol_value_lt s), Nat.mod_eq_of_lt (symbol_value_lt t)] at hn
  exact Vector.toList_inj.mp (ofBytes_injective (by simp) hn)

structure SystemEventMsg where
  stockLocate : StockLocate
  trackingNumber : TrackingNumber
  ts : Timestamp
  eventCode : UInt8
  deriving DecidableEq, Repr

structure StockDirectoryMsg where
  stockLocate : StockLocate
  trackingNumber : TrackingNumber
  ts : Timestamp
  symbol : Symbol
  marketCategory : UInt8
  financialStatus : UInt8
  roundLotSize : UInt32
  deriving DecidableEq, Repr

structure AddOrderMsg where
  stockLocate : StockLocate
  trackingNumber : TrackingNumber
  ts : Timestamp
  orderId : OrderId
  side : Side
  shares : Quantity
  symbol : Symbol
  price : Price
  deriving DecidableEq, Repr

structure AddOrderMPIDMsg where
  base : AddOrderMsg
  attribution : Vector UInt8 4
  deriving DecidableEq, Repr

structure OrderExecutedMsg where
  stockLocate : StockLocate
  trackingNumber : TrackingNumber
  ts : Timestamp
  orderId : OrderId
  executedShares : Quantity
  matchNumber : UInt64
  deriving DecidableEq, Repr

structure OrderExecutedWithPriceMsg where
  base : OrderExecutedMsg
  printable : UInt8
  executionPrice : Price
  deriving DecidableEq, Repr

structure OrderCancelMsg where
  stockLocate : StockLocate
  trackingNumber : TrackingNumber
  ts : Timestamp
  orderId : OrderId
  canceledShares : Quantity
  deriving DecidableEq, Repr

structure OrderDeleteMsg where
  stockLocate : StockLocate
  trackingNumber : TrackingNumber
  ts : Timestamp
  orderId : OrderId
  deriving DecidableEq, Repr

structure OrderReplaceMsg where
  stockLocate : StockLocate
  trackingNumber : TrackingNumber
  ts : Timestamp
  originalOrderId : OrderId
  newOrderId : OrderId
  shares : Quantity
  price : Price
  deriving DecidableEq, Repr

structure TradeMsg where
  stockLocate : StockLocate
  trackingNumber : TrackingNumber
  ts : Timestamp
  orderId : OrderId
  side : Side
  shares : Quantity
  symbol : Symbol
  price : Price
  matchNumber : UInt64
  deriving DecidableEq, Repr

inductive AnyMessage
  | systemEvent (m : SystemEventMsg)
  | stockDirectory (m : StockDirectoryMsg)
  | addOrder (m : AddOrderMsg)
  | addOrderMPID (m : AddOrderMPIDMsg)
  | orderExecuted (m : OrderExecutedMsg)
  | orderExecutedWithPrice (m : OrderExecutedWithPriceMsg)
  | orderCancel (m : OrderCancelMsg)
  | orderDelete (m : OrderDeleteMsg)
  | orderReplace (m : OrderReplaceMsg)
  | trade (m : TradeMsg)
  deriving DecidableEq, Repr

/-- The ten type codes of the wire format. -/
inductive MessageType
  | systemEvent | stockDirectory | addOrder | addOrderMPID | orderExecuted
  | orderExecutedWithPrice | orderCancel | orderDelete | orderReplace | trade
  deriving DecidableEq, Repr

def MessageType.code : MessageType → UInt8
  | .systemEvent => 0x53
  | .stockDirectory => 0x52
  | .addOrder => 0x41
  | .addOrderMPID => 0x46
  | .orderExecuted => 0x45
  | .orderExecutedWithPrice => 0x43
  | .orderCancel => 0x58
  | .orderDelete => 0x44
  | .orderReplace => 0x55
  | .trade => 0x50

/-- The `kWireSize_*` table: type code and body, without the length prefix. -/
def MessageType.wireSize : MessageType → ℕ
  | .systemEvent => 12
  | .stockDirectory => 39
  | .addOrder => 36
  | .addOrderMPID => 40
  | .orderExecuted => 31
  | .orderExecutedWithPrice => 36
  | .orderCancel => 23
  | .orderDelete => 19
  | .orderReplace => 35
  | .trade => 44

theorem MessageType.wireSize_pos (t : MessageType) : 1 ≤ t.wireSize := by
  cases t <;> decide

/-- Every size fits in the two bytes of the length. -/
theorem MessageType.wireSize_lt (t : MessageType) : t.wireSize < 2 ^ 16 := by
  cases t <;> decide

/-- The `switch` on the type byte; `none` is its `default`. -/
def MessageType.ofByte (b : UInt8) : Option MessageType :=
  [systemEvent, stockDirectory, addOrder, addOrderMPID, orderExecuted, orderExecutedWithPrice,
    orderCancel, orderDelete, orderReplace, trade].find? (fun t => t.code = b)

end MdfeedItch
