import MdfeedItch.ItchMessages
import Mathlib.Data.List.Sort

/-! # The depth book of one symbol

`SymbolBook` of `core/depth_book.cpp`: the live orders, one price ladder a side
and the materialised first levels of each ladder. The maps keep their iteration
order in the comparison, best price first. -/
namespace MdfeedItch
open Std

structure PriceLevel where
  price : Price
  totalQty : Quantity
  orderCount : UInt32
  deriving DecidableEq, Repr

/-- What rests in a book: the fields of `OrderState` that price levels add up. -/
@[ext] structure RestingOrder where
  side : Side
  price : Price
  qty : Quantity
  deriving DecidableEq, Repr

structure OrderState extends RestingOrder where
  ts : Timestamp
  deriving DecidableEq, Repr

abbrev OrderTable := ExtTreeMap OrderId OrderState
abbrev BidLadder := ExtTreeMap Price PriceLevel (fun a b => compare b a)
abbrev AskLadder := ExtTreeMap Price PriceLevel

instance : TransCmp (fun a b : Price => compare b a) := inferInstance

structure SymbolBook where
  depth : ℕ
  orders : OrderTable
  bidLevels : BidLadder
  askLevels : AskLadder
  topBids : List PriceLevel
  topAsks : List PriceLevel
  lastTs : Timestamp
  deriving DecidableEq

section Ladder
variable {cmp : Price → Price → Ordering} [TransCmp cmp]

/-- The branch of `apply_level_delta` for one ladder; `none` is its early return.
The new totals are 64-bit signed and cannot overflow, the stored ones are cut to 32 bits. -/
def levelDelta (levels : ExtTreeMap Price PriceLevel cmp) (price : Price) (qtyDelta countDelta : ℤ) :
    Option (ExtTreeMap Price PriceLevel cmp) :=
  match levels[price]? with
  | none =>
    if qtyDelta ≤ 0 then none
    else some (levels.insert price ⟨price, UInt32.ofInt qtyDelta, UInt32.ofInt countDelta⟩)
  | some pl =>
    let nq := (pl.totalQty.toNat : ℤ) + qtyDelta
    let nc := (pl.orderCount.toNat : ℤ) + countDelta
    if nq ≤ 0 ∨ nc ≤ 0 then some (levels.erase price)
    else some (levels.insert price ⟨pl.price, UInt32.ofInt nq, UInt32.ofInt nc⟩)

/-- The slice that `refresh_top_bids` and `refresh_top_asks` copy out. -/
def topLevels (levels : ExtTreeMap Price PriceLevel cmp) (depth : ℕ) : List PriceLevel :=
  (levels.toList.take depth).map Prod.snd

end Ladder

namespace SymbolBook

/-- The constructor: an empty book of the given depth. -/
def new (depth : ℕ) : SymbolBook := ⟨depth, ∅, ∅, ∅, [], [], 0⟩

def hasOrder (b : SymbolBook) (id : OrderId) : Bool := b.orders[id]?.isSome

def applyLevelDelta (b : SymbolBook) (side : Side) (price : Price) (qtyDelta countDelta : ℤ) :
    SymbolBook :=
  if side.isBuy then
    match levelDelta b.bidLevels price qtyDelta countDelta with
    | none => b
    | some levels => { b with bidLevels := levels, topBids := topLevels levels b.depth }
  else
    match levelDelta b.askLevels price qtyDelta countDelta with
    | none => b
    | some levels => { b with askLevels := levels, topAsks := topLevels levels b.depth }

def addOrder (b : SymbolBook) (id : OrderId) (side : Side) (price : Price) (qty : Quantity)
    (ts : Timestamp) : SymbolBook :=
  if qty = 0 then b
  else
    match b.orders[id]? with
    | some _ => b  -- duplicate id, ignored
    | none =>
      let b := { b with orders := b.orders.insert id ⟨⟨side, price, qty⟩, ts⟩, lastTs := ts }
      b.applyLevelDelta side price qty.toNat 1

def modifyOrder (b : SymbolBook) (id : OrderId) (newQty : Quantity) (ts : Timestamp) :
    Bool × SymbolBook :=
  match b.orders[id]? with
  | none => (false, b)
  | some o =>
    let delta := (newQty.toNat : ℤ) - o.qty.toNat
    if delta = 0 then
      (true, { b with orders := b.orders.insert id { o with ts := ts }, lastTs := ts })
    else if newQty = 0 then
      let b := { b with orders := b.orders.erase id }
      let b := b.applyLevelDelta o.side o.price (-(o.qty.toNat : ℤ)) (-1)
      (true, { b with lastTs := ts })
    else
      let b := { b with orders := b.orders.insert id ⟨⟨o.side, o.price, newQty⟩, ts⟩ }
      let b := b.applyLevelDelta o.side o.price delta 0
      (true, { b with lastTs := ts })

def reduceOrder (b : SymbolBook) (id : OrderId) (delta : Quantity) (ts : Timestamp) :
    Bool × SymbolBook :=
  match b.orders[id]? with
  | none => (false, b)
  | some o => b.modifyOrder id (if o.qty ≤ delta then 0 else o.qty - delta) ts

def deleteOrder (b : SymbolBook) (id : OrderId) (ts : Timestamp) : Bool × SymbolBook :=
  match b.orders[id]? with
  | none => (false, b)
  | some o =>
    let b := { b with orders := b.orders.erase id }
    let b := b.applyLevelDelta o.side o.price (-(o.qty.toNat : ℤ)) (-1)
    (true, { b with lastTs := ts })

def replaceOrder (b : SymbolBook) (oldId newId : OrderId) (newPrice : Price) (newQty : Quantity)
    (ts : Timestamp) : Bool × SymbolBook :=
  match b.orders[oldId]? with
  | none => (false, b)
  | some o => (true, (b.deleteOrder oldId ts).2.addOrder newId o.side newPrice newQty ts)

def invariantsOk (b : SymbolBook) : Bool :=
  decide (b.topBids.length ≤ b.depth) && decide (b.topAsks.length ≤ b.depth) &&
  decide (b.topBids.IsChain (fun l r => l.price > r.price)) &&
  decide (b.topAsks.IsChain (fun l r => l.price < r.price)) &&
  b.topBids.all (fun lvl => lvl.orderCount ≠ 0 ∧ lvl.totalQty ≠ 0) &&
  b.topAsks.all (fun lvl => lvl.orderCount ≠ 0 ∧ lvl.totalQty ≠ 0)

end SymbolBook

/-- A call of one of the five mutating members of `SymbolBook`. -/
inductive BookOp
  | add (id : OrderId) (side : Side) (price : Price) (qty : Quantity) (ts : Timestamp)
  | modify (id : OrderId) (newQty : Quantity) (ts : Timestamp)
  | reduce (id : OrderId) (delta : Quantity) (ts : Timestamp)
  | delete (id : OrderId) (ts : Timestamp)
  | replace (oldId newId : OrderId) (newPrice : Price) (newQty : Quantity) (ts : Timestamp)
  deriving DecidableEq, Repr

/-- The book after one call. -/
def SymbolBook.exec (b : SymbolBook) : BookOp → SymbolBook
  | .add id side price qty ts => b.addOrder id side price qty ts
  | .modify id newQty ts => (b.modifyOrder id newQty ts).2
  | .reduce id delta ts => (b.reduceOrder id delta ts).2
  | .delete id ts => (b.deleteOrder id ts).2
  | .replace oldId newId newPrice newQty ts => (b.replaceOrder oldId newId newPrice newQty ts).2

def SymbolBook.execAll (depth : ℕ) (ops : List BookOp) : SymbolBook :=
  ops.foldl SymbolBook.exec (SymbolBook.new depth)

end MdfeedItch
