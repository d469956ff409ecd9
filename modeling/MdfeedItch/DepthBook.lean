import MdfeedItch.SymbolBook

/-! # The books of all symbols

`DepthBook` of `core/depth_book.cpp`: one `SymbolBook` a symbol key and an index
that routes the messages naming an order to the book of its symbol. -/
namespace MdfeedItch
open Std

structure DepthSnapshot where
  symbol : Symbol
  bids : List PriceLevel
  asks : List PriceLevel
  ts : Timestamp
  deriving DecidableEq, Repr

structure DepthBook where
  depth : ℕ
  books : ExtTreeMap SymbolKey SymbolBook
  symbolIndex : ExtTreeMap SymbolKey Symbol
  orderToSymbol : ExtTreeMap OrderId SymbolKey
  deriving DecidableEq

/-- What `apply` returns, the book it leaves and the argument of its callback, if called. -/
structure ApplyResult where
  changed : Bool
  book : DepthBook
  event : Option DepthSnapshot
  deriving DecidableEq

namespace DepthBook

def new (depth : ℕ) : DepthBook := ⟨depth, ∅, ∅, ∅⟩

/-- The book stored under a key; an untracked key has the book that `book_for` would store. -/
def bookAt (d : DepthBook) (key : SymbolKey) : SymbolBook := (d.books[key]?).getD (SymbolBook.new d.depth)

/-- Assignment through the reference to a stored book. -/
def setBook (d : DepthBook) (key : SymbolKey) (b : SymbolBook) : DepthBook :=
  { d with books := d.books.insert key b }

/-- `book_for`; the returned reference is `bookAt` of the symbol's key. -/
def bookFor (d : DepthBook) (sym : Symbol) : DepthBook :=
  let key := symbolKey sym
  match d.books[key]? with
  | some _ => d
  | none => { d.setBook key (SymbolBook.new d.depth) with symbolIndex := d.symbolIndex.insertIfNew key sym }

def find (d : DepthBook) (sym : Symbol) : Option SymbolBook := d.books[symbolKey sym]?

def symbolForOrder (d : DepthBook) (id : OrderId) : Option Symbol :=
  match d.orderToSymbol[id]? with
  | none => none
  | some key => d.symbolIndex[key]?

def snapshot (d : DepthBook) (sym : Symbol) : DepthSnapshot :=
  match d.books[symbolKey sym]? with
  | none => ⟨sym, [], [], 0⟩
  | some b => ⟨sym, b.topBids, b.topAsks, b.lastTs⟩

def emitSnapshot (d : DepthBook) (sym : Symbol) (ts : Timestamp) : Option DepthSnapshot :=
  (d.books[symbolKey sym]?).map (fun b => ⟨sym, b.topBids, b.topAsks, ts⟩)

/-- The lookups that start every arm naming an order. The last one is not checked
in the source; `WellKeyed.route` shows that it never fails. -/
def route (d : DepthBook) (id : OrderId) : Option (SymbolKey × Symbol × SymbolBook) :=
  match d.orderToSymbol[id]? with
  | none => none
  | some key =>
    match d.symbolIndex[key]? with
    | none => none
    | some sym => (d.books[key]?).map (fun b => (key, sym, b))

/-- The arm of `AddOrderMsg` and, for its `base`, of `AddOrderMPIDMsg`. -/
def applyAdd (d : DepthBook) (m : AddOrderMsg) : ApplyResult :=
  let key := symbolKey m.symbol
  let d := d.bookFor m.symbol
  let d := d.setBook key ((d.bookAt key).addOrder m.orderId m.side m.price m.shares m.ts)
  let d := { d with orderToSymbol := d.orderToSymbol.insert m.orderId key }
  ⟨true, d, d.emitSnapshot m.symbol m.ts⟩

/-- The arm of the three messages that take shares off an order. -/
def applyReduce (d : DepthBook) (id : OrderId) (shares : Quantity) (ts : Timestamp) : ApplyResult :=
  match d.route id with
  | none => ⟨false, d, none⟩
  | some (key, sym, b) =>
    let reduced := b.reduceOrder id shares ts
    if reduced.1 then
      let d := d.setBook key reduced.2
      let d := if reduced.2.hasOrder id then d else { d with orderToSymbol := d.orderToSymbol.erase id }
      ⟨true, d, d.emitSnapshot sym ts⟩
    else ⟨false, d, none⟩

def applyDelete (d : DepthBook) (id : OrderId) (ts : Timestamp) : ApplyResult :=
  match d.route id with
  | none => ⟨false, d, none⟩
  | some (key, sym, b) =>
    let deleted := b.deleteOrder id ts
    if deleted.1 then
      let d := { d.setBook key deleted.2 with orderToSymbol := d.orderToSymbol.erase id }
      ⟨true, d, d.emitSnapshot sym ts⟩
    else ⟨false, d, none⟩

def applyReplace (d : DepthBook) (m : OrderReplaceMsg) : ApplyResult :=
  match d.route m.originalOrderId with
  | none => ⟨false, d, none⟩
  | some (key, sym, b) =>
    match b.orders[m.originalOrderId]? with
    | none => ⟨false, d, none⟩
    | some prev =>
      let b := (b.deleteOrder m.originalOrderId m.ts).2
      let index := d.orderToSymbol.erase m.originalOrderId
      let b := b.addOrder m.newOrderId prev.side m.price m.shares m.ts
      let d := { d.setBook key b with orderToSymbol := index.insert m.newOrderId key }
      ⟨true, d, d.emitSnapshot sym m.ts⟩

def apply (d : DepthBook) : AnyMessage → ApplyResult
  | .addOrder m => d.applyAdd m
  | .addOrderMPID m => d.applyAdd m.base
  | .orderExecuted m => d.applyReduce m.orderId m.executedShares m.ts
  | .orderExecutedWithPrice m => d.applyReduce m.base.orderId m.base.executedShares m.base.ts
  | .orderCancel m => d.applyReduce m.orderId m.canceledShares m.ts
  | .orderDelete m => d.applyDelete m.orderId m.ts
  | .orderReplace m => d.applyReplace m
  | .trade _ => ⟨false, d, none⟩
  | .systemEvent _ => ⟨false, d, none⟩
  | .stockDirectory _ => ⟨false, d, none⟩

/-- An empty book of the given depth after a sequence of messages. -/
def applyAll (depth : ℕ) (msgs : List AnyMessage) : DepthBook :=
  msgs.foldl (fun d m => (d.apply m).book) (DepthBook.new depth)

end DepthBook

end MdfeedItch
