import MdfeedItch.FrameEncoder
import MdfeedItch.FeedHandler

/-! # The synthetic feed

`MessageGenerator` of `sim/publisher.cpp`. A call of `next` takes the raw numbers of
its random engine as an argument, `uniform` maps them into the ranges of the
distributions. The live orders are five vectors indexed alike; an index outside of
one of them gives no result. -/
namespace MdfeedItch
open Std ByteLayout

/-- `uniform_int_distribution(lo, hi)` on a raw number. -/
def uniform (lo hi raw : ℕ) : ℕ := lo + raw % (hi + 1 - lo)

theorem uniform_bounds {lo hi : ℕ} (h : lo ≤ hi) (raw : ℕ) :
    lo ≤ uniform lo hi raw ∧ uniform lo hi raw ≤ hi := by
  have hlt := Nat.mod_lt raw (show 0 < hi + 1 - lo by omega)
  unfold uniform
  omega

/-- Every value of the range can be drawn. -/
theorem uniform_onto {lo hi v : ℕ} (hlo : lo ≤ v) (hhi : v ≤ hi) : ∃ raw, uniform lo hi raw = v := by
  refine ⟨v - lo, ?_⟩
  rw [uniform, Nat.mod_eq_of_lt (by omega)]
  omega

/-- The raw numbers of one call, by what they decide. -/
structure Draws where
  symbol : ℕ
  action : ℕ
  order : ℕ
  side : ℕ
  shares : ℕ
  price : ℕ
  deriving DecidableEq, Repr

structure TransportHeader where
  stockLocate : StockLocate
  sequence : SequenceNumber
  deriving DecidableEq, Repr

structure MessageGenerator where
  symbols : List Symbol
  liveOrders : List OrderId
  livePrices : List Price
  liveQtys : List Quantity
  liveSides : List Side
  liveLocs : List StockLocate
  nextOrderId : OrderId
  nextSeq : ExtTreeMap StockLocate SequenceNumber
  baseLocate : StockLocate
  deriving DecidableEq

/-- A datagram and the header the caller gets with it. -/
structure Emission where
  header : TransportHeader
  out : List UInt8
  deriving DecidableEq, Repr

namespace MessageGenerator

/-- AAPL, MSFT, GOOG, AMZN, NVDA, META, TSLA, AMD, INTC, ORCL. -/
def names : List (List UInt8) :=
  [[65, 65, 80, 76], [77, 83, 70, 84], [71, 79, 79, 71], [65, 77, 90, 78], [78, 86, 68, 65], [77, 69, 84, 65],
    [84, 83, 76, 65], [65, 77, 68], [73, 78, 84, 67], [79, 82, 67, 76]]

def new (numSymbols : ℕ) : MessageGenerator :=
  ⟨(names.take numSymbols).map makeSymbol, [], [], [], [], [], 1, ∅, 100⟩

def eraseLive (g : MessageGenerator) (oi : ℕ) : MessageGenerator :=
  { g with
    liveOrders := g.liveOrders.eraseIdx oi
    livePrices := g.livePrices.eraseIdx oi
    liveQtys := g.liveQtys.eraseIdx oi
    liveSides := g.liveSides.eraseIdx oi
    liveLocs := g.liveLocs.eraseIdx oi }

def takeId (g : MessageGenerator) : OrderId × MessageGenerator :=
  (g.nextOrderId, { g with nextOrderId := g.nextOrderId + 1 })

def add (g : MessageGenerator) (c : Draws) (loc : StockLocate) (sym : Symbol) :
    AnyMessage × MessageGenerator :=
  let (id, g) := g.takeId
  let side := if uniform 0 1 c.side = 0 then Side.buy else Side.sell
  let shares := UInt32.ofNat (uniform 100 1000 c.shares)
  let price := UInt32.ofNat (uniform 100000 200000 c.price)
  (.addOrder ⟨loc, 0, id, id, side, shares, sym, price⟩, { g with
    liveOrders := g.liveOrders ++ [id]
    livePrices := g.livePrices ++ [price]
    liveQtys := g.liveQtys ++ [shares]
    liveSides := g.liveSides ++ [side]
    liveLocs := g.liveLocs ++ [loc] })

def cancel (g : MessageGenerator) (c : Draws) (oi : ℕ) (oid : OrderId) :
    Option (AnyMessage × MessageGenerator) := do
  let liveLoc ← g.liveLocs[oi]?
  let live ← g.liveQtys[oi]?
  let (ts, g) := g.takeId
  let canceled := UInt32.ofNat (uniform 1 (max 1 live).toNat c.shares)
  return (.orderCancel ⟨liveLoc, 0, ts, oid, canceled⟩,
    if live ≤ canceled then { g with liveQtys := g.liveQtys.set oi 0 }.eraseLive oi
    else { g with liveQtys := g.liveQtys.set oi (live - canceled) })

def execute (g : MessageGenerator) (c : Draws) (oi : ℕ) (oid : OrderId) :
    Option (AnyMessage × MessageGenerator) := do
  let liveLoc ← g.liveLocs[oi]?
  let live ← g.liveQtys[oi]?
  let (ts, g) := g.takeId
  let executed := UInt32.ofNat (uniform 1 (max 1 live).toNat c.shares)
  return (.orderExecuted ⟨liveLoc, 0, ts, oid, executed, g.nextOrderId⟩,
    if live ≤ executed then g.eraseLive oi
    else { g with liveQtys := g.liveQtys.set oi (live - executed) })

def delete (g : MessageGenerator) (oi : ℕ) (oid : OrderId) : Option (AnyMessage × MessageGenerator) := do
  let liveLoc ← g.liveLocs[oi]?
  let (ts, g) := g.takeId
  return (.orderDelete ⟨liveLoc, 0, ts, oid⟩, g.eraseLive oi)

/-- The replaced order keeps its place, its side and its locate. -/
def replace (g : MessageGenerator) (c : Draws) (oi : ℕ) (oid : OrderId) :
    Option (AnyMessage × MessageGenerator) := do
  let liveLoc ← g.liveLocs[oi]?
  let (ts, g) := g.takeId
  let (newId, g) := g.takeId
  let shares := UInt32.ofNat (uniform 100 1000 c.shares)
  let price := UInt32.ofNat (uniform 100000 200000 c.price)
  return (.orderReplace ⟨liveLoc, 0, ts, oid, newId, shares, price⟩, { g with
    liveOrders := g.liveOrders.set oi newId
    livePrices := g.livePrices.set oi price
    liveQtys := g.liveQtys.set oi shares })

def chooseMessage (g : MessageGenerator) (c : Draws) (loc : StockLocate) (sym : Symbol) :
    Option (AnyMessage × MessageGenerator) :=
  let a := uniform 0 99 c.action
  if g.liveOrders.isEmpty ∨ a < 50 then some (g.add c loc sym)
  else do
    let oi := uniform 0 (g.liveOrders.length - 1) c.order
    let oid ← g.liveOrders[oi]?
    if a < 70 then g.cancel c oi oid
    else if a < 85 then g.execute c oi oid
    else if a < 95 then g.delete oi oid
    else g.replace c oi oid

/-- The next sequence of a stock locate, starting at 1. -/
def stamp (g : MessageGenerator) (loc : StockLocate) : TransportHeader × MessageGenerator :=
  match g.nextSeq[loc]? with
  | none => (⟨loc, 1⟩, { g with nextSeq := g.nextSeq.insert loc 2 })
  | some seq => (⟨loc, seq⟩, { g with nextSeq := g.nextSeq.insert loc (seq + 1) })

/-- The payload: transport header and framed message, or nothing if the encoder fails. -/
def payload (header : TransportHeader) (msg : AnyMessage) : List UInt8 :=
  let encoded := encodeFrame msg (List.replicate (framedSize msg) 0)
  if encoded.1 = 0 then []
  else u16Bytes header.stockLocate ++ (u64Bytes header.sequence ++ encoded.2.take encoded.1)

/-- The index of the symbol that a call picks. -/
def pickSymbol (g : MessageGenerator) (c : Draws) : ℕ :=
  uniform 0 (if g.symbols.isEmpty then 0 else g.symbols.length - 1) c.symbol

def locateAt (g : MessageGenerator) (si : ℕ) : StockLocate := UInt16.ofNat (g.baseLocate.toNat + si)

/-- The datagrams that announce the symbols, all of them with sequence 0. -/
def directoryMessages (g : MessageGenerator) : List (List UInt8) :=
  (g.symbols.zipIdx.map (fun p =>
    let loc := g.locateAt p.2
    payload ⟨loc, 0⟩ (.stockDirectory ⟨loc, 0, 0, p.1, 0x51, 0x4E, 100⟩))).filter (fun out => out ≠ [])

def next (g : MessageGenerator) (c : Draws) : Option (Emission × MessageGenerator) := do
  let si := g.pickSymbol c
  let sym ← g.symbols[si]?
  let loc := g.locateAt si
  let (msg, g) ← g.chooseMessage c loc sym
  let (header, g) := g.stamp loc
  return (⟨header, payload header msg⟩, g)

/-- A run of calls: what they emitted and the generator after them. -/
def run (g : MessageGenerator) : List Draws → Option (List Emission × MessageGenerator)
  | [] => some ([], g)
  | c :: cs => do
    let (e, g) ← g.next c
    let (es, g) ← g.run cs
    return (e :: es, g)

end MessageGenerator

end MdfeedItch
