import MdfeedItch.DepthBook
import MdfeedItch.FrameDecoder
import MdfeedItch.GapDetector

/-! # The feed handler

`core/feed_handler.cpp`: transport header, sequence logic with gap recovery, and
the decoded message applied to the books. What a call tells the outside world
(the gap observer, the snapshots it installs, the frames it hands to the decoder)
is recorded as a list of effects. -/
namespace MdfeedItch
open ByteCursor

structure SnapshotRequest where
  stockLocate : StockLocate
  fromSeq : SequenceNumber
  deriving DecidableEq, Repr

structure SnapshotResponse where
  stockLocate : StockLocate
  lastAppliedSeq : SequenceNumber
  symbol : Symbol
  bids : List PriceLevel
  asks : List PriceLevel
  deriving DecidableEq, Repr

/-- One answer of the recovery channel; `none` is a return value of `false`. -/
abbrev RecoveryRequester := SnapshotRequest → Option SnapshotResponse

structure PerTypeCounters where
  add : UInt64 := 0
  execute : UInt64 := 0
  cancel : UInt64 := 0
  delete : UInt64 := 0
  replace : UInt64 := 0
  other : UInt64 := 0
  deriving DecidableEq, Repr

structure FeedHandlerStats where
  bytesIn : UInt64 := 0
  datagramsIn : UInt64 := 0
  messagesApplied : UInt64 := 0
  parseErrors : UInt64 := 0
  gapsDetected : UInt64 := 0
  snapshotsRequested : UInt64 := 0
  snapshotsApplied : UInt64 := 0
  staleMsgs : UInt64 := 0
  byType : PerTypeCounters := {}
  deriving DecidableEq, Repr

structure FeedHandler where
  book : DepthBook
  gap : GapDetector
  skipGaps : Bool
  stats : FeedHandlerStats
  deriving DecidableEq

/-- What a call passes on. -/
inductive Effect
  | gapReported (loc : StockLocate) (firstMissing lastMissing : SequenceNumber)
  | installed (snap : SnapshotResponse)
  | decoded (loc : StockLocate) (seq : SequenceNumber) (frame : List UInt8)
  deriving DecidableEq, Repr

def tallyType (c : PerTypeCounters) : AnyMessage → PerTypeCounters
  | .addOrder _ | .addOrderMPID _ => { c with add := c.add + 1 }
  | .orderExecuted _ | .orderExecutedWithPrice _ => { c with execute := c.execute + 1 }
  | .orderCancel _ => { c with cancel := c.cancel + 1 }
  | .orderDelete _ => { c with delete := c.delete + 1 }
  | .orderReplace _ => { c with replace := c.replace + 1 }
  | .systemEvent _ | .stockDirectory _ | .trade _ => { c with other := c.other + 1 }

/-- The first of the ids given to orders that stand in for snapshot levels. -/
def firstSynthetic : OrderId := 1152921504606846976

/-- The shares of the orders that stand in for a level: an even split with the
remainder on the first. -/
def PriceLevel.split (lvl : PriceLevel) : List Quantity :=
  let cnt := max 1 lvl.orderCount
  let per := lvl.totalQty / cnt
  let rem := lvl.totalQty - per * cnt
  (List.range cnt.toNat).map (fun i => per + if i = 0 then rem else 0)

/-- The body of the inner loop: an order without shares is skipped and takes no id. -/
def addSynthetic (side : Side) (price : Price) (s : SymbolBook × OrderId) (q : Quantity) : SymbolBook × OrderId :=
  if q = 0 then s else (s.1.addOrder s.2 side price q 0, s.2 + 1)

/-- The loop over the levels of one side. -/
def addLevels (side : Side) (s : SymbolBook × OrderId) (levels : List PriceLevel) : SymbolBook × OrderId :=
  levels.foldl (fun s lvl => lvl.split.foldl (addSynthetic side lvl.price) s) s

/-- The book that `apply_snapshot` assigns to the symbol. -/
def SnapshotResponse.rebuild (snap : SnapshotResponse) : SymbolBook :=
  let fresh := SymbolBook.new (if snap.bids.length > snap.asks.length then snap.bids.length else snap.asks.length)
  (addLevels Side.sell (addLevels Side.buy (fresh, firstSynthetic) snap.bids) snap.asks).1

/-- The book part of `apply_snapshot`. -/
def DepthBook.install (d : DepthBook) (snap : SnapshotResponse) : DepthBook :=
  (d.bookFor snap.symbol).setBook (symbolKey snap.symbol) snap.rebuild

namespace FeedHandler

def new (depth : ℕ) (skipGaps : Bool) : FeedHandler := ⟨DepthBook.new depth, GapDetector.new, skipGaps, {}⟩

def applySnapshot (h : FeedHandler) (snap : SnapshotResponse) : FeedHandler :=
  { h with
    book := h.book.install snap
    gap := h.gap.setExpected snap.stockLocate (snap.lastAppliedSeq + 1)
    stats := { h.stats with snapshotsApplied := h.stats.snapshotsApplied + 1 } }

/-- `sim::kTransportHeaderSize`. -/
def transportHeaderSize : ℕ := 2 + 8

def readLocate (data : List UInt8) : StockLocate := UInt16.ofNat (ofBytes (data.take 2))
def readSequence (data : List UInt8) : SequenceNumber := UInt64.ofNat (ofBytes ((data.drop 2).take 8))

/-- How the sequence logic leaves a datagram: `return false`, `return true`, or on to the decoder. -/
inductive Admission
  | refused
  | covered
  | admitted
  deriving DecidableEq, Repr

/-- Advance the stream past an accepted sequence. -/
def advance (h : FeedHandler) (loc : StockLocate) (seq : SequenceNumber) : FeedHandler :=
  if h.gap.expected loc ≤ seq then { h with gap := h.gap.setExpected loc (seq + 1) } else h

/-- The sequence logic of `on_datagram`, from the test for sequence 0 to the final bump. -/
def checkSequence (h : FeedHandler) (requester : Option RecoveryRequester) (loc : StockLocate) (seq : SequenceNumber) :
    Admission × FeedHandler × List Effect :=
  if seq = 0 then (.admitted, h, [])
  else
    match h.gap.observe loc seq with
    | (.stale, gap) =>
      (.refused, { h with gap := gap, stats := { h.stats with staleMsgs := h.stats.staleMsgs + 1 } }, [])
    | (.ok, gap) => (.admitted, { h with gap := gap }.advance loc seq, [])
    | (.gap event, gap) =>
      let h := { h with gap := gap, stats := { h.stats with gapsDetected := h.stats.gapsDetected + 1 } }
      let report := Effect.gapReported loc event.expected (event.received - 1)
      match requester with
      | some request =>
        let h := { h with stats := { h.stats with snapshotsRequested := h.stats.snapshotsRequested + 1 } }
        match request ⟨loc, event.expected⟩ with
        | none => (.refused, h, [report])
        | some snap =>
          let h := h.applySnapshot snap
          if h.gap.expected loc ≤ seq then (.admitted, h.advance loc seq, [report, .installed snap])
          else (.covered, h, [report, .installed snap])
      | none =>
        if h.skipGaps then
          (.admitted, { h with gap := h.gap.setExpected loc seq }.advance loc seq, [report])
        else (.refused, h, [report])

/-- The decode step at the end of `on_datagram`. -/
def decodeAndApply (h : FeedHandler) (frame : List UInt8) : Bool × FeedHandler :=
  let pr := decodeFrame frame
  match pr.status, pr.message with
  | .ok, some m =>
    let applied := h.book.apply m
    if applied.changed then
      (true, { h with book := applied.book, stats := { h.stats with
        messagesApplied := h.stats.messagesApplied + 1, byType := tallyType h.stats.byType m } })
    else (true, { h with book := applied.book })
  | _, _ => (false, { h with stats := { h.stats with parseErrors := h.stats.parseErrors + 1 } })

def onDatagram (h : FeedHandler) (requester : Option RecoveryRequester) (data : List UInt8) :
    Bool × FeedHandler × List Effect :=
  let h := { h with stats := { h.stats with
    bytesIn := h.stats.bytesIn + UInt64.ofNat data.length, datagramsIn := h.stats.datagramsIn + 1 } }
  if data.length < transportHeaderSize + 2 then
    (false, { h with stats := { h.stats with parseErrors := h.stats.parseErrors + 1 } }, [])
  else
    let loc := readLocate data
    let seq := readSequence data
    match h.checkSequence requester loc seq with
    | (.refused, h, effects) => (false, h, effects)
    | (.covered, h, effects) => (true, h, effects)
    | (.admitted, h, effects) =>
      let frame := data.drop transportHeaderSize
      let result := h.decodeAndApply frame
      (result.1, result.2, effects ++ [.decoded loc seq frame])

end FeedHandler

end MdfeedItch
