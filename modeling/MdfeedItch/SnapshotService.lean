import MdfeedItch.BookSnapshotWire
import MdfeedItch.FeedHandler

/-! # Publisher and subscribers of book snapshots

`sim/book_snapshot_publisher.cpp` and `sim/book_snapshot_subscriber.cpp` over TCP
connections that lose and reorder nothing. A step of the system is a change of the
book under its lock, a capture that is sent to every accepted connection, a
connect, an accept, or a call of `receive_one` that returns. -/
namespace MdfeedItch
open Std ByteCursor

/-- `tcp_recv_frame` on the bytes that a connection still has to deliver: no value
while it waits for more of them, otherwise the frame, if the length is accepted,
and the bytes behind it. -/
def tcpRecvFrame (stream : List UInt8) : Option (Option (List UInt8) × List UInt8) :=
  if stream.length < 4 then none
  else
    let len := ofBytes (stream.take 4)
    if len = 0 ∨ 16 * 1024 * 1024 < len then some (none, stream.drop 4)
    else if stream.length < 4 + len then none
    else some (some (stream.take (4 + len)), stream.drop (4 + len))

structure LocalBook where
  bids : List PriceLevel
  asks : List PriceLevel
  deriving DecidableEq, Repr

structure BookSnapshotSubscriber where
  books : ExtTreeMap SymbolKey LocalBook
  index : ExtTreeMap SymbolKey Symbol
  lastSeq : UInt64
  framesApplied : UInt64

namespace BookSnapshotSubscriber

def new : BookSnapshotSubscriber := ⟨∅, ∅, 0, 0⟩

/-- The body of the loop over the records of a frame. -/
def applyRecord (s : BookSnapshotSubscriber) (rec : BookSnapshotSymbol) : BookSnapshotSubscriber :=
  let key := symbolKey rec.symbol
  { s with
    books := s.books.insert key ⟨rec.bids, rec.asks⟩
    index := s.index.insert key rec.symbol }

/-- What `receive_one` does with a decoded frame. -/
def applySnapshot (s : BookSnapshotSubscriber) (snap : BookSnapshot) : BookSnapshotSubscriber :=
  { snap.symbols.foldl applyRecord s with
    lastSeq := snap.sequence
    framesApplied := s.framesApplied + 1 }

/-- `receive_one`: its result, the subscriber after it and the bytes that are left.
The decoder reads inside of its buffer, so it always has a value. -/
def receiveOne (s : BookSnapshotSubscriber) (stream : List UInt8) :
    Option (Bool × BookSnapshotSubscriber × List UInt8) :=
  match tcpRecvFrame stream with
  | none => none
  | some (none, rest) => some (false, s, rest)
  | some (some frame, rest) =>
    match decodeBookSnapshot frame with
    | some (snap, true) => some (true, s.applySnapshot snap, rest)
    | _ => some (false, s, rest)

def bids (s : BookSnapshotSubscriber) (sym : Symbol) : Option (List PriceLevel) :=
    (s.books[symbolKey sym]?).map LocalBook.bids
def asks (s : BookSnapshotSubscriber) (sym : Symbol) : Option (List PriceLevel) :=
    (s.books[symbolKey sym]?).map LocalBook.asks
def symbols (s : BookSnapshotSubscriber) : List Symbol := s.index.toList.map Prod.snd

end BookSnapshotSubscriber

/-- A subscriber, whether the publisher has accepted it, and the bytes on their way to it. -/
structure Connection where
  accepted : Bool
  stream : List UInt8
  subscriber : BookSnapshotSubscriber

namespace Connection

def new : Connection := ⟨false, [], BookSnapshotSubscriber.new⟩

/-- `tcp_send_all` to an accepted connection. -/
def send (conn : Connection) (frame : List UInt8) : Connection :=
  if conn.accepted then { conn with stream := conn.stream ++ frame } else conn

end Connection

/-- The publisher with the book that it reads, and all connections. -/
structure SnapshotService where
  book : DepthBook
  seq : UInt64
  connections : List Connection

/-- What `capture_frame` saw under the lock: the book, its symbols in the order of
the hash map, and the sequence. -/
structure Capture where
  book : DepthBook
  order : List Symbol
  sequence : UInt64

namespace Capture

def snapshot (c : Capture) : BookSnapshot := captureBookSnapshot c.book c.order c.sequence
def frame (c : Capture) : List UInt8 := encodeBookSnapshot c.snapshot

end Capture

namespace SnapshotService

def new (depth : ℕ) : SnapshotService := ⟨DepthBook.new depth, 0, []⟩

/-- `capture_frame` with the symbols in a given order. -/
def capture (s : SnapshotService) (order : List Symbol) : Capture × SnapshotService :=
  (⟨s.book, order, s.seq + 1⟩, { s with seq := s.seq + 1 })

/-- A pass of the loop in `run` that publishes. -/
def publish (s : SnapshotService) (order : List Symbol) : SnapshotService :=
  let (c, s) := s.capture order
  { s with connections := s.connections.map (fun conn => conn.send c.frame) }

/-- One step, with the capture that it takes. -/
inductive Step (s : SnapshotService) : List Capture → SnapshotService → Prop
  | apply (m : AnyMessage) : Step s [] { s with book := (s.book.apply m).book }
  | applySnapshot (snap : SnapshotResponse) : Step s [] { s with book := s.book.install snap }
  | publish (order : List Symbol) (hperm : order.Perm s.book.allSymbols) :
      Step s [(s.capture order).1] (s.publish order)
  | connect : Step s [] { s with connections := s.connections ++ [Connection.new] }
  | accept {i : ℕ} {conn : Connection} (hconn : s.connections[i]? = some conn) :
      Step s [] { s with connections := s.connections.set i { conn with accepted := true } }
  | receive {i : ℕ} {conn : Connection} {ok : Bool} {sub : BookSnapshotSubscriber} {rest : List UInt8}
      (hconn : s.connections[i]? = some conn)
      (hreceive : conn.subscriber.receiveOne conn.stream = some (ok, sub, rest)) :
      Step s [] { s with connections := s.connections.set i { conn with stream := rest, subscriber := sub } }

/-- The states that a run reaches, with its captures, oldest first. -/
inductive Runs (depth : ℕ) : List Capture → SnapshotService → Prop
  | start : Runs depth [] (new depth)
  | step {cs new : List Capture} {s s' : SnapshotService} (hrun : Runs depth cs s)
    (hstep : Step s new s') : Runs depth (cs ++ new) s'

end SnapshotService

end MdfeedItch
