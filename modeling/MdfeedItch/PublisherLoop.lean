import MdfeedItch.Broadcasts
import MdfeedItch.SocketFrames
import MdfeedItch.SubscriberConsistency

/-! # The loop of the snapshot publisher

`sim/book_snapshot_publisher.cpp`: each pass of `run` may accept a subscriber and
publish a capture of the book, if the policy asks for one. Descriptors of open
connections are told apart, so the model numbers the connections as they are
accepted. A pass in which a call of `send` never returns, because it blocks for ever or
because SIGPIPE ends the program, has no value. -/
namespace MdfeedItch
open PartialTransfers

/-- The interval is in milliseconds. -/
structure BookSnapshotPolicy where
  interval : Int64 := 0
  everyMessages : UInt64 := 0
  deriving DecidableEq, Repr

/-- Time points are in nanoseconds. -/
structure BookSnapshotPublisher where
  policy : BookSnapshotPolicy
  published : UInt64
  seq : UInt64
  lastMsgMark : UInt64
  lastPublish : Int64
  subscribers : List ℕ

/-- What a pass does outside of the publisher: a subscriber accepted, a copy of the book
taken, bytes sent, a subscriber dropped. -/
inductive PublisherEffect
  | accepted (fd : ℕ)
  | captured (c : Capture)
  | wrote (fd : ℕ) (bytes : List UInt8)
  | closed (fd : ℕ)

/-- The loop over the subscribers: those that stay, and what is sent. -/
def sendToAll (frame : List UInt8) (sends : ℕ → List Call) : List ℕ → Option (List ℕ × List PublisherEffect)
  | [] => some ([], [])
  | fd :: fds => do
    let (ok, bytes, _) ← Socket.tcpSendAll frame [] (sends fd)
    let (live, effects) ← sendToAll frame sends fds
    if ok then return (fd :: live, .wrote fd bytes :: effects)
    else return (live, .wrote fd bytes :: .closed fd :: effects)

namespace BookSnapshotPublisher

/-- The members that `start` sets, at the time it reads. -/
def start (policy : BookSnapshotPolicy) (now : Int64) : BookSnapshotPublisher := ⟨policy, 0, 0, 0, now, []⟩

/-- Both sides of the comparison of times are 64-bit counts of nanoseconds, and wrap around. -/
def shouldPublish (p : BookSnapshotPublisher) (now : Int64) (msgs : UInt64) : Bool :=
  if p.policy.everyMessages ≠ 0 ∧ p.policy.everyMessages ≤ msgs - p.lastMsgMark then true
  else if p.policy.interval ≠ 0 ∧ p.policy.interval * 1000000 ≤ now - p.lastPublish then true
  else false

/-- `capture_frame`; the frame is that of the capture. -/
def captureFrame (p : BookSnapshotPublisher) (book : DepthBook) (order : List Symbol) : Capture × BookSnapshotPublisher :=
  (⟨book, order, p.seq + 1⟩, { p with seq := p.seq + 1 })

/-- One pass of the loop in `run`: what `accept_one` returns, the clock and the counter
as they are read, the book under its lock, and what the calls of `send` do. -/
def pass (p : BookSnapshotPublisher) (cfd : Option ℕ) (now : Int64) (msgs : UInt64) (book : DepthBook) (order : List Symbol)
    (sends : ℕ → List Call) : Option (BookSnapshotPublisher × List PublisherEffect) :=
  let p := { p with subscribers := p.subscribers ++ cfd.toList }
  let effects := cfd.toList.map PublisherEffect.accepted
  if !p.shouldPublish now msgs then some (p, effects)
  else
    let p := { p with lastPublish := now, lastMsgMark := msgs }
    let (c, p) := p.captureFrame book order
    (sendToAll c.frame sends p.subscribers).map (fun (live, sent) =>
      ({ p with subscribers := live, published := p.published + 1 }, effects ++ .captured c :: sent))

/-- `stop`, after the last pass. -/
def stop (p : BookSnapshotPublisher) : BookSnapshotPublisher × List PublisherEffect :=
  ({ p with subscribers := [] }, p.subscribers.map PublisherEffect.closed)

end BookSnapshotPublisher

/-- A change of the book under its lock. -/
inductive BookChange
  | applied (m : AnyMessage)
  | installed (snap : SnapshotResponse)

def DepthBook.change (d : DepthBook) : BookChange → DepthBook
  | .applied m => (d.apply m).book
  | .installed snap => d.install snap

/-- What a pass meets: the changes of the book and the calls of `note_message` since the
one before, a subscriber or none, the time, the order in which the hash map lists
the symbols, and the calls of `send` for every descriptor. -/
structure PublisherPass where
  changes : List BookChange
  notes : ℕ
  connects : Bool
  now : Int64
  order : List Symbol
  sends : ℕ → List Call

structure PublisherSystem where
  book : DepthBook
  msgCounter : UInt64
  connections : ℕ
  publisher : BookSnapshotPublisher

namespace PublisherSystem

def start (depth : ℕ) (policy : BookSnapshotPolicy) (now : Int64) : PublisherSystem :=
  ⟨DepthBook.new depth, 0, 0, .start policy now⟩

/-- The book when the pass reads it. -/
def bookFor (s : PublisherSystem) (i : PublisherPass) : DepthBook := i.changes.foldl DepthBook.change s.book

def pass (s : PublisherSystem) (i : PublisherPass) : Option (PublisherSystem × List PublisherEffect) :=
  let msgs := s.msgCounter + UInt64.ofNat i.notes
  let cfd := if i.connects then some s.connections else none
  (s.publisher.pass cfd i.now msgs (s.bookFor i) i.order i.sends).map (fun (p, effects) =>
    (⟨s.bookFor i, msgs, s.connections + if i.connects then 1 else 0, p⟩, effects))

/-- The states after some passes, with all effects, oldest first. -/
inductive Runs (depth : ℕ) (policy : BookSnapshotPolicy) (now : Int64) :
    List PublisherPass → PublisherSystem → List PublisherEffect → Prop
  | start : Runs depth policy now [] (start depth policy now) []
  | pass {is : List PublisherPass} {s s' : PublisherSystem} {t effects : List PublisherEffect}
      (hrun : Runs depth policy now is s t) {i : PublisherPass} (horder : i.order.Perm (s.bookFor i).allSymbols)
      (hpass : s.pass i = some (s', effects)) : Runs depth policy now (is ++ [i]) s' (t ++ effects)

end PublisherSystem

namespace PublisherEffect
open Broadcasts

def event : PublisherEffect → Event ℕ UInt8
  | accepted fd => .joined fd
  | captured c => .published c.frame
  | wrote fd bytes => .wrote fd bytes
  | closed fd => .left fd

def capture : PublisherEffect → Option Capture
  | captured c => some c
  | _ => none

end PublisherEffect

/-- The captures that were taken, oldest first. -/
def capturesOf (t : List PublisherEffect) : List Capture := t.filterMap PublisherEffect.capture

/-- The frame goes to every subscriber, whole or up to a call that fails. -/
theorem sendToAll_round {frame : List UInt8} {sends : ℕ → List Call} {fds live : List ℕ} {fx : List PublisherEffect}
    (h : sendToAll frame sends fds = some (live, fx)) :
    Broadcasts.Round frame fds (fx.map PublisherEffect.event) live ∧ capturesOf fx = [] := by
  induction fds generalizing live fx with
  | nil =>
    cases h
    exact ⟨.done, rfl⟩
  | cons fd fds ih =>
    rw [sendToAll] at h
    obtain ⟨⟨ok, bytes, left⟩, hsend, h⟩ := Option.bind_eq_some_iff.mp h
    obtain ⟨⟨live', fx'⟩, hrest, h⟩ := Option.bind_eq_some_iff.mp h
    obtain ⟨hround, hnone⟩ := ih hrest
    obtain ⟨n, hbytes, hall, hpart⟩ := writeAll_prefix hsend
    rw [List.nil_append, List.drop_zero] at hbytes hall
    cases ok with
    | true =>
      cases h
      rw [hall rfl]
      exact ⟨.whole fd hround, hnone⟩
    | false =>
      cases h
      rw [hbytes]
      exact ⟨.cut fd (by simpa using hpart rfl) hround, hnone⟩

/-- What a pass does to the publisher: it accepts, and publishes if it should. -/
inductive Passes (p : BookSnapshotPublisher) (cfd : Option ℕ) (now : Int64) (msgs : UInt64) (book : DepthBook)
    (order : List Symbol) : BookSnapshotPublisher → List PublisherEffect → Prop
  | quiet (hquiet : p.shouldPublish now msgs = false) :
      Passes p cfd now msgs book order { p with subscribers := p.subscribers ++ cfd.toList }
        (cfd.toList.map PublisherEffect.accepted)
  | published (hdue : p.shouldPublish now msgs = true) {live : List ℕ} {fx : List PublisherEffect}
      (hround : Broadcasts.Round (Capture.mk book order (p.seq + 1)).frame (p.subscribers ++ cfd.toList)
        (fx.map PublisherEffect.event) live) (hnone : capturesOf fx = []) :
      Passes p cfd now msgs book order ⟨p.policy, p.published + 1, p.seq + 1, msgs, now, live⟩
        (cfd.toList.map PublisherEffect.accepted ++ .captured ⟨book, order, p.seq + 1⟩ :: fx)

section
variable {p p' : BookSnapshotPublisher} {cfd : Option ℕ} {now : Int64} {msgs : UInt64} {book : DepthBook}
  {order : List Symbol} {sends : ℕ → List Call}

theorem BookSnapshotPublisher.pass_quiet (hquiet : p.shouldPublish now msgs = false) :
    p.pass cfd now msgs book order sends =
      some ({ p with subscribers := p.subscribers ++ cfd.toList }, cfd.toList.map PublisherEffect.accepted) := by
  have hnot : (!p.shouldPublish now msgs) = true := by
    rw [hquiet]
    rfl
  exact if_pos hnot

theorem BookSnapshotPublisher.pass_due (hdue : p.shouldPublish now msgs = true) {c : Capture}
    (hc : c = ⟨book, order, p.seq + 1⟩) : p.pass cfd now msgs book order sends =
      (sendToAll c.frame sends (p.subscribers ++ cfd.toList)).map (fun r =>
        (⟨p.policy, p.published + 1, p.seq + 1, msgs, now, r.1⟩,
          cfd.toList.map PublisherEffect.accepted ++ .captured c :: r.2)) := by
  subst hc
  have hnot : ¬ (!p.shouldPublish now msgs) = true := by
    rw [hdue]
    exact Bool.false_ne_true
  exact if_neg hnot

/-- A pass of the system that publishes. -/
theorem PublisherSystem.pass_due {s : PublisherSystem} {i : PublisherPass} {c : Capture} {live : List ℕ}
    {sent : List PublisherEffect} (hc : c = ⟨s.bookFor i, i.order, s.publisher.seq + 1⟩)
    (hdue : s.publisher.shouldPublish i.now (s.msgCounter + UInt64.ofNat i.notes) = true)
    (hsent : sendToAll c.frame i.sends
      (s.publisher.subscribers ++ (if i.connects then some s.connections else none).toList) = some (live, sent)) :
    s.pass i = some (⟨c.book, s.msgCounter + UInt64.ofNat i.notes, s.connections + if i.connects then 1 else 0,
        ⟨s.publisher.policy, s.publisher.published + 1, c.sequence, s.msgCounter + UInt64.ofNat i.notes, i.now, live⟩⟩,
      (if i.connects then some s.connections else none).toList.map PublisherEffect.accepted ++ .captured c :: sent) := by
  rw [PublisherSystem.pass]
  dsimp only
  rw [BookSnapshotPublisher.pass_due hdue hc, hsent, hc]
  rfl

theorem BookSnapshotPublisher.pass_passes {fx : List PublisherEffect}
    (h : p.pass cfd now msgs book order sends = some (p', fx)) : Passes p cfd now msgs book order p' fx := by
  cases hdue : p.shouldPublish now msgs with
  | false =>
    rw [pass_quiet hdue] at h
    cases h
    exact .quiet hdue
  | true =>
    rw [pass_due hdue rfl] at h
    obtain ⟨⟨live, sent⟩, hsent, heq⟩ := Option.map_eq_some_iff.mp h
    cases heq
    obtain ⟨hround, hnone⟩ := sendToAll_round hsent
    exact .published hdue hround hnone

end

end MdfeedItch
