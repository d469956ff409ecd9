import MdfeedItch.PublisherRuns
import MdfeedItch.ReservedRecords
import Mathlib.Data.UInt

/-! # Subscribers behind the publisher loop

A subscriber calls `receive_one` on the bytes of its connection. Whatever the bytes
are and whatever the calls of `recv` do, its state comes from the snapshots whose
encodings lie in them; and on a connection of the publisher it follows the captures,
frame by frame, until the connection breaks. -/
namespace MdfeedItch
open Broadcasts ByteCursor PartialTransfers PublisherSystem

namespace BookSnapshotSubscriber

def receives (s : BookSnapshotSubscriber) : ℕ → List UInt8 → Option (List Bool × BookSnapshotSubscriber × List UInt8)
  | 0, stream => some ([], s, stream)
  | n + 1, stream => do
    let (ok, s, stream) ← s.receiveOne stream
    let (oks, s, stream) ← s.receives n stream
    return (ok :: oks, s, stream)

theorem receives_succ {s s₁ s₂ : BookSnapshotSubscriber} {ok : Bool} {oks : List Bool} {n : ℕ}
    {stream stream₁ stream₂ : List UInt8} (hone : s.receiveOne stream = some (ok, s₁, stream₁))
    (hmore : s₁.receives n stream₁ = some (oks, s₂, stream₂)) :
    s.receives (n + 1) stream = some (ok :: oks, s₂, stream₂) := by
  simp only [receives, hone, hmore, Option.bind_eq_bind, Option.bind_some]
  rfl

end BookSnapshotSubscriber

namespace Socket

/-- `receive_one` over a socket. `reserve` throws where the count of a frame is more than `capacity`:
then the frame is gone and the subscriber is what it was. -/
def receiveOne (capacity : ℕ) (s : BookSnapshotSubscriber) (stream : List UInt8) (calls : List Call) :
    Option (Except ReserveCall Bool × BookSnapshotSubscriber × List UInt8 × List Call) :=
  match tcpRecvFrame stream calls with
  | none => none
  | some (none, rest, calls) => some (.ok false, s, rest, calls)
  | some (some frame, rest, calls) =>
    match decodeReserving frame with
    | none => none
    | some (call, snap, ok) =>
      match call.filter (fun call => capacity < call.symCount.toNat) with
      | some call => some (.error call, s, rest, calls)
      | none => if ok then some (.ok true, s.applySnapshot snap, rest, calls) else some (.ok false, s, rest, calls)

def receives (capacity : ℕ) (s : BookSnapshotSubscriber) : ℕ → List UInt8 → List Call →
    Option (List (Except ReserveCall Bool) × BookSnapshotSubscriber × List UInt8 × List Call)
  | 0, stream, calls => some ([], s, stream, calls)
  | n + 1, stream, calls => do
    let (result, s, stream, calls) ← receiveOne capacity s stream calls
    let (results, s, stream, calls) ← receives capacity s n stream calls
    return (result :: results, s, stream, calls)

inductive Outcome
  | refused
  | threw (call : ReserveCall)
  | applied (snap : BookSnapshot)

namespace Outcome

def result : Outcome → Except ReserveCall Bool
  | refused => .ok false
  | threw call => .error call
  | applied _ => .ok true

def snapshot : Outcome → Option BookSnapshot
  | applied snap => some snap
  | _ => none

end Outcome

section Receive
variable {capacity : ℕ} {s s' : BookSnapshotSubscriber} {stream rest : List UInt8} {calls left : List Call}

end Receive

section Example

end Example

end Socket

theorem PublisherSystem.Runs.serves {depth : ℕ} {policy : BookSnapshotPolicy} {now : Int64} {is : List PublisherPass}
    {s : PublisherSystem} {t : List PublisherEffect} (hrun : Runs depth policy now is s t) :
    SnapshotService.Runs depth (capturesOf t) ⟨s.book, s.publisher.seq, []⟩ := by
  have hchanges : ∀ {cs : List Capture} {book : DepthBook} {seq : UInt64} (changes : List BookChange),
      SnapshotService.Runs depth cs ⟨book, seq, []⟩ →
        SnapshotService.Runs depth cs ⟨changes.foldl DepthBook.change book, seq, []⟩ := by
    intro cs book seq changes hold
    induction changes generalizing book with
    | nil => exact hold
    | cons change changes ih =>
      cases change with
      | applied m => exact ih (List.append_nil cs ▸ hold.step (.apply m))
      | installed snap => exact ih (List.append_nil cs ▸ hold.step (.applySnapshot snap))
  induction hrun with
  | start => exact .start
  | @pass is s s' t fx hrun i horder hpass ih =>
    obtain ⟨hbook, -, -, hpasses⟩ := s.pass_spec hpass
    have hchanged := hchanges i.changes ih
    rw [capturesOf_append, hbook]
    rcases hpasses.captures with ⟨hnone, hseq, -⟩ | ⟨hone, hseq, -⟩
    · rw [hnone, List.append_nil, hseq]
      exact hchanged
    · rw [hone, hseq, hbook]
      exact hchanged.step (.publish i.order horder)

theorem Capture.wireFrame (c : Capture) (hsize : c.frame.length ≤ 4 + 16 * 1024 * 1024) : Socket.WireFrame c.frame := by
  have hlen : c.frame.length = (coveredBytes c.snapshot).length + 8 := length_frameAround _
  obtain ⟨hdeclared, -, -⟩ := @frameAround_parts (coveredBytes c.snapshot) (by omega) []
  rw [List.append_nil] at hdeclared
  have hfour : ofBytes (c.frame.take 4) = (coveredBytes c.snapshot).length + 4 := hdeclared
  exact ⟨by omega, by omega, by omega⟩

theorem Sound.receives {cs : List Capture} {service : SnapshotService} (h : Sound cs service)
    (hsize : ∀ c ∈ cs, c.frame.length ≤ 4 + 16 * 1024 * 1024) {conn : Connection} {seen pending later : List Capture}
    (hsplit : Splits cs conn seen (pending ++ later)) (haccepted : conn.accepted = true) (rest : List UInt8) :
    ∃ sub, conn.subscriber.receives pending.length (pending.flatMap Capture.frame ++ rest) =
        some (List.replicate pending.length true, sub, rest) ∧
      sub.framesApplied = conn.subscriber.framesApplied + UInt64.ofNat pending.length ∧
      ∀ c, pending.getLast? = some c → sub.Mirrors c := by
  induction pending generalizing conn seen with
  | nil => exact ⟨conn.subscriber, rfl, (UInt64.add_zero _).symm, fun c hc => by cases hc⟩
  | cons c pending ih =>
    have hmem : c ∈ cs := by
      rw [hsplit.captures]
      exact List.mem_append_right _ List.mem_cons_self
    have hframe : conn.stream = c.frame ++ (pending ++ later).flatMap Capture.frame := hsplit.stream
    have hone := c.receiveOne_frame (hsize c hmem) conn.subscriber
    obtain ⟨c', later', hfront, -, -, -, hmirrors⟩ := h.receive hsize hsplit (hframe ▸ hone _)
    cases hfront
    have hnext : Splits cs ⟨true, (pending ++ later).flatMap Capture.frame, conn.subscriber.applySnapshot c.snapshot⟩
        (seen ++ [c]) (pending ++ later) := by
      refine ⟨?_, rfl, fun hnot => (by cases hnot), fun _ => ⟨seen, c, rfl, hmirrors⟩⟩
      rw [hsplit.captures, List.append_assoc]
      rfl
    obtain ⟨sub, hmore, hcount, hlast⟩ := ih hnext rfl
    refine ⟨sub, ?_, ?_, fun c' hc' => ?_⟩
    · rw [List.flatMap_cons, List.append_assoc]
      exact BookSnapshotSubscriber.receives_succ (hone _) hmore
    · rw [hcount, List.length_cons]
      change conn.subscriber.framesApplied + 1 + _ = _
      rw [UInt64.ofNat_add, UInt64.add_comm (UInt64.ofNat _), ← UInt64.add_assoc]
      rfl
    · cases pending with
      | nil =>
        cases hmore
        cases hc'
        exact hmirrors
      | cons c'' pending =>
        rw [List.getLast?_cons_cons] at hc'
        exact hlast c' hc'

section Example
open Socket

end Example

end MdfeedItch
