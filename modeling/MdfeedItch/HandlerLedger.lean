import MdfeedItch.GapAccounting

/-! # The counters of the handler

`FeedHandlerStats` is all that a caller sees of the datagrams that went by. Every
datagram has one fate; the counters of a run are the numbers of its fates and of its
effects, whatever the mode and the requesters. -/
namespace MdfeedItch
open Std FeedHandler

inductive Fate
  | malformed
  | stale
  | unfilled
  | covered
  | undecodable
  | idle
  | applied (m : AnyMessage)
  deriving DecidableEq, Repr

namespace Fate

def isError : Fate → Bool
  | malformed | undecodable => true
  | _ => false

/-- The message that has changed the books. -/
def message : Fate → Option AnyMessage
  | applied m => some m
  | _ => none

end Fate

def Effect.isInstalled : Effect → Bool
  | .installed _ => true
  | _ => false

/-- The fate of a datagram that meets some books: by its length, by its effects, and by its frame if that is decoded. -/
def Fate.of (book : DepthBook) (d : Delivery) (fx : List Effect) : Fate :=
  if ¬ d.Framed then .malformed
  else if fx = [] then .stale
  else if fx.any Effect.isDecoded then
    match (decodeFrame d.frame).message with
    | none => .undecodable
    | some m => if ((fx.dropLast.foldl Effect.onBook book).apply m).changed then .applied m else .idle
  else if fx.any Effect.isInstalled then .covered
  else .unfilled

def FeedHandler.fate (h : FeedHandler) (d : Delivery) : Fate := Fate.of h.book d (h.deliver d).2

namespace FeedHandlerStats

/-- The counters after a datagram with a fate and effects. -/
def enter (s : FeedHandlerStats) (d : Delivery) (fate : Fate) (fx : List Effect) : FeedHandlerStats where
  bytesIn := s.bytesIn + UInt64.ofNat d.data.length
  datagramsIn := s.datagramsIn + 1
  messagesApplied := s.messagesApplied + UInt64.ofNat fate.message.toList.length
  parseErrors := s.parseErrors + if fate.isError then 1 else 0
  gapsDetected := s.gapsDetected + UInt64.ofNat (fx.countP Effect.isReport)
  snapshotsRequested := s.snapshotsRequested +
    UInt64.ofNat (if d.requester.isSome then fx.countP Effect.isReport else 0)
  snapshotsApplied := s.snapshotsApplied + UInt64.ofNat (fx.countP Effect.isInstalled)
  staleMsgs := s.staleMsgs + if fate = .stale then 1 else 0
  byType := fate.message.toList.foldl tallyType s.byType

end FeedHandlerStats

namespace FeedHandler

end FeedHandler

namespace FeedHandler

end FeedHandler

namespace FeedHandler

def fates (h : FeedHandler) (ds : List Delivery) : List Fate := TraceRuns.observed deliver (fun h d => [h.fate d]) h ds

end FeedHandler

/-- The types that change a book. -/
def PerTypeCounters.total (c : PerTypeCounters) : UInt64 := c.add + c.execute + c.cancel + c.delete + c.replace

theorem tallyType_changed {b : DepthBook} {m : AnyMessage} (h : (b.apply m).changed) (c : PerTypeCounters) :
    (tallyType c m).total = c.total + 1 ∧ (tallyType c m).other = c.other := by
  cases m with
  | trade m | systemEvent m | stockDirectory m => cases h
  | addOrder m | addOrderMPID m | orderExecuted m | orderExecutedWithPrice m | orderCancel m | orderDelete m
    | orderReplace m =>
    simp only [tallyType, PerTypeCounters.total, and_true]
    ac_rfl

/-- The counters are those of the datagrams, their fates and their effects, as far as 64 bits count. -/
structure Accounts (s : FeedHandlerStats) (ds : List Delivery) (fates : List Fate) (t : List Effect) : Prop where
  datagrams : s.datagramsIn = UInt64.ofNat ds.length
  bytes : s.bytesIn = UInt64.ofNat (ds.map (fun d => d.data.length)).sum
  errors : s.parseErrors = UInt64.ofNat (fates.countP Fate.isError)
  stale : s.staleMsgs = UInt64.ofNat (fates.count .stale)
  applied : s.messagesApplied = UInt64.ofNat (fates.filterMap Fate.message).length
  byType : s.byType = (fates.filterMap Fate.message).foldl tallyType {}
  total : s.byType.total = s.messagesApplied ∧ s.byType.other = 0
  gaps : s.gapsDetected = UInt64.ofNat (t.countP Effect.isReport)
  installed : s.snapshotsApplied = UInt64.ofNat (t.countP Effect.isInstalled)
  requested : ∃ n, s.snapshotsRequested = UInt64.ofNat n ∧ t.countP Effect.isInstalled ≤ n ∧ n ≤ t.countP Effect.isReport

theorem Accounts.enter {s : FeedHandlerStats} {ds : List Delivery} {fates : List Fate} {t : List Effect}
    (h : Accounts s ds fates t) (d : Delivery) {fate : Fate} {fx : List Effect}
    (hmessage : ∀ m, fate.message = some m → ∃ b : DepthBook, (b.apply m).changed)
    (hinstalled : fx.countP Effect.isInstalled ≤ if d.requester.isSome then fx.countP Effect.isReport else 0) :
    Accounts (s.enter d fate fx) (ds ++ [d]) (fates ++ [fate]) (t ++ fx) := by
  have hlast : [fate].filterMap Fate.message = fate.message.toList := by
    rw [List.filterMap_cons, List.filterMap_nil]
    cases fate.message <;> rfl
  refine ⟨?_, ?_, ?_, ?_, ?_, ?_, ?_, ?_, ?_, ?_⟩
  · simp [FeedHandlerStats.enter, h.datagrams]
  · simp [FeedHandlerStats.enter, h.bytes]
  · rw [List.countP_append, UInt64.ofNat_add, ← h.errors]
    cases fate <;> rfl
  · rw [List.count_append, UInt64.ofNat_add, ← h.stale]
    cases fate <;> rfl
  · rw [List.filterMap_append, List.length_append, hlast, UInt64.ofNat_add, ← h.applied]
    rfl
  · rw [List.filterMap_append, List.foldl_append, hlast, ← h.byType]
    rfl
  · obtain ⟨htotal, hother⟩ := h.total
    cases hm : fate.message with
    | none => simpa [FeedHandlerStats.enter, hm] using h.total
    | some m =>
      obtain ⟨b, hchanged⟩ := hmessage m hm
      obtain ⟨hone, hsame⟩ := tallyType_changed hchanged s.byType
      simp only [FeedHandlerStats.enter, hm, Option.toList_some, List.foldl_cons, List.foldl_nil, List.length_singleton]
      exact ⟨hone.trans (congrArg (· + 1) htotal), hsame.trans hother⟩
  · rw [List.countP_append, UInt64.ofNat_add, ← h.gaps]
    rfl
  · rw [List.countP_append, UInt64.ofNat_add, ← h.installed]
    rfl
  · obtain ⟨n, hn, hle, hge⟩ := h.requested
    refine ⟨n + if d.requester.isSome then fx.countP Effect.isReport else 0, ?_, ?_, ?_⟩
    · rw [UInt64.ofNat_add, ← hn]
      rfl
    · rw [List.countP_append]
      exact Nat.add_le_add hle hinstalled
    · rw [List.countP_append]
      refine Nat.add_le_add hge ?_
      split_ifs
      · exact Nat.le_refl _
      · exact Nat.zero_le _

/-- As long as no counter wraps, a snapshot that is applied has been requested, and a request follows a gap. -/
theorem Accounts.ordered {s : FeedHandlerStats} {ds : List Delivery} {fates : List Fate} {t : List Effect}
    (h : Accounts s ds fates t) (hreports : t.countP Effect.isReport < UInt64.size) :
    s.snapshotsApplied ≤ s.snapshotsRequested ∧ s.snapshotsRequested ≤ s.gapsDetected := by
  obtain ⟨n, hn, hle, hge⟩ := h.requested
  have hmid : n < UInt64.size := Nat.lt_of_le_of_lt hge hreports
  rw [h.installed, hn, h.gaps]
  exact ⟨(UInt64.ofNat_le_iff_le (Nat.lt_of_le_of_lt hle hmid) hmid).mpr hle,
    (UInt64.ofNat_le_iff_le hmid hreports).mpr hge⟩

end MdfeedItch
