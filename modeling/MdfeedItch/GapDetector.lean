import MdfeedItch.ItchMessages
import MdfeedItch.FiniteMapSums

/-! # The next expected sequence of every stock locate

`recovery/gap_detector.h` and `recovery/gap_detector.cpp`. -/
namespace MdfeedItch
open Std FiniteMapSums

structure GapEvent where
  stockLocate : StockLocate
  expected : SequenceNumber
  received : SequenceNumber
  deriving DecidableEq, Repr

/-- `ObserveResult`: exactly one of its three flags is set, and only a gap carries an event. -/
inductive ObserveResult
  | ok
  | stale
  | gap (event : GapEvent)
  deriving DecidableEq, Repr

structure GapDetector where
  expected_ : ExtTreeMap StockLocate SequenceNumber
  deriving DecidableEq

namespace GapDetector

def new : GapDetector := ⟨∅⟩

def expected (g : GapDetector) (loc : StockLocate) : SequenceNumber := (g.expected_[loc]?).getD 0

def setExpected (g : GapDetector) (loc : StockLocate) (next : SequenceNumber) : GapDetector :=
  ⟨g.expected_.insert loc next⟩

/-- `start`, which the source gives the first sequence 1 unless told otherwise. -/
def start (g : GapDetector) (loc : StockLocate) (first : SequenceNumber := 1) : GapDetector :=
  g.setExpected loc first

def observe (g : GapDetector) (loc : StockLocate) (seq : SequenceNumber) : ObserveResult × GapDetector :=
  match g.expected_[loc]? with
  | none => (.ok, g.setExpected loc (seq + 1))
  | some expected =>
    if seq = expected then (.ok, g.setExpected loc (expected + 1))
    else if seq < expected then (.stale, g)
    -- the recovery path advances the stream once the gap is filled
    else (.gap ⟨loc, expected, seq⟩, g)

theorem lookup_setExpected (g : GapDetector) (loc l : StockLocate) (next : SequenceNumber) :
    (g.setExpected loc next).expected_[l]? = if l = loc then some next else g.expected_[l]? :=
  lookup_insert g.expected_ loc l next

theorem expected_setExpected (g : GapDetector) (loc l : StockLocate) (next : SequenceNumber) :
    (g.setExpected loc next).expected l = if l = loc then next else g.expected l := by
  rw [expected, lookup_setExpected]
  split_ifs <;> rfl

theorem expected_of_some {g : GapDetector} {loc : StockLocate} {e : SequenceNumber}
    (h : g.expected_[loc]? = some e) : g.expected loc = e := by simp [expected, h]

/-- Only the last assignment to a locate counts. -/
theorem setExpected_twice (g : GapDetector) (loc : StockLocate) (a b : SequenceNumber) :
    (g.setExpected loc a).setExpected loc b = g.setExpected loc b := by
  unfold setExpected
  congr 1
  apply ExtTreeMap.ext_getElem?
  intro l
  simp only [lookup_insert]
  split_ifs <;> rfl

end GapDetector

end MdfeedItch
