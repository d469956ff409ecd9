import MdfeedItch.FeedHandler
import MdfeedItch.TraceRuns

/-! # A call of the feed handler is its effects

Which effects a datagram has depends only on the expected sequence of its locate
and on the requester (`Admits`); what it leaves in the books and in the gap
detector is the replay of these effects (`Replays`). What is said of runs is
proved over the effects alone. -/
namespace MdfeedItch
open Std FiniteMapSums

/-- The message of a frame, if it decodes, reaches the books. -/
def DepthBook.receive (d : DepthBook) (frame : List UInt8) : DepthBook :=
  match (decodeFrame frame).message with
  | none => d
  | some m => (d.apply m).book

namespace Effect

def onBook (d : DepthBook) : Effect → DepthBook
  | .gapReported .. => d
  | .installed snap => d.install snap
  | .decoded _ _ frame => d.receive frame

def onGap (g : GapDetector) : Effect → GapDetector
  | .gapReported .. => g
  | .installed snap => g.setExpected snap.stockLocate (snap.lastAppliedSeq + 1)
  | .decoded loc seq _ => if seq = 0 then g else g.setExpected loc (seq + 1)

def isReport : Effect → Bool
  | .gapReported .. => true
  | _ => false

end Effect

structure GapRange where
  loc : StockLocate
  firstMissing : SequenceNumber
  lastMissing : SequenceNumber
  deriving DecidableEq, Repr

/-- What a gap observer learns. -/
def Effect.range : Effect → Option GapRange
  | .gapReported loc first last => some ⟨loc, first, last⟩
  | _ => none

/-- The ranges reported for a locate, in order. -/
def gapRanges (loc : StockLocate) (t : List Effect) : List (SequenceNumber × SequenceNumber) :=
  ((t.filterMap Effect.range).filter (fun r => r.loc = loc)).map (fun r => (r.firstMissing, r.lastMissing))

/-- The range that a gap report names: from the expected sequence to the one before the received. -/
def missing (loc : StockLocate) (e seq : SequenceNumber) : Effect := .gapReported loc e (seq - 1)

open FeedHandler in
/-- The branches of the sequence logic with the effects each one has. -/
inductive Admits (g : GapDetector) (skip : Bool) (requester : Option RecoveryRequester) (loc : StockLocate)
    (seq : SequenceNumber) : Admission → List Effect → Prop
  | bootstrap (h : seq = 0) : Admits g skip requester loc seq .admitted []
  | first (h : seq ≠ 0) (hnew : g.expected_[loc]? = none) : Admits g skip requester loc seq .admitted []
  | inOrder (h : seq ≠ 0) (hold : g.expected_[loc]? = some seq) : Admits g skip requester loc seq .admitted []
  | stale {e} (h : seq ≠ 0) (hold : g.expected_[loc]? = some e) (hlt : seq < e) :
      Admits g skip requester loc seq .refused []
  | failed {e request} (h : seq ≠ 0) (hold : g.expected_[loc]? = some e) (hlt : e < seq)
      (hrec : requester = some request) (hreq : request ⟨loc, e⟩ = none) :
      Admits g skip requester loc seq .refused [missing loc e seq]
  | covered {e request snap} (h : seq ≠ 0) (hold : g.expected_[loc]? = some e) (hlt : e < seq)
      (hrec : requester = some request) (hreq : request ⟨loc, e⟩ = some snap)
      (hcov : seq < (g.setExpected snap.stockLocate (snap.lastAppliedSeq + 1)).expected loc) :
      Admits g skip requester loc seq .covered [missing loc e seq, .installed snap]
  | recovered {e request snap} (h : seq ≠ 0) (hold : g.expected_[loc]? = some e) (hlt : e < seq)
      (hrec : requester = some request) (hreq : request ⟨loc, e⟩ = some snap)
      (hcov : (g.setExpected snap.stockLocate (snap.lastAppliedSeq + 1)).expected loc ≤ seq) :
      Admits g skip requester loc seq .admitted [missing loc e seq, .installed snap]
  | skipped {e} (h : seq ≠ 0) (hold : g.expected_[loc]? = some e) (hlt : e < seq)
      (hrec : requester = none) (hskip : skip = true) :
      Admits g skip requester loc seq .admitted [missing loc e seq]
  | stalled {e} (h : seq ≠ 0) (hold : g.expected_[loc]? = some e) (hlt : e < seq)
      (hrec : requester = none) (hskip : skip = false) :
      Admits g skip requester loc seq .refused [missing loc e seq]

/-- The state after a call is the state before it with the effects replayed. -/
structure Replays (h : FeedHandler) (effects : List Effect) (h' : FeedHandler) : Prop where
  book : h'.book = effects.foldl Effect.onBook h.book
  gap : h'.gap = effects.foldl Effect.onGap h.gap
  skipGaps : h'.skipGaps = h.skipGaps
  reported : h'.stats.gapsDetected = h.stats.gapsDetected + UInt64.ofNat (effects.countP Effect.isReport)

namespace FeedHandler

/-- Past the final bump the locate expects the sequence after the accepted one. -/
theorem advance_gap (h : FeedHandler) (loc : StockLocate) (seq : SequenceNumber) :
    (h.advance loc seq).gap =
      if h.gap.expected loc ≤ seq then h.gap.setExpected loc (seq + 1) else h.gap := by
  unfold advance
  split_ifs <;> rfl

theorem advance_other (h : FeedHandler) (loc : StockLocate) (seq : SequenceNumber) :
    (h.advance loc seq).book = h.book ∧ (h.advance loc seq).skipGaps = h.skipGaps ∧
      (h.advance loc seq).stats = h.stats := by
  unfold advance
  split_ifs <;> exact ⟨rfl, rfl, rfl⟩

/-- `advance` after `observe` has counted the sequence changes nothing more. -/
theorem advance_after_set (g : GapDetector) (h : FeedHandler) (loc : StockLocate) (seq : SequenceNumber) :
    ({ h with gap := g.setExpected loc (seq + 1) }.advance loc seq).gap = g.setExpected loc (seq + 1) := by
  rw [advance_gap]
  split_ifs
  · exact g.setExpected_twice loc _ _
  · rfl

theorem decodeAndApply_spec (h : FeedHandler) (frame : List UInt8) :
    ((h.decodeAndApply frame).1 ↔ (decodeFrame frame).status = .ok) ∧
      (h.decodeAndApply frame).2.book = h.book.receive frame ∧
      (h.decodeAndApply frame).2.gap = h.gap ∧ (h.decodeAndApply frame).2.skipGaps = h.skipGaps ∧
      (h.decodeAndApply frame).2.stats.gapsDetected = h.stats.gapsDetected ∧
      (h.decodeAndApply frame).2.stats.staleMsgs = h.stats.staleMsgs := by
  have hmsg := decodeFrame_message frame
  unfold decodeAndApply DepthBook.receive
  cases hm : (decodeFrame frame).message with
  | none =>
    rw [hm] at hmsg
    have hbad : (decodeFrame frame).status ≠ .ok := fun hok => by simpa using hmsg.mpr hok
    simp [hbad]
  | some m =>
    rw [hm] at hmsg
    have hok : (decodeFrame frame).status = .ok := hmsg.mp rfl
    simp only [hok, hm]
    split_ifs <;> simp

/-- What the sequence logic does with a datagram. -/
structure Sequenced (h : FeedHandler) (requester : Option RecoveryRequester) (loc : StockLocate)
    (seq : SequenceNumber) (r : Admission × FeedHandler × List Effect) : Prop where
  admits : Admits h.gap h.skipGaps requester loc seq r.1 r.2.2
  book : r.2.1.book = r.2.2.foldl Effect.onBook h.book
  gap : ∀ frame, r.2.1.gap =
    (if r.1 = .admitted then r.2.2 ++ [.decoded loc seq frame] else r.2.2).foldl Effect.onGap h.gap
  skipGaps : r.2.1.skipGaps = h.skipGaps
  reported : r.2.1.stats.gapsDetected = h.stats.gapsDetected + UInt64.ofNat (r.2.2.countP Effect.isReport)
  stale : r.2.1.stats.staleMsgs = h.stats.staleMsgs + if r.1 = .refused ∧ r.2.2 = [] then 1 else 0

/-- Where a datagram is admitted, the final bump adds the accepted sequence to what was replayed before. -/
theorem Sequenced.of_advance {h h' : FeedHandler} {requester : Option RecoveryRequester} {loc : StockLocate}
    {seq : SequenceNumber} {effects : List Effect} (hseq : seq ≠ 0)
    (hadmits : Admits h.gap h.skipGaps requester loc seq .admitted effects)
    (hbook : h'.book = effects.foldl Effect.onBook h.book)
    (hgap : (h'.advance loc seq).gap = (effects.foldl Effect.onGap h.gap).setExpected loc (seq + 1))
    (hskip : h'.skipGaps = h.skipGaps)
    (hreported : h'.stats.gapsDetected = h.stats.gapsDetected + UInt64.ofNat (effects.countP Effect.isReport))
    (hstale : h'.stats.staleMsgs = h.stats.staleMsgs) :
    Sequenced h requester loc seq (.admitted, h'.advance loc seq, effects) := by
  obtain ⟨hbook', hskip', hstats⟩ := advance_other h' loc seq
  refine ⟨hadmits, hbook'.trans hbook, fun frame => ?_, hskip'.trans hskip, ?_, ?_⟩
  · rw [if_pos rfl, List.foldl_append, hgap]
    exact (if_neg hseq).symm
  · rw [hstats, hreported]
  · rw [hstats, hstale]
    exact (UInt64.add_zero _).symm

theorem checkSequence_sequenced (h : FeedHandler) (requester : Option RecoveryRequester) (loc : StockLocate)
    (seq : SequenceNumber) : Sequenced h requester loc seq (h.checkSequence requester loc seq) := by
  unfold checkSequence
  by_cases hzero : seq = 0
  · rw [if_pos hzero]
    exact ⟨.bootstrap hzero, rfl, fun frame => by simp [Effect.onGap, hzero], rfl, (UInt64.add_zero _).symm,
      (UInt64.add_zero _).symm⟩
  · rw [if_neg hzero]
    unfold GapDetector.observe
    cases hold : h.gap.expected_[loc]? with
    | none =>
      exact .of_advance hzero (.first hzero hold) rfl (advance_after_set h.gap h loc seq) rfl (UInt64.add_zero _).symm rfl
    | some e =>
      dsimp only
      by_cases heq : seq = e
      · subst heq
        rw [if_pos rfl]
        exact .of_advance hzero (.inOrder hzero hold) rfl (advance_after_set h.gap h loc seq) rfl (UInt64.add_zero _).symm rfl
      · rw [if_neg heq]
        by_cases hlt : seq < e
        · rw [if_pos hlt]
          exact ⟨.stale hzero hold hlt, rfl, fun frame => rfl, rfl, (UInt64.add_zero _).symm, rfl⟩
        · rw [if_neg hlt]
          have hgt : e < seq := UInt64.lt_of_le_of_ne (UInt64.not_lt.mp hlt) (Ne.symm heq)
          cases requester with
          | none =>
            dsimp only
            by_cases hskip : h.skipGaps = true
            · rw [if_pos hskip]
              refine .of_advance hzero (.skipped hzero hold hgt rfl hskip) rfl ?_ rfl rfl rfl
              rw [advance_gap, if_pos (by simp [GapDetector.expected_setExpected])]
              exact h.gap.setExpected_twice loc _ _
            · rw [if_neg hskip]
              have hstall := Bool.not_eq_true _ |>.mp hskip
              exact ⟨.stalled hzero hold hgt rfl hstall, rfl, fun frame => rfl, rfl, rfl, (UInt64.add_zero _).symm⟩
          | some request =>
            dsimp only
            cases hreq : request ⟨loc, e⟩ with
            | none => exact ⟨.failed hzero hold hgt rfl hreq, rfl, fun frame => rfl, rfl, rfl, (UInt64.add_zero _).symm⟩
            | some snap =>
              dsimp only
              split
              · rename_i hcov
                refine .of_advance hzero (.recovered hzero hold hgt rfl hreq hcov) rfl ?_ rfl rfl rfl
                rw [advance_gap, if_pos hcov]
                rfl
              · rename_i hcov
                exact ⟨.covered hzero hold hgt rfl hreq (UInt64.not_le.mp hcov), rfl, fun frame => rfl, rfl, rfl,
                  (UInt64.add_zero _).symm⟩

/-- What becomes of a datagram that carries a header and a length: the sequence
logic has its effects, an admitted frame goes to the decoder, and every stale
datagram is counted. -/
structure Handled (h : FeedHandler) (requester : Option RecoveryRequester) (data : List UInt8)
    (r : Bool × FeedHandler × List Effect) : Prop where
  effects : ∃ adm pre, Admits h.gap h.skipGaps requester (readLocate data) (readSequence data) adm pre ∧
    match adm with
    | .refused => r.1 = false ∧ r.2.2 = pre
    | .covered => r.1 = true ∧ r.2.2 = pre
    | .admitted => (r.1 ↔ (decodeFrame (data.drop transportHeaderSize)).status = .ok) ∧
        r.2.2 = pre ++ [.decoded (readLocate data) (readSequence data) (data.drop transportHeaderSize)]
  stale : r.2.1.stats.staleMsgs = h.stats.staleMsgs + if r.2.2 = [] then 1 else 0

theorem onDatagram_short (h : FeedHandler) (requester : Option RecoveryRequester) {data : List UInt8}
    (hlen : data.length < transportHeaderSize + 2) :
    (h.onDatagram requester data).1 = false ∧ (h.onDatagram requester data).2.2 = [] ∧
      Replays h [] (h.onDatagram requester data).2.1 := by
  rw [onDatagram, if_pos hlen]
  exact ⟨rfl, rfl, rfl, rfl, rfl, (UInt64.add_zero _).symm⟩

theorem onDatagram_handled (h : FeedHandler) (requester : Option RecoveryRequester) {data : List UInt8}
    (hlen : transportHeaderSize + 2 ≤ data.length) :
    Handled h requester data (h.onDatagram requester data) ∧
      Replays h (h.onDatagram requester data).2.2 (h.onDatagram requester data).2.1 := by
  rw [onDatagram, if_neg (Nat.not_lt.mpr hlen)]
  have hseq := checkSequence_sequenced { h with stats := { h.stats with
    bytesIn := h.stats.bytesIn + UInt64.ofNat data.length, datagramsIn := h.stats.datagramsIn + 1 } }
    requester (readLocate data) (readSequence data)
  dsimp only
  rcases hr : checkSequence _ requester (readLocate data) (readSequence data) with ⟨adm, h', pre⟩
  rw [hr] at hseq
  have hadmits := hseq.admits
  have hgap := hseq.gap (data.drop transportHeaderSize)
  cases adm with
  | refused =>
    refine ⟨⟨⟨_, _, hadmits, rfl, rfl⟩, ?_⟩, hseq.book, hgap, hseq.skipGaps, hseq.reported⟩
    simpa using hseq.stale
  | covered =>
    have hne : pre ≠ [] := by
      cases hadmits
      simp
    refine ⟨⟨⟨_, _, hadmits, rfl, rfl⟩, ?_⟩, hseq.book, hgap, hseq.skipGaps, hseq.reported⟩
    simpa [hne] using hseq.stale
  | admitted =>
    obtain ⟨hok, hbook, hgap', hskip, hreported, hstale⟩ := decodeAndApply_spec h' (data.drop transportHeaderSize)
    refine ⟨⟨⟨_, _, hadmits, hok, rfl⟩, ?_⟩, ?_, hgap'.trans hgap, hskip.trans hseq.skipGaps, ?_⟩
    · simpa using hstale.trans hseq.stale
    · rw [hbook, hseq.book, List.foldl_append]
      rfl
    · rw [hreported, hseq.reported, List.countP_append]
      exact congrArg (fun n => h.stats.gapsDetected + UInt64.ofNat n) (Nat.add_zero _).symm

theorem onDatagram_replays (h : FeedHandler) (requester : Option RecoveryRequester) (data : List UInt8) :
    Replays h (h.onDatagram requester data).2.2 (h.onDatagram requester data).2.1 := by
  rcases Nat.lt_or_ge data.length (transportHeaderSize + 2) with hshort | hlen
  · obtain ⟨_, heff, hrep⟩ := onDatagram_short h requester hshort
    rwa [heff]
  · exact (onDatagram_handled h requester hlen).2

end FeedHandler

/-- A datagram together with the requester that is set when it arrives. -/
structure Delivery where
  data : List UInt8
  requester : Option RecoveryRequester

namespace Delivery

def loc (d : Delivery) : StockLocate := FeedHandler.readLocate d.data
def seq (d : Delivery) : SequenceNumber := FeedHandler.readSequence d.data
def frame (d : Delivery) : List UInt8 := d.data.drop FeedHandler.transportHeaderSize

/-- The datagram is long enough to be looked at. -/
def Framed (d : Delivery) : Prop := FeedHandler.transportHeaderSize + 2 ≤ d.data.length

instance (d : Delivery) : Decidable d.Framed := inferInstanceAs (Decidable (_ ≤ _))

end Delivery

/-- A call from outside: a datagram, or a snapshot installed on demand. -/
inductive FeedCall
  | datagram (d : Delivery)
  | snapshot (snap : SnapshotResponse)

namespace FeedHandler

def deliver (h : FeedHandler) (d : Delivery) : FeedHandler × List Effect := (h.onDatagram d.requester d.data).2

def call (h : FeedHandler) : FeedCall → FeedHandler × List Effect
  | .datagram d => h.deliver d
  | .snapshot snap => (h.applySnapshot snap, [.installed snap])

/-- A handler after a list of datagrams, with everything it passed on. -/
def feed (h : FeedHandler) (ds : List Delivery) : FeedHandler × List Effect := TraceRuns.run deliver h ds

/-- The same for datagrams and snapshots on demand. -/
def calls (h : FeedHandler) (cs : List FeedCall) : FeedHandler × List Effect := TraceRuns.run call h cs

end FeedHandler

theorem Replays.refl (h : FeedHandler) : Replays h [] h := ⟨rfl, rfl, rfl, (UInt64.add_zero _).symm⟩

theorem Replays.trans {h h' h'' : FeedHandler} {fx gx : List Effect} (hf : Replays h fx h') (hg : Replays h' gx h'') :
    Replays h (fx ++ gx) h'' := by
  refine ⟨?_, ?_, hg.skipGaps.trans hf.skipGaps, ?_⟩
  · rw [List.foldl_append, ← hf.book, hg.book]
  · rw [List.foldl_append, ← hf.gap, hg.gap]
  · rw [List.countP_append, UInt64.ofNat_add, hg.reported, hf.reported, UInt64.add_assoc]

theorem FeedHandler.deliver_replays (h : FeedHandler) (d : Delivery) : Replays h (h.deliver d).2 (h.deliver d).1 :=
  h.onDatagram_replays d.requester d.data

/-- A datagram that leaves no trace is counted as stale, and no other one. -/
theorem FeedHandler.deliver_stale (h : FeedHandler) {d : Delivery} (hframed : d.Framed) :
    (h.deliver d).1.stats.staleMsgs = h.stats.staleMsgs + if (h.deliver d).2 = [] then 1 else 0 :=
  (h.onDatagram_handled d.requester hframed).1.stale

theorem FeedHandler.deliver_not_stale (h : FeedHandler) {d : Delivery} (hframed : d.Framed)
    (hne : (h.deliver d).2 ≠ []) : (h.deliver d).1.stats.staleMsgs = h.stats.staleMsgs := by
  rw [h.deliver_stale hframed, if_neg hne, UInt64.add_zero]

theorem FeedHandler.call_replays (h : FeedHandler) (c : FeedCall) : Replays h (h.call c).2 (h.call c).1 := by
  cases c with
  | datagram d => exact h.deliver_replays d
  | snapshot snap => exact ⟨rfl, rfl, rfl, (UInt64.add_zero _).symm⟩

/-- A run leaves what its effects say, whatever the mode and the requesters. -/
theorem FeedHandler.calls_replays (h : FeedHandler) (cs : List FeedCall) :
    Replays h (h.calls cs).2 (h.calls cs).1 := by
  refine TraceRuns.run_invariant call (I := fun s t => Replays h t s) (P := fun _ => True) ?_
    (Replays.refl h) cs (fun _ _ => trivial)
  intro s t c _ hrep
  exact hrep.trans (s.call_replays c)

theorem FeedHandler.feed_replays (h : FeedHandler) (ds : List Delivery) : Replays h (h.feed ds).2 (h.feed ds).1 := by
  refine TraceRuns.run_invariant deliver (I := fun s t => Replays h t s) (P := fun _ => True) ?_
    (Replays.refl h) ds (fun _ _ => trivial)
  intro s t d _ hrep
  exact hrep.trans (s.deliver_replays d)

end MdfeedItch
