import MdfeedItch.GapReports
import MdfeedItch.LosslessFeed
import MdfeedItch.PcapRoundTrip
import MdfeedItch.SequenceHoles

/-! # Replaying a capture

The loop of `pcap_replay.cpp` and the reference of its test, which decodes a capture
without the handler. On a capture whose locates count upwards the replay that skips
gaps builds the books of the reference and reports the holes of the sequences; the
other one builds the books from what comes before the first hole of each locate. -/
namespace MdfeedItch
open Std FiniteMapSums FeedHandler CaptureFormat SequenceHoles

/-! ## The program -/

structure Replay where
  handler : FeedHandler
  gaps : List GapRange
  replayed : ℕ

namespace Replay

def onRecord (s : Replay) (payload : List UInt8) : Replay :=
  let (_, handler, effects) := s.handler.onDatagram none payload
  ⟨handler, s.gaps ++ effects.filterMap Effect.range, s.replayed + 1⟩

variable {lib : Libpcap}

/-- The loop of `main` for the default `--start-offset`; the pacing of `--speedup` is only waiting. -/
def loop (stopAfter : ℕ) : ℕ → PcapReader lib → Replay → Option (Replay × PcapReader lib)
  | 0, _, _ => none
  | passes + 1, r, s => do
    match ← PcapReader.next (passes + 1) r with
    | (none, r) => return (s, r)
    | (some rec, r) =>
      let s := s.onRecord rec.payload
      if stopAfter ≠ 0 ∧ stopAfter ≤ s.replayed then return (s, r) else loop stopAfter passes r s

end Replay

def pcapReplay (lib : Libpcap) (file : List UInt8) (stopAfter : ℕ) (skipGaps : Bool) (passes : ℕ) :
    Except String (Option Replay) :=
  match PcapReader.openFile lib file with
  | .error err => .error ("pcap_replay: " ++ err)
  | .ok reader =>
    .ok ((Replay.loop stopAfter passes reader ⟨FeedHandler.new 10 skipGaps, [], 0⟩).map Prod.fst)

/-- One record of the reference: the frame behind the header is decoded and applied. -/
def referenceStep (d : DepthBook) (payload : List UInt8) : DepthBook :=
  if payload.length ≤ transportHeaderSize then d
  else
    let pr := decodeFrame (payload.drop transportHeaderSize)
    match pr.status, pr.message with
    | .ok, some m => (d.apply m).book
    | _, _ => d

def referenceBookFromPcap (lib : Libpcap) (file : List UInt8) (passes : ℕ) : Except String (Option DepthBook) :=
  match PcapReader.openFile lib file with
  | .error err => .error err
  | .ok reader => .ok ((reader.readAll passes).map
      (fun r => r.1.foldl (fun d rec => referenceStep d rec.payload) (DepthBook.new 10)))

/-! ## The replay is a run of the handler -/

/-- The payloads that a reader finds in a capture. -/
def payloadsOf (rs : List Record) : List (List UInt8) :=
  (rs.filterMap PcapReader.captured).map PcapRecord.payload

/-- The payloads of a written capture are those that were given to the writer. -/
theorem payloadsOf_written {ds : List Datagram} (hds : ∀ d ∈ ds, d.Fits) :
    payloadsOf (ds.map Datagram.record) = ds.map Datagram.payload := by
  induction ds with
  | nil => rfl
  | cons d ds ih =>
    obtain ⟨hd, hds⟩ := List.forall_mem_cons.mp hds
    rw [List.map_cons, payloadsOf, List.filterMap_cons_some (captured_record hd), List.map_cons, List.map_cons,
      ← ih hds, payloadsOf]

/-- Those that are replayed when `n` of them were replayed before. -/
def limited (stopAfter n : ℕ) (feed : List (List UInt8)) : List (List UInt8) :=
  if stopAfter = 0 then feed else feed.take (stopAfter - n)

/-- The datagrams of a replay, without a requester. -/
def deliveries (feed : List (List UInt8)) : List Delivery := feed.map (fun data => ⟨data, none⟩)

theorem Replay.foldl_onRecord (feed : List (List UInt8)) (s : Replay) :
    feed.foldl Replay.onRecord s = ⟨(s.handler.feed (deliveries feed)).1,
      s.gaps ++ (s.handler.feed (deliveries feed)).2.filterMap Effect.range, s.replayed + feed.length⟩ := by
  induction feed generalizing s with
  | nil => simp [deliveries, FeedHandler.feed]
  | cons data feed ih =>
    rw [List.foldl_cons, ih]
    simp only [Replay.onRecord, deliveries, List.map_cons, FeedHandler.feed, TraceRuns.run, FeedHandler.deliver,
      List.filterMap_append, List.append_assoc, List.length_cons, Replay.mk.injEq, true_and]
    omega

namespace Replay
variable {lib : Libpcap} {snapLen : UInt32}

/-- The loop replays every payload, up to the limit. -/
theorem loop_yields {stopAfter : ℕ} {rs : List Record} (hrs : ∀ r ∈ rs, r.WellFormed snapLen) {h : lib.Handle}
    (hy : lib.Yields h rs) {s : Replay} (hs : stopAfter = 0 ∨ s.replayed < stopAfter) {passes : ℕ}
    (hp : passes > rs.length) : ∃ final, loop stopAfter passes ⟨some h, false⟩ s =
      some ((limited stopAfter s.replayed (payloadsOf rs)).foldl onRecord s, final) := by
  induction hn : rs.length using Nat.strong_induction_on generalizing rs h s passes with
  | _ n ih =>
    subst hn
    obtain ⟨k, rfl⟩ := Nat.exists_eq_add_of_lt hp
    rcases PcapReader.next_yields hrs hy with ⟨hnil, h', hend⟩ | ⟨rec, rest, h', heq, hsuffix, hlen, hy', hrec⟩
    · refine ⟨⟨some h', true⟩, ?_⟩
      have hnone : limited stopAfter s.replayed (payloadsOf rs) = [] := by
        rw [payloadsOf, hnil, List.map_nil, limited, List.take_nil, ite_self]
      rw [loop, hend _ hp, hnone]
      rfl
    · have hcount : (s.onRecord rec.payload).replayed = s.replayed + 1 := rfl
      have hpayloads : payloadsOf rs = rec.payload :: payloadsOf rest := by
        rw [payloadsOf, heq, List.map_cons, payloadsOf]
      rw [loop, hrec _ hp, hpayloads]
      dsimp only [Option.bind_eq_bind, Option.bind_some]
      by_cases hstop : stopAfter ≠ 0 ∧ stopAfter ≤ (s.onRecord rec.payload).replayed
      · refine ⟨⟨some h', false⟩, ?_⟩
        have hone : stopAfter - s.replayed = 1 := by omega
        rw [if_pos hstop, limited, if_neg hstop.1, hone]
        rfl
      · have hmore : stopAfter = 0 ∨ (s.onRecord rec.payload).replayed < stopAfter := by omega
        obtain ⟨final, hfinal⟩ := ih rest.length hlen (fun r hr => hrs r (hsuffix.subset hr)) hy' hmore
          (hlen.trans_le (Nat.le_add_right _ k)) rfl
        refine ⟨final, ?_⟩
        rw [if_neg hstop, hfinal, hcount, limited, limited]
        by_cases hzero : stopAfter = 0
        · rw [if_pos hzero, if_pos hzero, List.foldl_cons]
        · have hnext : stopAfter - s.replayed = (stopAfter - (s.replayed + 1)) + 1 := by omega
          rw [if_neg hzero, if_neg hzero, hnext, List.take_succ_cons, List.foldl_cons]

end Replay

/-- What the program makes of a well-formed capture. -/
theorem pcapReplay_capture {lib : Libpcap} (hlib : lib.ReadsCaptures) {c : CaptureFormat.Capture} (hc : c.WellFormed)
    (stopAfter : ℕ) (skipGaps : Bool) {passes : ℕ} (hp : passes > c.records.length) :
    let feed := limited stopAfter 0 (payloadsOf c.records)
    let final := (FeedHandler.new 10 skipGaps).feed (deliveries feed)
    pcapReplay lib c.bytes stopAfter skipGaps passes =
      .ok (some ⟨final.1, final.2.filterMap Effect.range, feed.length⟩) := by
  intro feed final
  obtain ⟨h, hopen, hlink, hy⟩ := hlib c hc
  have hreader : PcapReader.openFile lib c.bytes = .ok ⟨some h, false⟩ := by
    rw [PcapReader.openFile, hopen]
    dsimp only
    rw [hlink]
    rfl
  have hstart : stopAfter = 0 ∨ (⟨FeedHandler.new 10 skipGaps, [], 0⟩ : Replay).replayed < stopAfter :=
    Nat.eq_zero_or_pos stopAfter
  obtain ⟨last, hloop⟩ := Replay.loop_yields hc hy hstart hp
  rw [pcapReplay, hreader]
  dsimp only
  rw [hloop, Replay.foldl_onRecord]
  simp [feed, final]

/-! ## The reference decodes every payload -/

theorem receive_short (d : DepthBook) {frame : List UInt8} (h : frame.length < 2) : d.receive frame = d := by
  rw [DepthBook.receive, decodeFrame, if_pos h]

theorem referenceStep_eq (d : DepthBook) (payload : List UInt8) :
    referenceStep d payload = d.receive (payload.drop transportHeaderSize) := by
  unfold referenceStep
  split_ifs with hshort
  · exact (receive_short d (by rw [List.length_drop]; omega)).symm
  · have hstatus := decodeFrame_message (payload.drop transportHeaderSize)
    rw [DepthBook.receive]
    generalize decodeFrame (payload.drop transportHeaderSize) = pr at hstatus ⊢
    obtain ⟨status, n, message⟩ := pr
    cases message with
    | none => cases status <;> rfl
    | some m =>
      obtain rfl : status = .ok := hstatus.mp rfl
      rfl

theorem foldl_referenceStep (feed : List (List UInt8)) :
    feed.foldl referenceStep (DepthBook.new 10) = decodeDirect 10 feed := by
  simp only [decodeDirect, ← referenceStep_eq]

theorem referenceBook_capture {lib : Libpcap} (hlib : lib.ReadsCaptures) {c : CaptureFormat.Capture} (hc : c.WellFormed)
    {passes : ℕ} (hp : passes > c.records.length) :
    referenceBookFromPcap lib c.bytes passes = .ok (some (decodeDirect 10 (payloadsOf c.records))) := by
  obtain ⟨reader, final, hopen, -, hall⟩ := PcapReader.readAll_capture hlib hc
  rw [referenceBookFromPcap, hopen]
  dsimp only
  rw [hall passes hp, Option.map_some, decodeDirect, payloadsOf, List.foldl_map]
  simp only [referenceStep_eq]

/-! ## Captures whose locates count upwards -/

/-- The sequences that a locate carries in a capture, without the bootstrap datagrams. -/
def carried (loc : StockLocate) (feed : List (List UInt8)) : List ℕ :=
  (feed.filter (fun data => transportHeaderSize + 2 ≤ data.length ∧ readLocate data = loc ∧
    readSequence data ≠ 0)).map (fun data => (readSequence data).toNat)

/-- Each locate counts upwards, maybe with holes. -/
def Rising (feed : List (List UInt8)) : Prop := ∀ loc, (carried loc feed).Pairwise (· < ·)

theorem carried_append (loc : StockLocate) (feed rest : List (List UInt8)) :
    carried loc (feed ++ rest) = carried loc feed ++ carried loc rest := by
  rw [carried, List.filter_append, List.map_append, carried, carried]

theorem carried_concat (loc : StockLocate) (feed : List (List UInt8)) (data : List UInt8) :
    carried loc (feed ++ [data]) =
      if transportHeaderSize + 2 ≤ data.length ∧ readLocate data = loc ∧ readSequence data ≠ 0
        then carried loc feed ++ [(readSequence data).toNat] else carried loc feed := by
  rw [carried_append]
  split_ifs with h <;> simp [carried, h]

theorem Rising.of_prefix {feed feed' : List (List UInt8)} (h : Rising feed') (hpre : feed <+: feed') :
    Rising feed := by
  obtain ⟨rest, rfl⟩ := hpre
  intro loc
  have hinc := h loc
  rw [carried_append] at hinc
  exact (List.pairwise_append.mp hinc).1

/-- It is enough to look at the locate that all datagrams are for. -/
theorem Rising.of_locate {feed : List (List UInt8)} {loc : StockLocate} (hall : ∀ data ∈ feed, readLocate data = loc)
    (hinc : (carried loc feed).Pairwise (· < ·)) : Rising feed := by
  have hnone : ∀ l, l ≠ loc → carried l feed = [] := by
    intro l hl
    rw [carried, List.map_eq_nil_iff, List.filter_eq_nil_iff]
    intro data hdata
    simp [hall data hdata, Ne.symm hl]
  intro l
  by_cases hl : l = loc
  · exact hl ▸ hinc
  · rw [hnone l hl]
    exact List.Pairwise.nil

/-- The sequence that follows the last one. -/
def follower (ns : List ℕ) : Option SequenceNumber := ns.getLast?.map (fun n => UInt64.ofNat (n + 1))

section Datagram
variable {feed : List (List UInt8)} {d : Delivery} {g : GapDetector} {skip : Bool} {fx : List Effect}

/-- The next sequence of a locate lies above the last one. -/
theorem Rising.above_last (h : Rising (feed ++ [d.data])) (hframed : d.Framed) (hseq : d.seq ≠ 0) {n : ℕ}
    (hlast : (carried d.loc feed).getLast? = some n) :
    n < d.seq.toNat ∧ (UInt64.ofNat (n + 1)).toNat = n + 1 := by
  have hinc := h d.loc
  rw [carried_concat, if_pos ⟨hframed, rfl, hseq⟩] at hinc
  have hlt := (List.pairwise_append.mp hinc).2.2 n (List.mem_of_getLast? hlast) _ (List.mem_singleton_self _)
  have hmax := d.seq.toNat_lt
  refine ⟨hlt, UInt64.toNat_ofNat_of_lt' (?_ : n + 1 < 2 ^ 64)⟩
  have hle : n + 1 ≤ d.seq.toNat := hlt
  omega

theorem Emits.of_unframed (h : Emits g skip d fx) (hshort : ¬ d.Framed) : fx = [] := by
  have hno : ∀ e, ¬ Opens g d e := fun e ho => hshort ho.framed
  rcases h.of_not_opens hno with rfl | ⟨rfl, -⟩
  · cases h with
    | bootstrap hframed | next hframed => exact absurd hframed hshort
  · rfl

theorem Emits.of_hole (h : Emits g true d fx) (hrequester : d.requester = none) {e : SequenceNumber}
    (ho : Opens g d e) : fx = [missing d.loc e d.seq, d.accepted] := by
  rw [h.of_opens ho, Delivery.afterReport, Delivery.answer, hrequester]
  rfl

theorem Emits.of_standing (h : Emits g false d fx) (hrequester : d.requester = none) {e : SequenceNumber}
    (ho : Opens g d e) : fx = [missing d.loc e d.seq] := by
  rw [h.of_opens ho, Delivery.afterReport, Delivery.answer, hrequester]
  rfl

theorem carried_sequenced (hframed : d.Framed) (hseq : d.seq ≠ 0) (loc : StockLocate) :
    carried loc (feed ++ [d.data]) =
      if d.loc = loc then carried loc feed ++ [d.seq.toNat] else carried loc feed := by
  rw [carried_concat]
  by_cases hloc : d.loc = loc
  · rw [if_pos ⟨hframed, hloc, hseq⟩, if_pos hloc]
    rfl
  · rw [if_neg (fun hall => hloc hall.2.1), if_neg hloc]

theorem carried_unsequenced (hno : ¬ (d.Framed ∧ d.seq ≠ 0)) (loc : StockLocate) :
    carried loc (feed ++ [d.data]) = carried loc feed := by
  rw [carried_concat, if_neg (fun hall => hno ⟨hall.1, hall.2.2⟩)]

/-- A datagram without a sequence is decoded if it can be, and counts for nothing else. -/
structure Unsequenced (h : FeedHandler) (d : Delivery) : Prop where
  book : (h.deliver d).1.book = h.book.receive d.frame
  gap : (h.deliver d).1.gap = h.gap
  stale : (h.deliver d).1.stats.staleMsgs = h.stats.staleMsgs
  ranges : (h.deliver d).2.filterMap Effect.range = []

theorem FeedHandler.deliver_unsequenced (h : FeedHandler) (hno : ¬ (d.Framed ∧ d.seq ≠ 0)) : Unsequenced h d := by
  have hemits := h.deliver_emits d
  obtain ⟨hbook, hgap, -, -⟩ := h.deliver_replays d
  by_cases hframed : d.Framed
  · have hseq : d.seq = 0 := not_not.mp (fun hne => hno ⟨hframed, hne⟩)
    have hfx := hemits.of_bootstrap hframed hseq
    have hstale := h.deliver_not_stale hframed (hfx ▸ List.cons_ne_nil _ _)
    rw [hfx] at hbook hgap
    refine ⟨hbook, hgap.trans (if_pos hseq), hstale, ?_⟩
    rw [hfx]
    rfl
  · have hfx := hemits.of_unframed hframed
    have hlen : d.data.length < transportHeaderSize + 2 := Nat.lt_of_not_le hframed
    have hshort : d.frame.length < 2 := by
      rw [Delivery.frame, List.length_drop]
      omega
    rw [hfx] at hbook hgap
    refine ⟨?_, hgap, ?_, ?_⟩
    · rw [hbook, receive_short _ hshort]
      rfl
    · rw [FeedHandler.deliver, onDatagram, if_pos hlen]
    · rw [hfx]
      rfl

end Datagram

/-! ## Skipping gaps -/

/-- The ranges that were pushed for a locate. -/
def rangesOf (loc : StockLocate) (gaps : List GapRange) : List (ℕ × ℕ) :=
  (gaps.filter (fun r => r.loc = loc)).map (fun r => (r.firstMissing.toNat, r.lastMissing.toNat))

theorem rangesOf_append (loc : StockLocate) (gaps more : List GapRange) :
    rangesOf loc (gaps ++ more) = rangesOf loc gaps ++ rangesOf loc more := by
  rw [rangesOf, List.filter_append, List.map_append, rangesOf, rangesOf]

theorem length_ranges (t : List Effect) : (t.filterMap Effect.range).length = t.countP Effect.isReport := by
  induction t with
  | nil => rfl
  | cons x t ih =>
    cases x with
    | gapReported loc first last =>
      rw [List.countP_cons_of_pos rfl, ← ih]
      rfl
    | installed snap | decoded loc seq frame =>
      rw [List.countP_cons_of_neg Bool.false_ne_true, ← ih]
      rfl

/-- A handler that has skipped through a capture, with the ranges that it reported. -/
structure SkippedThrough (h : FeedHandler) (depth : ℕ) (feed : List (List UInt8)) (t : List Effect) : Prop where
  book : h.book = decodeDirect depth feed
  stale : h.stats.staleMsgs = 0
  tracked : ∀ loc, h.gap.expected_[loc]? = follower (carried loc feed)
  ranges : ∀ loc, rangesOf loc (t.filterMap Effect.range) = holes (carried loc feed)

theorem follower_concat (ns : List ℕ) (seq : SequenceNumber) : follower (ns ++ [seq.toNat]) = some (seq + 1) := by
  rw [follower, List.getLast?_append, List.getLast?_singleton, Option.some_or, Option.map_some, UInt64.ofNat_add,
    UInt64.ofNat_toNat]
  rfl

theorem decodeDirect_concat (depth : ℕ) (feed : List (List UInt8)) (d : Delivery) :
    decodeDirect depth (feed ++ [d.data]) = (decodeDirect depth feed).receive d.frame := by
  rw [decodeDirect, List.foldl_append, decodeDirect]
  rfl

namespace SkippedThrough
variable {h : FeedHandler} {depth : ℕ} {feed : List (List UInt8)} {t : List Effect} {d : Delivery}

theorem start (depth : ℕ) (skip : Bool) : SkippedThrough (FeedHandler.new depth skip) depth [] [] := by
  refine ⟨rfl, rfl, fun loc => ?_, fun loc => rfl⟩
  simp [FeedHandler.new, GapDetector.new, carried, follower]

/-- A sequence is accepted, with a report of the hole below it. -/
theorem accept (hs : SkippedThrough h depth feed t) (hframed : d.Framed) (hseq : d.seq ≠ 0) {below : List (ℕ × ℕ)}
    (hbelow : holes (carried d.loc feed ++ [d.seq.toNat]) = holes (carried d.loc feed) ++ below)
    (hfx : (h.deliver d).2 = [d.accepted] ∧ below = [] ∨
      ∃ e, (h.deliver d).2 = [missing d.loc e d.seq, d.accepted] ∧ below = [(e.toNat, (d.seq - 1).toNat)]) :
    SkippedThrough (h.deliver d).1 depth (feed ++ [d.data]) (t ++ (h.deliver d).2) := by
  obtain ⟨hbook, hgap, -, -⟩ := h.deliver_replays d
  have heffects : (h.deliver d).2 ≠ [] ∧ (h.deliver d).2.foldl Effect.onBook h.book = h.book.receive d.frame ∧
      (h.deliver d).2.foldl Effect.onGap h.gap = h.gap.setExpected d.loc (d.seq + 1) ∧
      ∀ loc, rangesOf loc ((h.deliver d).2.filterMap Effect.range) = if d.loc = loc then below else [] := by
    have hon := onGap_accepted hseq h.gap
    rcases hfx with ⟨hfx, rfl⟩ | ⟨e, hfx, rfl⟩
    · rw [hfx]
      exact ⟨List.cons_ne_nil _ _, rfl, hon, fun loc => by rw [ite_self]; rfl⟩
    · rw [hfx]
      refine ⟨List.cons_ne_nil _ _, rfl, hon, fun loc => ?_⟩
      by_cases hloc : d.loc = loc
      · simp [rangesOf, missing, Effect.range, Delivery.accepted, hloc]
      · simp [rangesOf, missing, Effect.range, Delivery.accepted, hloc]
  obtain ⟨hne, hreceived, hset, hranges⟩ := heffects
  have hcarried (loc : StockLocate) := @carried_sequenced feed d hframed hseq loc
  refine ⟨?_, ?_, fun loc => ?_, fun loc => ?_⟩
  · rw [hbook, hreceived, hs.book, decodeDirect_concat]
  · exact (h.deliver_not_stale hframed hne).trans hs.stale
  · rw [hgap, hset, GapDetector.lookup_setExpected, hcarried]
    by_cases hloc : d.loc = loc
    · rw [if_pos hloc.symm, if_pos hloc, follower_concat]
    · rw [if_neg (Ne.symm hloc), if_neg hloc, hs.tracked]
  · rw [List.filterMap_append, rangesOf_append, hs.ranges, hranges, hcarried]
    by_cases hloc : d.loc = loc
    · subst hloc
      rw [if_pos rfl, if_pos rfl, hbelow]
    · rw [if_neg hloc, if_neg hloc, List.append_nil]

/-- One datagram of a capture whose locates count upwards. -/
theorem deliver (hs : SkippedThrough h depth feed t) (hskip : h.skipGaps = true) (hrequester : d.requester = none)
    (hrising : Rising (feed ++ [d.data])) :
    SkippedThrough (h.deliver d).1 depth (feed ++ [d.data]) (t ++ (h.deliver d).2) := by
  by_cases hboth : d.Framed ∧ d.seq ≠ 0
  · obtain ⟨hframed, hseq⟩ := hboth
    have hemits := h.deliver_emits d
    rw [hskip] at hemits
    have hexpected := hs.tracked d.loc
    rcases hlast : (carried d.loc feed).getLast? with _ | n
    · rw [follower, hlast] at hexpected
      have hfirst : holes (carried d.loc feed ++ [d.seq.toNat]) = holes (carried d.loc feed) ++ [] := by
        rw [List.getLast?_eq_none_iff.mp hlast]
        rfl
      refine hs.accept hframed hseq hfirst (Or.inl ⟨hemits.of_next hframed (fun e hold => ?_), rfl⟩)
      rw [hexpected] at hold
      cases hold
    · obtain ⟨hlt, hvalue⟩ := hrising.above_last hframed hseq hlast
      rw [follower, hlast, Option.map_some] at hexpected
      have hpred := toNat_pred hseq
      refine hs.accept hframed hseq (holes_concat hlast _) ?_
      by_cases hhole : n + 1 < d.seq.toNat
      · rw [if_pos hhole]
        have hopens : Opens h.gap d (UInt64.ofNat (n + 1)) :=
          ⟨hframed, hseq, hexpected, UInt64.lt_iff_toNat_lt.mpr (by rw [hvalue]; exact hhole)⟩
        refine Or.inr ⟨_, hemits.of_hole hrequester hopens, ?_⟩
        rw [hvalue]
        congr 2
        omega
      · rw [if_neg hhole]
        refine Or.inl ⟨hemits.of_next hframed (fun e hold => ?_), rfl⟩
        rw [hexpected] at hold
        cases hold
        apply UInt64.toNat_inj.mp
        omega
  · obtain ⟨hbook, hgap, hstale, hranges⟩ := h.deliver_unsequenced hboth
    refine ⟨?_, hstale.trans hs.stale, fun loc => ?_, fun loc => ?_⟩
    · rw [hbook, hs.book, decodeDirect_concat]
    · rw [hgap, carried_unsequenced hboth, hs.tracked]
    · rw [List.filterMap_append, hranges, List.append_nil, carried_unsequenced hboth, hs.ranges]

theorem run (depth : ℕ) {feed : List (List UInt8)} (h : Rising feed) :
    SkippedThrough ((FeedHandler.new depth true).feed (deliveries feed)).1 depth feed
      ((FeedHandler.new depth true).feed (deliveries feed)).2 := by
  induction feed using List.reverseRecOn with
  | nil => exact start depth true
  | append_singleton feed data ih =>
    have hskip := ((FeedHandler.new depth true).feed_replays (deliveries feed)).skipGaps
    rw [deliveries, List.map_append, List.map_singleton, ← deliveries, feed_concat]
    exact (ih (h.of_prefix (List.prefix_append _ _))).deliver hskip rfl h

end SkippedThrough

theorem Rising.limited {feed : List (List UInt8)} (h : Rising feed) (stopAfter n : ℕ) :
    Rising (limited stopAfter n feed) := by
  unfold MdfeedItch.limited
  split_ifs
  · exact h
  · exact h.of_prefix (List.take_prefix _ _)

/-- On a capture whose locates count upwards, the replay that skips gaps takes the records up to its limit,
builds the books that the reference decodes from them, and reports exactly the holes of every locate. -/
theorem replay_skips_holes {lib : Libpcap} (hlib : lib.ReadsCaptures) {c : CaptureFormat.Capture} (hc : c.WellFormed)
    (hrising : Rising (payloadsOf c.records)) (stopAfter passes : ℕ) (hp : passes > c.records.length) :
    let feed := limited stopAfter 0 (payloadsOf c.records)
    ∃ s, pcapReplay lib c.bytes stopAfter true passes = .ok (some s) ∧ s.replayed = feed.length ∧
      s.handler.book = feed.foldl referenceStep (DepthBook.new 10) ∧
      referenceBookFromPcap lib c.bytes passes =
        .ok (some ((payloadsOf c.records).foldl referenceStep (DepthBook.new 10))) ∧
      s.handler.stats.staleMsgs = 0 ∧ s.handler.stats.gapsDetected = UInt64.ofNat s.gaps.length ∧
      ∀ loc, rangesOf loc s.gaps = holes (carried loc feed) := by
  intro feed
  have hs := SkippedThrough.run 10 (hrising.limited stopAfter 0)
  have hreported := ((FeedHandler.new 10 true).feed_replays (deliveries feed)).reported
  refine ⟨_, pcapReplay_capture hlib hc stopAfter true hp, rfl, ?_, ?_, hs.stale, ?_, hs.ranges⟩
  · rw [foldl_referenceStep]
    exact hs.book
  · rw [foldl_referenceStep]
    exact referenceBook_capture hlib hc hp
  · rw [length_ranges]
    exact hreported.trans (UInt64.zero_add _)

/-- Orders 7, 8 and 9 of locate 1 with the sequences 1, 3 and 4, written to a file. -/
def holedCapture : CaptureFormat.Capture :=
  ⟨kSnapLen, [Datagram.mk (addDatagram 1 7) 0 26400, ⟨addDatagram 3 8, 100, 26400⟩, ⟨addDatagram 4 9, 200, 26400⟩].map
    Datagram.record⟩

theorem holedCapture_rising : holedCapture.WellFormed ∧
    payloadsOf holedCapture.records = [addDatagram 1 7, addDatagram 3 8, addDatagram 4 9] ∧
    Rising (payloadsOf holedCapture.records) := by
  have hfits : ∀ d ∈ [Datagram.mk (addDatagram 1 7) 0 26400, ⟨addDatagram 3 8, 100, 26400⟩,
      ⟨addDatagram 4 9, 200, 26400⟩], d.Fits := by
    intro d hd
    simp only [List.mem_cons, List.not_mem_nil, or_false] at hd
    rcases hd with rfl | rfl | rfl <;> exact ⟨by decide, by decide, by decide⟩
  have hpayloads := payloadsOf_written hfits
  refine ⟨fun r hr => ?_, hpayloads, ?_⟩
  · obtain ⟨d, hd, rfl⟩ := List.mem_map.mp hr
    exact wellFormed_record (hfits d hd)
  · rw [holedCapture, hpayloads]
    have hall : ∀ data ∈ [addDatagram 1 7, addDatagram 3 8, addDatagram 4 9], readLocate data = 1 := by decide
    exact Rising.of_locate hall (by decide)

/-- The sequence 2 is missing. -/
theorem one_hole_skipped : ∃ s, pcapReplay Libpcap.plain holedCapture.bytes 0 true 4 = .ok (some s) ∧
    s.replayed = 3 ∧ rangesOf 1 s.gaps = [(2, 2)] := by
  obtain ⟨hc, hpayloads, hrising⟩ := holedCapture_rising
  obtain ⟨s, hs, hcount, -, -, -, -, hranges⟩ :=
    replay_skips_holes Libpcap.plain_readsCaptures hc hrising 0 4 (by decide)
  refine ⟨s, hs, ?_, ?_⟩
  · rw [hcount, limited, if_pos rfl, hpayloads]
    rfl
  · rw [hranges, limited, if_pos rfl, hpayloads]
    decide

/-! ## Standing still -/

/-- The datagrams that come before the first hole of their locate; those without a sequence always do. -/
def beforeHoles (seen : List (List UInt8)) : List (List UInt8) → List (List UInt8)
  | [] => []
  | data :: rest =>
    if transportHeaderSize + 2 ≤ data.length ∧ readSequence data ≠ 0 →
        holes (carried (readLocate data) (seen ++ [data])) = [] then data :: beforeHoles (seen ++ [data]) rest
    else beforeHoles (seen ++ [data]) rest

/-- What a locate reports that stands still: from its first hole up to each later sequence. -/
def standing (ns : List ℕ) : List (ℕ × ℕ) :=
  match holes ns with
  | [] => []
  | hole :: _ => (ns.filter (fun n => hole.1 ≤ n)).map (fun n => (hole.1, n - 1))

/-- A sequence above the others is reported by a locate that has a hole. -/
theorem standing_concat {ns : List ℕ} {b last : ℕ} (hinc : ns.Pairwise (· < ·)) (hlast : ns.getLast? = some last)
    (hlt : last < b) {hole : ℕ × ℕ} {more : List (ℕ × ℕ)} (h : holes (ns ++ [b]) = hole :: more) :
    standing (ns ++ [b]) = standing ns ++ [(hole.1, b - 1)] := by
  have hnext := holes_concat hlast b
  rw [h] at hnext
  rw [standing, h]
  dsimp only
  rw [List.filter_append, List.map_append, standing]
  rcases hholes : holes ns with _ | ⟨first, rest⟩
  · -- the new hole is the first one, and the others are below it
    rw [hholes, List.nil_append] at hnext
    split_ifs at hnext with hhole
    cases hnext
    have hbelow : ns.filter (fun n => last + 1 ≤ n) = [] := by
      rw [List.filter_eq_nil_iff]
      intro n hn
      have hle := le_last hinc hlast hn
      simp only [decide_eq_true_eq]
      omega
    rw [hbelow, List.filter_singleton, decide_eq_true (show last + 1 ≤ b by omega)]
    rfl
  · rw [hholes, List.cons_append] at hnext
    cases hnext
    have hmem : hole ∈ holes ns := by
      rw [hholes]
      exact List.mem_cons_self ..
    have hin := hole_lt_last hinc hlast hmem
    rw [List.filter_singleton, decide_eq_true (show hole.1 ≤ b by omega)]
    rfl

theorem beforeHoles_concat (seen feed : List (List UInt8)) (data : List UInt8) :
    beforeHoles seen (feed ++ [data]) = beforeHoles seen feed ++
      if transportHeaderSize + 2 ≤ data.length ∧ readSequence data ≠ 0 →
        holes (carried (readLocate data) (seen ++ feed ++ [data])) = [] then [data] else [] := by
  induction feed generalizing seen with
  | nil => simp only [List.nil_append, List.append_nil, beforeHoles]
  | cons first feed ih =>
    have hseen : seen ++ [first] ++ feed ++ [data] = seen ++ first :: feed ++ [data] := by simp
    rw [List.cons_append, beforeHoles, beforeHoles, ih, hseen]
    by_cases hkept : transportHeaderSize + 2 ≤ first.length ∧ readSequence first ≠ 0 →
        holes (carried (readLocate first) (seen ++ [first])) = []
    · rw [if_pos hkept, if_pos hkept, List.cons_append]
    · rw [if_neg hkept, if_neg hkept]

/-- The expected sequence of a locate: its first missing one, if there is a hole. -/
def standsAt (ns : List ℕ) : Option SequenceNumber :=
  match holes ns with
  | [] => follower ns
  | hole :: _ => some (UInt64.ofNat hole.1)

/-- A handler that has gone through a capture without a way to recover. -/
structure StoodThrough (h : FeedHandler) (depth : ℕ) (feed : List (List UInt8)) (t : List Effect) : Prop where
  book : h.book = decodeDirect depth (beforeHoles [] feed)
  stale : h.stats.staleMsgs = 0
  refused : t.countP Effect.isReport + (beforeHoles [] feed).length = feed.length
  tracked : ∀ loc, h.gap.expected_[loc]? = standsAt (carried loc feed)
  ranges : ∀ loc, rangesOf loc (t.filterMap Effect.range) = standing (carried loc feed)

namespace StoodThrough
variable {h : FeedHandler} {depth : ℕ} {feed : List (List UInt8)} {t : List Effect} {d : Delivery}

theorem start (depth : ℕ) (skip : Bool) : StoodThrough (FeedHandler.new depth skip) depth [] [] := by
  refine ⟨rfl, rfl, rfl, fun loc => ?_, fun loc => rfl⟩
  simp [FeedHandler.new, GapDetector.new, carried, standsAt, follower]

/-- The next sequence of a locate that has no hole. -/
theorem accept (hs : StoodThrough h depth feed t) (hframed : d.Framed) (hseq : d.seq ≠ 0)
    (hnone : holes (carried d.loc feed ++ [d.seq.toNat]) = []) (hfx : (h.deliver d).2 = [d.accepted]) :
    StoodThrough (h.deliver d).1 depth (feed ++ [d.data]) (t ++ (h.deliver d).2) := by
  have hcarried (loc : StockLocate) := @carried_sequenced feed d hframed hseq loc
  have hkept : beforeHoles [] (feed ++ [d.data]) = beforeHoles [] feed ++ [d.data] := by
    have hhole : transportHeaderSize + 2 ≤ d.data.length ∧ readSequence d.data ≠ 0 →
        holes (carried (readLocate d.data) ([] ++ feed ++ [d.data])) = [] := by
      intro _
      have hhere := hcarried d.loc
      rw [if_pos rfl] at hhere
      exact (congrArg holes hhere).trans hnone
    rw [beforeHoles_concat, if_pos hhole]
  have hbefore : holes (carried d.loc feed) = [] := holes_of_concat hnone
  obtain ⟨hbook, hgap, -, -⟩ := h.deliver_replays d
  have hstale := h.deliver_not_stale hframed (hfx ▸ List.cons_ne_nil _ _)
  rw [hfx] at hbook hgap ⊢
  refine ⟨?_, hstale.trans hs.stale, ?_, fun loc => ?_, fun loc => ?_⟩
  · rw [hkept, decodeDirect_concat, ← hs.book]
    exact hbook
  · have hcount := hs.refused
    have hzero : [d.accepted].countP Effect.isReport = 0 := rfl
    rw [hkept, List.countP_append, hzero, List.length_append, List.length_append, List.length_singleton]
    omega
  · rw [hgap, List.foldl_cons, List.foldl_nil, onGap_accepted hseq, GapDetector.lookup_setExpected, hcarried]
    by_cases hloc : d.loc = loc
    · subst hloc
      rw [if_pos rfl, if_pos rfl, standsAt, hnone, follower_concat]
    · rw [if_neg (Ne.symm hloc), if_neg hloc, hs.tracked]
  · rw [List.filterMap_append, rangesOf_append, hs.ranges, hcarried]
    by_cases hloc : d.loc = loc
    · subst hloc
      rw [if_pos rfl, standing, standing, hnone, hbefore]
      rfl
    · rw [if_neg hloc]
      exact List.append_nil _

/-- A sequence above the first missing one. -/
theorem refuse (hs : StoodThrough h depth feed t) (hframed : d.Framed) (hseq : d.seq ≠ 0) {hole : ℕ × ℕ}
    {more : List (ℕ × ℕ)} (hholes : holes (carried d.loc feed ++ [d.seq.toNat]) = hole :: more)
    (hvalue : (UInt64.ofNat hole.1).toNat = hole.1) (hold : standsAt (carried d.loc feed) = some (UInt64.ofNat hole.1))
    (hreports : standing (carried d.loc feed ++ [d.seq.toNat]) =
      standing (carried d.loc feed) ++ [(hole.1, d.seq.toNat - 1)])
    (hfx : (h.deliver d).2 = [missing d.loc (UInt64.ofNat hole.1) d.seq]) :
    StoodThrough (h.deliver d).1 depth (feed ++ [d.data]) (t ++ (h.deliver d).2) := by
  have hcarried (loc : StockLocate) := @carried_sequenced feed d hframed hseq loc
  have hkept : beforeHoles [] (feed ++ [d.data]) = beforeHoles [] feed := by
    have hhole : holes (carried d.loc (feed ++ [d.data])) ≠ [] := by
      rw [hcarried, if_pos rfl, hholes]
      exact List.cons_ne_nil _ _
    rw [beforeHoles_concat, if_neg (fun hall => hhole (hall ⟨hframed, hseq⟩)), List.append_nil]
  obtain ⟨hbook, hgap, -, -⟩ := h.deliver_replays d
  have hstale := h.deliver_not_stale hframed (hfx ▸ List.cons_ne_nil _ _)
  have hpred := toNat_pred hseq
  rw [hfx] at hbook hgap ⊢
  refine ⟨?_, hstale.trans hs.stale, ?_, fun loc => ?_, fun loc => ?_⟩
  · rw [hkept, ← hs.book]
    exact hbook
  · have hcount := hs.refused
    have hone : [missing d.loc (UInt64.ofNat hole.1) d.seq].countP Effect.isReport = 1 := rfl
    rw [hkept, List.countP_append, hone, List.length_append, List.length_singleton]
    omega
  · rw [hgap, hcarried]
    by_cases hloc : d.loc = loc
    · subst hloc
      rw [if_pos rfl, standsAt, hholes]
      exact (hs.tracked d.loc).trans hold
    · rw [if_neg hloc]
      exact hs.tracked loc
  · rw [List.filterMap_append, rangesOf_append, hs.ranges, hcarried]
    by_cases hloc : d.loc = loc
    · subst hloc
      rw [if_pos rfl, hreports]
      congr 1
      simp [rangesOf, missing, Effect.range, hvalue]
      omega
    · rw [if_neg hloc]
      simp [rangesOf, missing, Effect.range, hloc]

/-- One datagram of a capture whose locates count upwards. -/
theorem deliver (hs : StoodThrough h depth feed t) (hskip : h.skipGaps = false) (hrequester : d.requester = none)
    (hrising : Rising (feed ++ [d.data])) :
    StoodThrough (h.deliver d).1 depth (feed ++ [d.data]) (t ++ (h.deliver d).2) := by
  by_cases hboth : d.Framed ∧ d.seq ≠ 0
  · obtain ⟨hframed, hseq⟩ := hboth
    have hemits := h.deliver_emits d
    rw [hskip] at hemits
    have hexpected := hs.tracked d.loc
    have hinc := (hrising.of_prefix (List.prefix_append _ _)) d.loc
    rcases hlast : (carried d.loc feed).getLast? with _ | n
    · have hnil := List.getLast?_eq_none_iff.mp hlast
      rw [standsAt, hnil] at hexpected
      refine hs.accept hframed hseq (by rw [hnil]; rfl) (hemits.of_next hframed (fun e hold => ?_))
      cases hexpected.symm.trans hold
    · obtain ⟨hlt, hvalue⟩ := hrising.above_last hframed hseq hlast
      have hnext := holes_concat hlast d.seq.toNat
      rcases hholes : holes (carried d.loc feed) with _ | ⟨hole, more⟩
      · rw [standsAt, hholes] at hexpected
        dsimp only at hexpected
        rw [follower, hlast, Option.map_some] at hexpected
        rw [hholes, List.nil_append] at hnext
        by_cases hgap : n + 1 < d.seq.toNat
        · rw [if_pos hgap] at hnext
          have hopens : Opens h.gap d (UInt64.ofNat (n + 1)) :=
            ⟨hframed, hseq, hexpected, UInt64.lt_iff_toNat_lt.mpr (by rw [hvalue]; exact hgap)⟩
          refine hs.refuse hframed hseq hnext hvalue ?_ ?_ (hemits.of_standing hrequester hopens)
          · rw [← hs.tracked d.loc]
            exact hexpected
          · exact standing_concat hinc hlast hlt hnext
        · rw [if_neg hgap] at hnext
          refine hs.accept hframed hseq hnext (hemits.of_next hframed (fun e hold => ?_))
          rw [hexpected] at hold
          cases hold
          apply UInt64.toNat_inj.mp
          omega
      · have hbelow : hole.1 < n := hole_lt_last hinc hlast (by rw [hholes]; exact List.mem_cons_self ..)
        have hfits : (UInt64.ofNat hole.1).toNat = hole.1 := by
          have hmax := d.seq.toNat_lt
          exact UInt64.toNat_ofNat_of_lt' (show hole.1 < 2 ^ 64 by omega)
        rw [standsAt, hholes] at hexpected
        rw [hholes, List.cons_append] at hnext
        have hopens : Opens h.gap d (UInt64.ofNat hole.1) :=
          ⟨hframed, hseq, hexpected, UInt64.lt_iff_toNat_lt.mpr (by rw [hfits]; omega)⟩
        refine hs.refuse hframed hseq hnext hfits ?_ (standing_concat hinc hlast hlt hnext)
          (hemits.of_standing hrequester hopens)
        rw [standsAt, hholes]
  · obtain ⟨hbook, hgap, hstale, hranges⟩ := h.deliver_unsequenced hboth
    have hkept : beforeHoles [] (feed ++ [d.data]) = beforeHoles [] feed ++ [d.data] := by
      have hfree : transportHeaderSize + 2 ≤ d.data.length ∧ readSequence d.data ≠ 0 →
          holes (carried (readLocate d.data) ([] ++ feed ++ [d.data])) = [] := fun hall => absurd hall hboth
      rw [beforeHoles_concat, if_pos hfree]
    refine ⟨?_, hstale.trans hs.stale, ?_, fun loc => ?_, fun loc => ?_⟩
    · rw [hbook, hs.book, hkept, decodeDirect_concat]
    · have hcount := hs.refused
      rw [hkept, ← length_ranges, List.filterMap_append, hranges, List.append_nil, length_ranges, List.length_append,
        List.length_append, List.length_singleton]
      omega
    · rw [hgap, carried_unsequenced hboth, hs.tracked]
    · rw [List.filterMap_append, hranges, List.append_nil, carried_unsequenced hboth, hs.ranges]

theorem run (depth : ℕ) {feed : List (List UInt8)} (h : Rising feed) :
    StoodThrough ((FeedHandler.new depth false).feed (deliveries feed)).1 depth feed
      ((FeedHandler.new depth false).feed (deliveries feed)).2 := by
  induction feed using List.reverseRecOn with
  | nil => exact start depth false
  | append_singleton feed data ih =>
    have hskip := ((FeedHandler.new depth false).feed_replays (deliveries feed)).skipGaps
    rw [deliveries, List.map_append, List.map_singleton, ← deliveries, feed_concat]
    exact (ih (h.of_prefix (List.prefix_append _ _))).deliver hskip rfl h

end StoodThrough

/-- Without `--skip-gaps` every locate stands still at its first hole: what comes before it builds the books, each
datagram behind it is refused, and a report from the hole up to it is all that is left of it. -/
theorem replay_stands_at_holes {lib : Libpcap} (hlib : lib.ReadsCaptures) {c : CaptureFormat.Capture} (hc : c.WellFormed)
    (hrising : Rising (payloadsOf c.records)) (stopAfter passes : ℕ) (hp : passes > c.records.length) :
    let feed := limited stopAfter 0 (payloadsOf c.records)
    ∃ s, pcapReplay lib c.bytes stopAfter false passes = .ok (some s) ∧ s.replayed = feed.length ∧
      s.handler.book = (beforeHoles [] feed).foldl referenceStep (DepthBook.new 10) ∧
      s.handler.stats.staleMsgs = 0 ∧ s.handler.stats.gapsDetected = UInt64.ofNat s.gaps.length ∧
      s.gaps.length + (beforeHoles [] feed).length = feed.length ∧
      ∀ loc, rangesOf loc s.gaps = standing (carried loc feed) := by
  intro feed
  have hs := StoodThrough.run 10 (hrising.limited stopAfter 0)
  have hreported := ((FeedHandler.new 10 false).feed_replays (deliveries feed)).reported
  refine ⟨_, pcapReplay_capture hlib hc stopAfter false hp, rfl, ?_, hs.stale, ?_, ?_, hs.ranges⟩
  · rw [foldl_referenceStep]
    exact hs.book
  · rw [length_ranges]
    exact hreported.trans (UInt64.zero_add _)
  · rw [length_ranges]
    exact hs.refused

/-- Both datagrams behind the hole are refused. -/
theorem one_hole_stands : ∃ s, pcapReplay Libpcap.plain holedCapture.bytes 0 false 4 = .ok (some s) ∧
    s.handler.book = referenceStep (DepthBook.new 10) (addDatagram 1 7) ∧ rangesOf 1 s.gaps = [(2, 2), (2, 3)] := by
  obtain ⟨hc, hpayloads, hrising⟩ := holedCapture_rising
  obtain ⟨s, hs, -, hbook, -, -, -, hranges⟩ :=
    replay_stands_at_holes Libpcap.plain_readsCaptures hc hrising 0 4 (by decide)
  have hkept : beforeHoles [] [addDatagram 1 7, addDatagram 3 8, addDatagram 4 9] = [addDatagram 1 7] := by decide
  refine ⟨s, hs, ?_, ?_⟩
  · rw [hbook, limited, if_pos rfl, hpayloads, hkept]
    rfl
  · rw [hranges, limited, if_pos rfl, hpayloads]
    decide

end MdfeedItch
