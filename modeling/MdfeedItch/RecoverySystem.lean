import MdfeedItch.SequenceAdmission

/-! # A feed with its recovery channel

The setting of `tests/integration/gap_fill_test.cpp` and `docs/gap-fill-recovery.md`:
a publisher that keeps a shadow of its own books, a snapshot provider that reads
them, and a feed handler that hears the datagrams over a network which may lose,
repeat and reorder them. The publisher runs on its own thread, but a request only
reads the shadow under its lock; so whatever is published during a request may be
taken as published before it. -/
namespace MdfeedItch
open Std FiniteMapSums FeedHandler

/-- The message that a datagram carries behind its transport header. -/
def payloadMessage (data : List UInt8) : Option AnyMessage := (decodeFrame (data.drop transportHeaderSize)).message

/-- The shadow book with what a snapshot says beside it. -/
structure Shadow where
  book : DepthBook
  lastSeqByLoc : ExtTreeMap StockLocate SequenceNumber
  symByLoc : ExtTreeMap StockLocate Symbol

namespace Shadow

/-- The publisher's update before it sends a datagram. -/
def update (s : Shadow) (data : List UInt8) : Shadow :=
  match payloadMessage data with
  | none => s
  | some m => { s with
    book := (s.book.apply m).book
    lastSeqByLoc := s.lastSeqByLoc.insert (readLocate data) (readSequence data) }

/-- The snapshot provider. A locate without a symbol gets a response that is empty but for the locate. -/
def provider (s : Shadow) (req : SnapshotRequest) : SnapshotResponse :=
  match s.symByLoc[req.stockLocate]? with
  | none => ⟨req.stockLocate, 0, Vector.replicate 8 0, [], []⟩
  | some sym =>
    let lastSeq := (s.lastSeqByLoc[req.stockLocate]?).getD 0
    match s.book.find sym with
    | none => ⟨req.stockLocate, lastSeq, sym, [], []⟩
    | some b => ⟨req.stockLocate, lastSeq, sym, b.topBids, b.topAsks⟩

end Shadow

structure RecoverySystem where
  shadow : Shadow
  /-- The numbered datagrams sent so far; the network may hand over any of them at any time. -/
  published : List (List UInt8)
  handler : FeedHandler

/-- The steps of the system. The connection to the snapshot server may fail for a datagram. -/
inductive RecoveryAction
  | publish (data : List UInt8)
  | directory (data : List UInt8)
  | deliver (i : ℕ) (answered : Bool)
  | resync (loc : StockLocate)

namespace RecoverySystem

/-- Streams may be started at their first sequence before anything is heard. -/
def new (depth : ℕ) (skip : Bool) (symByLoc : ExtTreeMap StockLocate Symbol) (started : List StockLocate) :
    RecoverySystem where
  shadow := ⟨DepthBook.new depth, ∅, symByLoc⟩
  published := []
  handler := { FeedHandler.new depth skip with gap := started.foldl (fun g loc => g.start loc) GapDetector.new }

/-- The requester of the handler: the provider's answer, if the connection works. -/
def requester (s : RecoverySystem) (answered : Bool) : RecoveryRequester := fun req =>
  if answered then some (s.shadow.provider req) else none

/-- A datagram with the requester it finds. -/
def delivery (s : RecoverySystem) (data : List UInt8) (answered : Bool) : Delivery := ⟨data, some (s.requester answered)⟩

def hand (s : RecoverySystem) (data : List UInt8) (answered : Bool) : RecoverySystem × List Effect :=
  let result := s.handler.deliver (s.delivery data answered)
  ({ s with handler := result.1 }, result.2)

def step (s : RecoverySystem) : RecoveryAction → RecoverySystem × List Effect
  | .publish data => ({ s with shadow := s.shadow.update data, published := s.published ++ [data] }, [])
  | .directory data => s.hand data true
  | .deliver i answered =>
    match s.published[i]? with
    | none => (s, [])
    | some data => s.hand data answered
  -- a snapshot on demand, as at the end of the test
  | .resync loc =>
    let snap := s.shadow.provider ⟨loc, 0⟩
    ({ s with handler := s.handler.applySnapshot snap }, [.installed snap])

/-- The system after a list of steps, with everything that the handler passed on. -/
def run (s : RecoverySystem) (acts : List RecoveryAction) : RecoverySystem × List Effect := TraceRuns.run step s acts

theorem run_concat (s : RecoverySystem) (acts : List RecoveryAction) (a : RecoveryAction) :
    s.run (acts ++ [a]) = (((s.run acts).1.step a).1, (s.run acts).2 ++ ((s.run acts).1.step a).2) :=
  TraceRuns.run_concat step s acts a

/-- What is published stays published. -/
theorem published_step (s : RecoverySystem) (a : RecoveryAction) : s.published <+: (s.step a).1.published := by
  cases a with
  | publish data => exact List.prefix_append _ _
  | directory data => exact List.prefix_refl _
  | deliver i answered =>
    simp only [step]
    split <;> exact List.prefix_refl _
  | resync loc => exact List.prefix_refl _

end RecoverySystem

/-- The datagrams of a locate. -/
def onLocate (loc : StockLocate) (published : List (List UInt8)) : List (List UInt8) :=
  published.filter (fun data => readLocate data = loc)

/-- The messages of a locate. -/
def messagesOn (loc : StockLocate) (published : List (List UInt8)) : List AnyMessage :=
  (onLocate loc published).filterMap payloadMessage

/-- Every datagram carries a message, and those of a locate are numbered from 1. -/
structure NumberedFeed (published : List (List UInt8)) : Prop where
  framed : ∀ data ∈ published, transportHeaderSize + 2 ≤ data.length
  decodes : ∀ data ∈ published, (payloadMessage data).isSome
  numbered : ∀ loc, (onLocate loc published).map (fun data => (readSequence data).toNat) =
    List.range' 1 (onLocate loc published).length
  small : ∀ loc, (onLocate loc published).length < maxSequence.toNat

section Streams
variable {published : List (List UInt8)} {data : List UInt8} {loc : StockLocate}

theorem onLocate_concat (loc : StockLocate) (published : List (List UInt8)) (data : List UInt8) :
    onLocate loc (published ++ [data]) =
      if readLocate data = loc then onLocate loc published ++ [data] else onLocate loc published := by
  rw [onLocate, List.filter_append]
  by_cases hl : readLocate data = loc
  · rw [if_pos hl, List.filter_singleton]
    simp [hl, onLocate]
  · rw [if_neg hl, List.filter_singleton]
    simp [hl, onLocate]

theorem messagesOn_concat (loc : StockLocate) (published : List (List UInt8)) (data : List UInt8) :
    messagesOn loc (published ++ [data]) =
      messagesOn loc published ++ if readLocate data = loc then (payloadMessage data).toList else [] := by
  rw [messagesOn, onLocate_concat]
  split_ifs
  · rw [List.filterMap_append]
    cases hm : payloadMessage data <;> simp [messagesOn, hm]
  · rw [List.append_nil, messagesOn]

theorem NumberedFeed.of_prefix {before : List (List UInt8)} (h : NumberedFeed published) (hpre : before <+: published) :
    NumberedFeed before := by
  have hon : ∀ loc, onLocate loc before <+: onLocate loc published := fun loc => hpre.filter _
  refine ⟨fun data hd => h.framed data (hpre.subset hd), fun data hd => h.decodes data (hpre.subset hd), fun loc => ?_,
    fun loc => (hon loc).length_le.trans_lt (h.small loc)⟩
  have hseqs := (hon loc).map (fun data => (readSequence data).toNat)
  rw [h.numbered loc] at hseqs
  rw [List.prefix_iff_eq_take.mp hseqs, List.length_map]
  exact List.take_range'_of_length_ge (hon loc).length_le

/-- The test that the datagrams of a locate are numbered from 1. -/
def numberedOn (published : List (List UInt8)) (loc : StockLocate) : Bool :=
  (onLocate loc published).map (fun data => (readSequence data).toNat) = List.range' 1 (onLocate loc published).length

/-- A feed of a few locates. -/
theorem NumberedFeed.of_locates {locs : List StockLocate} (hall : ∀ data ∈ published, readLocate data ∈ locs)
    (hframed : ∀ data ∈ published, transportHeaderSize + 2 ≤ data.length)
    (hdecodes : ∀ data ∈ published, (payloadMessage data).isSome)
    (hnumbered : locs.all (numberedOn published) = true)
    (hsmall : published.length < maxSequence.toNat) : NumberedFeed published := by
  refine ⟨hframed, hdecodes, fun loc => ?_, fun loc => (List.length_filter_le _ _).trans_lt hsmall⟩
  by_cases hl : loc ∈ locs
  · exact of_decide_eq_true (List.all_eq_true.mp hnumbered loc hl)
  · have hnil : onLocate loc published = [] :=
      List.filter_eq_nil_iff.mpr (fun data hd hloc => hl (of_decide_eq_true hloc ▸ hall data hd))
    rw [hnil]
    rfl

/-- The messages of a locate are those of its datagrams, one each. -/
theorem NumberedFeed.map_some_messagesOn (h : NumberedFeed published) (loc : StockLocate) :
    (messagesOn loc published).map some = (onLocate loc published).map payloadMessage := by
  have hall : ∀ data ∈ onLocate loc published, (payloadMessage data).isSome := fun data hd =>
    h.decodes data (List.mem_of_mem_filter hd)
  unfold messagesOn
  generalize onLocate loc published = sent at hall ⊢
  induction sent with
  | nil => rfl
  | cons data rest ih =>
    obtain ⟨m, hm⟩ := Option.isSome_iff_exists.mp (hall data (by simp))
    rw [List.filterMap_cons_some hm, List.map_cons, List.map_cons, hm, ih (fun d hd => hall d (by simp [hd]))]

theorem NumberedFeed.length_messagesOn (h : NumberedFeed published) (loc : StockLocate) :
    (messagesOn loc published).length = (onLocate loc published).length := by
  have hlen := congrArg List.length (h.map_some_messagesOn loc)
  rwa [List.length_map, List.length_map] at hlen

/-- A datagram's sequence is the place of its message in the stream of its locate. -/
theorem NumberedFeed.entry (h : NumberedFeed published) (hd : data ∈ published) :
    1 ≤ (readSequence data).toNat ∧ (readSequence data).toNat ≤ (messagesOn (readLocate data) published).length ∧
      (messagesOn (readLocate data) published)[(readSequence data).toNat - 1]? = payloadMessage data := by
  have hon : data ∈ onLocate (readLocate data) published := List.mem_filter.mpr ⟨hd, by simp⟩
  obtain ⟨k, hk, hget⟩ := List.getElem_of_mem hon
  have hseq : (readSequence data).toNat = k + 1 := by
    have hnth := congrArg (fun l => l[k]?) (h.numbered (readLocate data))
    simp only [List.getElem?_map, List.getElem?_eq_getElem hk, hget, Option.map_some] at hnth
    rw [List.getElem?_range' hk] at hnth
    have := Option.some.inj hnth
    omega
  have hmsg := congrArg (fun l => l[k]?) (h.map_some_messagesOn (readLocate data))
  simp only [List.getElem?_map, List.getElem?_eq_getElem hk, hget, Option.map_some] at hmsg
  obtain ⟨m, hm⟩ := Option.isSome_iff_exists.mp (h.decodes data hd)
  rw [hm, Option.map_eq_some_iff] at hmsg
  obtain ⟨m', hm', hsame⟩ := hmsg
  rw [h.length_messagesOn, hseq, Nat.add_sub_cancel, hm', hsame, hm]
  exact ⟨Nat.le_add_left 1 k, hk, rfl⟩

/-- A newly published datagram has the next number and adds its message. -/
theorem NumberedFeed.newest (h : NumberedFeed (published ++ [data])) :
    (readSequence data).toNat = (messagesOn (readLocate data) published).length + 1 ∧
      ∃ m, payloadMessage data = some m ∧
        messagesOn (readLocate data) (published ++ [data]) = messagesOn (readLocate data) published ++ [m] := by
  obtain ⟨m, hm⟩ := Option.isSome_iff_exists.mp (h.decodes data (by simp))
  have hbefore := h.of_prefix (List.prefix_append published [data])
  refine ⟨?_, m, hm, ?_⟩
  · have hlast := congrArg List.getLast? (h.numbered (readLocate data))
    rw [onLocate_concat, if_pos rfl, List.map_append, List.length_append, List.length_singleton, List.range'_1_concat,
      List.map_singleton, List.getLast?_concat, List.getLast?_concat] at hlast
    have := Option.some.inj hlast
    rw [hbefore.length_messagesOn]
    omega
  · rw [messagesOn_concat, if_pos rfl, hm]
    rfl

end Streams

end MdfeedItch
