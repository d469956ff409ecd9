import MdfeedItch.CaptureReplay
import MdfeedItch.GeneratorAgreement

/-! # From the generator through a capture into the handler

`pcap_gen.cpp` writes a run of the generator into a file, with the datagrams of a
range of sequences left out for its second file. Replayed, the whole file ends in the
books of the generator; the other one reports the range on every locate that goes on
behind it. -/
namespace MdfeedItch
open Std FeedHandler MessageGenerator CaptureFormat SequenceHoles

namespace PcapGen

abbrev kMessages : ℕ := 1000
abbrev kGapLo : SequenceNumber := 500
abbrev kGapHi : SequenceNumber := 510
abbrev kDstPort : UInt16 := 46007

structure Datagram where
  bytes : List UInt8
  sequence : SequenceNumber

/-- The announcements of the symbols, then the datagrams of the calls; the program has one symbol
and `kMessages` calls. -/
def generate (numSymbols : ℕ) (cs : List Draws) : Option (List Datagram) := do
  let gen := MessageGenerator.new numSymbols
  let (es, _) ← gen.run cs
  return gen.directoryMessages.map (fun d => ⟨d, 0⟩) ++
    (es.filter (fun e => e.out.length ≠ 0)).map (fun e => ⟨e.out, e.header.sequence⟩)

/-- The condition under which the loop of `write_pcap` leaves a datagram out. -/
def Drops (dropGap : Bool) (gapLo gapHi : SequenceNumber) (d : Datagram) : Prop :=
  dropGap ∧ gapLo ≤ d.sequence ∧ d.sequence ≤ gapHi

instance (dropGap : Bool) (gapLo gapHi : SequenceNumber) (d : Datagram) : Decidable (Drops dropGap gapLo gapHi d) :=
  inferInstanceAs (Decidable (_ ∧ _ ∧ _))

/-- The loop of `write_pcap`; the capture clock also passes for the datagrams that are left out. -/
def writeSlots (disk : Disk) (dropGap : Bool) (gapLo gapHi : SequenceNumber) :
    List Datagram → UInt64 → PcapWriter → Bool × PcapWriter
  | [], _, w => (true, w)
  | d :: ds, tsUs, w =>
    if Drops dropGap gapLo gapHi d then writeSlots disk dropGap gapLo gapHi ds (tsUs + 100) w
    else
      let (ok, w) := w.writeDatagram disk d.bytes tsUs kDstPort
      if ok then writeSlots disk dropGap gapLo gapHi ds (tsUs + 100) w else (false, w)

/-- The program calls it without a gap and with the one from `kGapLo` to `kGapHi`. -/
def writePcap (disk : Disk) (path : String) (fopen : Bool) (datagrams : List Datagram) (dropGap : Bool)
    (gapLo gapHi : SequenceNumber) : Except String PcapWriter :=
  match PcapWriter.openFile disk path fopen with
  | .error err => .error ("pcap_gen: " ++ err)
  | .ok w =>
    let (ok, w) := writeSlots disk dropGap gapLo gapHi datagrams (1700000000 * 1000000) w
    if ok then .ok w else .error ("pcap_gen: write failed for " ++ path)

/-! ## What is written -/

/-- The datagrams that the loop writes, with their times. -/
def scheduled (dropGap : Bool) (gapLo gapHi : SequenceNumber) : List Datagram → UInt64 → List MdfeedItch.Datagram
  | [], _ => []
  | d :: ds, tsUs =>
    if Drops dropGap gapLo gapHi d then scheduled dropGap gapLo gapHi ds (tsUs + 100)
    else ⟨d.bytes, tsUs, kDstPort⟩ :: scheduled dropGap gapLo gapHi ds (tsUs + 100)

section Written
variable {disk : Disk} (dropGap : Bool) (gapLo gapHi : SequenceNumber)

variable {dropGap gapLo gapHi} in
theorem writeSlots_writeAll {ds : List Datagram} {tsUs : UInt64} {w w' : PcapWriter}
    (h : writeSlots disk dropGap gapLo gapHi ds tsUs w = (true, w')) :
    w.writeAll disk (scheduled dropGap gapLo gapHi ds tsUs) = (true, w') := by
  induction ds generalizing tsUs w with
  | nil => exact h
  | cons d ds ih =>
    rw [writeSlots] at h
    rw [scheduled]
    split_ifs at h ⊢ with hdrop
    · exact ih h
    · rw [PcapWriter.writeAll]
      rcases hwrite : w.writeDatagram disk d.bytes tsUs kDstPort with ⟨ok, w₁⟩
      rw [hwrite] at h
      dsimp only at h ⊢
      cases ok with
      | false => cases h
      | true =>
        rw [ih h]
        rfl

theorem scheduled_payloads (ds : List Datagram) (tsUs : UInt64) :
    (scheduled dropGap gapLo gapHi ds tsUs).map MdfeedItch.Datagram.payload =
      (ds.filter (fun d => ¬ Drops dropGap gapLo gapHi d)).map Datagram.bytes := by
  induction ds generalizing tsUs with
  | nil => rfl
  | cons d ds ih =>
    rw [scheduled]
    split_ifs with hdrop
    · rw [ih, List.filter_cons_of_neg (by simpa using hdrop)]
    · rw [List.map_cons, ih, List.filter_cons_of_pos (by simpa using hdrop), List.map_cons]

/-- The times of the datagrams fit, and so do the datagrams if their bytes do. -/
theorem scheduled_fits {ds : List Datagram} (tsUs : UInt64)
    (hsize : ∀ d ∈ ds, 1 ≤ d.bytes.length ∧ d.bytes.length ≤ 65493)
    (htime : tsUs.toNat + 100 * ds.length < 2 ^ 31 * 10 ^ 6) :
    ∀ d ∈ scheduled dropGap gapLo gapHi ds tsUs, d.Fits := by
  induction ds generalizing tsUs with
  | nil => exact fun d hd => absurd hd List.not_mem_nil
  | cons d ds ih =>
    obtain ⟨hd, hds⟩ := List.forall_mem_cons.mp hsize
    rw [List.length_cons] at htime
    have hlater : (tsUs + 100).toNat = tsUs.toNat + 100 := by
      rw [UInt64.toNat_add, show (100 : UInt64).toNat = 100 from rfl]
      exact Nat.mod_eq_of_lt (by omega)
    have hrest := ih (tsUs + 100) hds (by rw [hlater]; omega)
    rw [scheduled]
    split_ifs with hdrop
    · exact hrest
    · exact List.forall_mem_cons.mpr ⟨⟨hd.1, hd.2, show tsUs.toNat < _ by omega⟩, hrest⟩

variable {dropGap gapLo gapHi}

/-- A file that was written completely is a well-formed capture of the datagrams that are not left out. -/
theorem writePcap_capture {path : String} {fopen : Bool} {datagrams : List Datagram} {w : PcapWriter}
    (h : writePcap disk path fopen datagrams dropGap gapLo gapHi = .ok w)
    (hsize : ∀ d ∈ datagrams, 1 ≤ d.bytes.length ∧ d.bytes.length ≤ 65493) (hcount : datagrams.length < 2 ^ 41) :
    ∃ c : CaptureFormat.Capture, w.file = some c.bytes ∧ c.WellFormed ∧ c.records.length ≤ datagrams.length ∧
      payloadsOf c.records = (datagrams.filter (fun d => ¬ Drops dropGap gapLo gapHi d)).map Datagram.bytes := by
  rw [writePcap] at h
  rcases hopen : PcapWriter.openFile disk path fopen with err | w₀
  · rw [hopen] at h
    cases h
  · rw [hopen] at h
    dsimp only at h
    rcases hslots : writeSlots disk dropGap gapLo gapHi datagrams (1700000000 * 1000000) w₀ with ⟨ok, w₁⟩
    rw [hslots] at h
    dsimp only at h
    cases ok with
    | false => cases h
    | true =>
      cases h
      have hbase : ((1700000000 * 1000000 : UInt64)).toNat = 1700000000000000 := by decide
      have hfits := scheduled_fits dropGap gapLo gapHi (1700000000 * 1000000) hsize (by rw [hbase]; omega)
      refine ⟨_, PcapWriter.file_written hopen (writeSlots_writeAll hslots), fun r hr => ?_, ?_, ?_⟩
      · obtain ⟨d, hd, rfl⟩ := List.mem_map.mp hr
        exact wellFormed_record (hfits d hd)
      · have hlen := congrArg List.length
          (scheduled_payloads dropGap gapLo gapHi datagrams (1700000000 * 1000000))
        rw [List.length_map, List.length_map] at hlen
        rw [List.length_map, hlen]
        exact List.length_filter_le _ datagrams
      · rw [payloadsOf_written hfits, scheduled_payloads]

end Written

/-- On a disk that takes all bytes the file is written. -/
theorem writePcap_roomy {disk : Disk} (hdisk : PcapWriter.Roomy disk) (path : String) (datagrams : List Datagram)
    (dropGap : Bool) (gapLo gapHi : SequenceNumber) :
    ∃ w, writePcap disk path true datagrams dropGap gapLo gapHi = .ok w := by
  have hslots : ∀ (ds : List Datagram) (tsUs : UInt64) (w : PcapWriter) (file : List UInt8), w.file = some file →
      (writeSlots disk dropGap gapLo gapHi ds tsUs w).1 = true := by
    intro ds
    induction ds with
    | nil => exact fun _ _ _ _ => rfl
    | cons d ds ih =>
      intro tsUs w file hw
      rw [writeSlots]
      split_ifs with hdrop
      · exact ih _ w file hw
      · have hok := PcapWriter.writeDatagram_roomy hdisk hw ⟨d.bytes, tsUs, kDstPort⟩
        have hfile := PcapWriter.writeDatagram_ok hw hok
        dsimp only at hok hfile ⊢
        rw [hok, if_pos rfl]
        exact ih _ _ _ hfile
  refine ⟨(writeSlots disk dropGap gapLo gapHi datagrams (1700000000 * 1000000) ⟨some (fileHeader kSnapLen)⟩).2, ?_⟩
  rw [writePcap, PcapWriter.openFile_roomy hdisk]
  dsimp only
  rw [hslots datagrams _ _ _ rfl, if_pos rfl]

end PcapGen

/-! ## What is replayed -/

/-- The books, the sequences and the counters that tell of a feed are the same. -/
structure Unmoved (h h' : FeedHandler) : Prop where
  book : h'.book = h.book
  gap : h'.gap = h.gap
  gaps : h'.stats.gapsDetected = h.stats.gapsDetected
  stale : h'.stats.staleMsgs = h.stats.staleMsgs
  errors : h'.stats.parseErrors = h.stats.parseErrors
  applied : h'.stats.messagesApplied = h.stats.messagesApplied

theorem Unmoved.trans {h h' h'' : FeedHandler} (hf : Unmoved h h') (hg : Unmoved h' h'') : Unmoved h h'' :=
  ⟨hg.book.trans hf.book, hg.gap.trans hf.gap, hg.gaps.trans hf.gaps, hg.stale.trans hf.stale,
    hg.errors.trans hf.errors, hg.applied.trans hf.applied⟩

/-- The announcement of a symbol. -/
def Announces (data : List UInt8) : Prop := ∃ loc m, data = payload ⟨loc, 0⟩ (.stockDirectory m)

theorem MessageGenerator.directoryMessages_announce (g : MessageGenerator) :
    ∀ data ∈ g.directoryMessages, Announces data := by
  intro data hdata
  obtain ⟨hmem, -⟩ := List.mem_filter.mp hdata
  obtain ⟨p, -, rfl⟩ := List.mem_map.mp hmem
  exact ⟨_, _, rfl⟩

theorem Announces.sequence {data : List UInt8} (h : Announces data) : readSequence data = 0 := by
  obtain ⟨loc, m, rfl⟩ := h
  exact (payload_packs _ _).sequence

theorem FeedHandler.deliver_announcement (h : FeedHandler) {data : List UInt8} (hdata : Announces data) :
    Unmoved h (h.deliver ⟨data, none⟩).1 := by
  obtain ⟨loc, m, rfl⟩ := hdata
  obtain ⟨hframed, -, hseq, hdecoded⟩ := payload_packs ⟨loc, 0⟩ (.stockDirectory m)
  have hbootstrap (h' : FeedHandler) (l : StockLocate) : h'.checkSequence none l 0 = (.admitted, h', []) := if_pos rfl
  have hidle (h' : FeedHandler) :
      (h'.decodeAndApply ((payload ⟨loc, 0⟩ (.stockDirectory m)).drop transportHeaderSize)).2 = h' := by
    rw [decodeAndApply, hdecoded]
    rfl
  rw [FeedHandler.deliver, onDatagram, if_neg (Nat.not_lt.mpr hframed)]
  dsimp only
  rw [hseq, hbootstrap]
  dsimp only
  rw [hidle]
  exact ⟨rfl, rfl, rfl, rfl, rfl, rfl⟩

theorem FeedHandler.feed_announcements (h : FeedHandler) {feed : List (List UInt8)} (hfeed : ∀ data ∈ feed, Announces data) :
    Unmoved h (h.feed (deliveries feed)).1 := by
  induction feed using List.reverseRecOn with
  | nil => exact ⟨rfl, rfl, rfl, rfl, rfl, rfl⟩
  | append_singleton feed data ih =>
    rw [deliveries, List.map_append, List.map_singleton, ← deliveries, feed_concat]
    exact (ih (fun d hd => hfeed d (by simp [hd]))).trans (FeedHandler.deliver_announcement _ (hfeed data (by simp)))

theorem InStep.unmoved {numSymbols : ℕ} {es : List Emission} {g : MessageGenerator} {live : List LiveOrder}
    {h h' : FeedHandler} (hs : InStep numSymbols es g live h) (hsame : Unmoved h h') : InStep numSymbols es g live h' where
  table := hs.table
  positive := hs.positive
  located := hs.located
  symbols := hs.symbols
  baseLocate := hs.baseLocate
  ids := hs.ids
  tracked := hsame.book ▸ hs.tracked
  counted := hs.counted
  expected := hsame.gap ▸ hs.expected
  decoded := hs.decoded
  gaps := hsame.gaps.trans hs.gaps
  stale := hsame.stale.trans hs.stale
  errors := hsame.errors.trans hs.errors
  applied := hsame.applied.trans hs.applied

theorem framedSize_le (msg : AnyMessage) : framedSize msg ≤ 46 := by
  have hsize : ∀ t : MessageType, 2 + t.wireSize ≤ 46 := by
    intro t
    cases t <;> decide
  exact hsize msg.type

theorem payload_size (header : TransportHeader) (msg : AnyMessage) :
    1 ≤ (payload header msg).length ∧ (payload header msg).length ≤ 65493 := by
  have hle := framedSize_le msg
  rw [length_payload, transportHeaderSize]
  omega

/-- A run of the generator as the file's program takes it up. -/
structure Generates (numSymbols : ℕ) (cs : List Draws) (datagrams : List PcapGen.Datagram) (es : List Emission)
    (g : MessageGenerator) : Prop where
  generated : PcapGen.generate numSymbols cs = some datagrams
  ran : (MessageGenerator.new numSymbols).run cs = some (es, g)
  listed : datagrams = (MessageGenerator.new numSymbols).directoryMessages.map (fun d => ⟨d, 0⟩) ++
    es.map (fun e => ⟨e.out, e.header.sequence⟩)
  count : es.length = cs.length
  emitted : ∀ e ∈ es, ∃ msg, e.out = payload e.header msg
  located : ∀ e ∈ es, ∃ si < numSymbols, e.header.stockLocate = UInt16.ofNat (100 + si)
  stamped : ∀ loc, stampedOn loc es = List.range' 1 (stampedOn loc es).length
  replayed : ∀ skip, ∃ live, InStep numSymbols es g live
    ((FeedHandler.new 10 skip).feed (deliveries (datagrams.map PcapGen.Datagram.bytes))).1

theorem generates (numSymbols : ℕ) (hsymbols : 1 ≤ numSymbols) (cs : List Draws) (hlen : cs.length < 2 ^ 60) :
    ∃ datagrams es g, Generates numSymbols cs datagrams es g := by
  have hannounce := (MessageGenerator.new numSymbols).directoryMessages_announce
  have hstart (skip : Bool) : InStep numSymbols [] (MessageGenerator.new numSymbols) []
      ((FeedHandler.new 10 skip).feed (deliveries (MessageGenerator.new numSymbols).directoryMessages)).1 :=
    (InStep.start numSymbols 10 skip).unmoved (FeedHandler.feed_announcements _ hannounce)
  obtain ⟨es, g, live, hrun, hcount, hlocated, hs⟩ := (hstart true).run_from none hsymbols cs hlen
  have hemitted := run_out hrun
  have hall : es.filter (fun e => e.out.length ≠ 0) = es := by
    rw [List.filter_eq_self]
    intro e he
    obtain ⟨msg, hmsg⟩ := hemitted e he
    have hsize := (payload_size e.header msg).1
    rw [← hmsg] at hsize
    simpa using List.ne_nil_of_length_pos hsize
  refine ⟨_, es, g, ?_, hrun, rfl, hcount, hemitted, hlocated, fun loc => (hs.counted loc).consecutive, fun skip => ?_⟩
  · simp only [PcapGen.generate, hrun, Option.bind_eq_bind, Option.bind_some, hall]
    rfl
  · obtain ⟨es', g', live', hrun', -, -, hs'⟩ := (hstart skip).run_from none hsymbols cs hlen
    rw [hrun] at hrun'
    cases hrun'
    refine ⟨live', ?_⟩
    have hbytes : ((MessageGenerator.new numSymbols).directoryMessages.map (fun d => (⟨d, 0⟩ : PcapGen.Datagram)) ++
        es.map (fun e => (⟨e.out, e.header.sequence⟩ : PcapGen.Datagram))).map PcapGen.Datagram.bytes =
        (MessageGenerator.new numSymbols).directoryMessages ++ es.map (fun e => e.out) := by
      simp [Function.comp_def]
    have hdeliveries : deliveries (es.map (fun e => e.out)) = es.map (fun e => (⟨e.out, none⟩ : Delivery)) := by
      simp [deliveries, Function.comp_def]
    rw [hbytes, deliveries, List.map_append, ← deliveries, ← deliveries, feed_append, hdeliveries]
    exact hs'

namespace Generates
variable {numSymbols : ℕ} {cs : List Draws} {datagrams : List PcapGen.Datagram} {es : List Emission}
  {g : MessageGenerator}

theorem sizes (h : Generates numSymbols cs datagrams es g) :
    ∀ d ∈ datagrams, 1 ≤ d.bytes.length ∧ d.bytes.length ≤ 65493 := by
  intro d hd
  rw [h.listed] at hd
  rcases List.mem_append.mp hd with hd | hd
  · obtain ⟨data, hdata, rfl⟩ := List.mem_map.mp hd
    obtain ⟨loc, m, rfl⟩ := directoryMessages_announce _ data hdata
    exact payload_size ⟨loc, 0⟩ (.stockDirectory m)
  · obtain ⟨e, he, rfl⟩ := List.mem_map.mp hd
    obtain ⟨msg, hmsg⟩ := h.emitted e he
    exact hmsg ▸ payload_size _ _

/-- The program's few announcements. -/
theorem length_datagrams (h : Generates numSymbols cs datagrams es g) : datagrams.length ≤ cs.length + 10 := by
  have hten : (MessageGenerator.new numSymbols).directoryMessages.length ≤ 10 := by
    refine (List.length_filter_le _ _).trans ?_
    rw [List.length_map, List.length_zipIdx, MessageGenerator.new, List.length_map, List.length_take]
    exact Nat.min_le_right _ _
  rw [h.listed, List.length_append, List.length_map, List.length_map, h.count]
  omega

end Generates

/-- A run of the generator goes into a file and out of it into a handler: nothing is missing, stale or malformed,
every message counts, and the books hold exactly the orders that the generator records. -/
theorem generated_capture_replays {lib : Libpcap} (hlib : lib.ReadsCaptures) (disk : Disk) (path : String)
    (fopen skipGaps : Bool) (gapLo gapHi : SequenceNumber) (numSymbols : ℕ) (hsymbols : 1 ≤ numSymbols)
    (cs : List Draws) (hlen : cs.length < 2 ^ 40) :
    ∃ datagrams es g, PcapGen.generate numSymbols cs = some datagrams ∧
      (MessageGenerator.new numSymbols).run cs = some (es, g) ∧
      ∀ w, PcapGen.writePcap disk path fopen datagrams false gapLo gapHi = .ok w → ∃ file, w.file = some file ∧
        ∀ passes > datagrams.length, ∃ s, pcapReplay lib file 0 skipGaps passes = .ok (some s) ∧
          s.replayed = datagrams.length ∧ s.gaps = [] ∧ s.handler.stats.gapsDetected = 0 ∧
          s.handler.stats.staleMsgs = 0 ∧ s.handler.stats.parseErrors = 0 ∧
          s.handler.stats.messagesApplied.toNat = cs.length ∧
          ∀ id sym r, s.handler.book.Rests id sym r ↔ g.Lists id sym r := by
  obtain ⟨datagrams, es, g, hgen⟩ := generates numSymbols hsymbols cs (by omega)
  have hcount := hgen.length_datagrams
  refine ⟨datagrams, es, g, hgen.generated, hgen.ran, fun w hwrite => ?_⟩
  obtain ⟨c, hfile, hc, hrecords, hpayloads⟩ := PcapGen.writePcap_capture hwrite hgen.sizes (by omega)
  have hall : datagrams.filter (fun d => ¬ PcapGen.Drops false gapLo gapHi d) = datagrams :=
    List.filter_eq_self.mpr (fun d _ => by simp [PcapGen.Drops])
  rw [hall] at hpayloads
  obtain ⟨live, hs⟩ := hgen.replayed skipGaps
  obtain ⟨t, hholds, htracked⟩ := hs.tracked
  have hreported := ((FeedHandler.new 10 skipGaps).feed_replays
    (deliveries (datagrams.map PcapGen.Datagram.bytes))).reported
  refine ⟨_, hfile, fun passes hp => ⟨_, pcapReplay_capture hlib hc 0 skipGaps (by omega), ?_⟩⟩
  rw [limited, if_pos rfl, hpayloads]
  refine ⟨List.length_map _, ?_, hs.gaps, hs.stale, hs.errors, ?_, fun id sym r => ?_⟩
  · rw [← List.length_eq_zero_iff, length_ranges]
    have hle := (FeedHandler.new 10 skipGaps).feed_reports_le (deliveries (datagrams.map PcapGen.Datagram.bytes))
    have hall : (deliveries (datagrams.map PcapGen.Datagram.bytes)).length < 2 ^ 64 := by
      rw [deliveries, List.length_map, List.length_map]
      omega
    rw [hs.gaps] at hreported
    have hzero := congrArg UInt64.toNat (hreported.trans (UInt64.zero_add _))
    rw [UInt64.toNat_ofNat_of_lt' (Nat.lt_of_le_of_lt hle hall)] at hzero
    exact hzero.symm
  · rw [hs.applied, hgen.count]
    exact UInt64.toNat_ofNat_of_lt' (show cs.length < 2 ^ 64 by omega)
  · rw [hholds.rests_iff, htracked.records, hs.lists_iff]

/-- A thousand calls that all add an order of the one symbol. -/
def thousandAdds : List Draws := List.replicate PcapGen.kMessages ⟨0, 0, 0, 0, 0, 0⟩

theorem thousand_adds_replay : ∃ datagrams w file s, PcapGen.generate 1 thousandAdds = some datagrams ∧
    PcapGen.writePcap (fun _ data => data.length) "itch_synthetic.pcap" true datagrams false 0 0 = .ok w ∧
    w.file = some file ∧ pcapReplay Libpcap.plain file 0 false (datagrams.length + 1) = .ok (some s) ∧
    s.gaps = [] ∧ s.handler.stats.messagesApplied.toNat = 1000 := by
  have hroomy : PcapWriter.Roomy (fun _ data => data.length) := fun _ data => Nat.le_refl data.length
  obtain ⟨datagrams, es, g, hgen, -, hall⟩ := generated_capture_replays Libpcap.plain_readsCaptures
    (fun _ data => data.length) "itch_synthetic.pcap" true false 0 0 1 (Nat.le_refl 1) thousandAdds
    (by rw [thousandAdds, List.length_replicate]; decide)
  obtain ⟨w, hwrite⟩ := PcapGen.writePcap_roomy hroomy "itch_synthetic.pcap" datagrams false 0 0
  obtain ⟨file, hfile, hreplay⟩ := hall w hwrite
  obtain ⟨s, hs, -, hgaps, -, -, -, happlied, -⟩ := hreplay (datagrams.length + 1) (Nat.lt_succ_self _)
  exact ⟨datagrams, w, file, s, hgen, hwrite, hfile, hs, hgaps, by rw [happlied, thousandAdds, List.length_replicate]⟩

/-! ## A range that is left out -/

/-- Outside of the range that is left out. -/
def outside (gapLo gapHi : SequenceNumber) (n : ℕ) : Prop := n < gapLo.toNat ∨ gapHi.toNat < n

instance (gapLo gapHi : SequenceNumber) : DecidablePred (outside gapLo gapHi) :=
  fun _ => inferInstanceAs (Decidable (_ ∨ _))

theorem PcapGen.drops_iff {gapLo gapHi : SequenceNumber} {d : PcapGen.Datagram} :
    ¬ PcapGen.Drops true gapLo gapHi d ↔ outside gapLo gapHi d.sequence.toNat := by
  rw [PcapGen.Drops, outside, UInt64.le_iff_toNat_le, UInt64.le_iff_toNat_le]
  simp only [true_and]
  omega

/-- A locate carries what it would carry, without the range. -/
theorem carried_outside (gapLo gapHi : SequenceNumber) (loc : StockLocate) {ds : List PcapGen.Datagram}
    (hds : ∀ d ∈ ds, d.sequence = readSequence d.bytes) :
    carried loc ((ds.filter (fun d => ¬ PcapGen.Drops true gapLo gapHi d)).map PcapGen.Datagram.bytes) =
      (carried loc (ds.map PcapGen.Datagram.bytes)).filter (outside gapLo gapHi) := by
  induction ds with
  | nil => rfl
  | cons d ds ih =>
    obtain ⟨hd, hds⟩ := List.forall_mem_cons.mp hds
    have hcons (feed : List (List UInt8)) : carried loc (d.bytes :: feed) = carried loc [d.bytes] ++ carried loc feed :=
      carried_append loc [d.bytes] feed
    have hone : ∀ n ∈ carried loc [d.bytes], n = d.sequence.toNat := by
      intro n hn
      obtain ⟨data, hdata, rfl⟩ := List.mem_map.mp hn
      rw [List.mem_singleton.mp (List.mem_filter.mp hdata).1, hd]
    rw [List.map_cons, hcons, List.filter_append]
    by_cases hdrop : PcapGen.Drops true gapLo gapHi d
    · have hinside : ¬ outside gapLo gapHi d.sequence.toNat := fun hout => PcapGen.drops_iff.mpr hout hdrop
      have hnone : (carried loc [d.bytes]).filter (outside gapLo gapHi) = [] := by
        rw [List.filter_eq_nil_iff]
        intro n hn
        rw [hone n hn]
        simpa using hinside
      rw [List.filter_cons_of_neg (by simpa using hdrop), ih hds, hnone, List.nil_append]
    · have hall : (carried loc [d.bytes]).filter (outside gapLo gapHi) = carried loc [d.bytes] := by
        rw [List.filter_eq_self]
        intro n hn
        rw [hone n hn]
        simpa using PcapGen.drops_iff.mp hdrop
      rw [List.filter_cons_of_pos (by simpa using hdrop), List.map_cons, hcons, ih hds, hall]

namespace Generates
variable {numSymbols : ℕ} {cs : List Draws} {datagrams : List PcapGen.Datagram} {es : List Emission}
  {g : MessageGenerator}

theorem sequences (h : Generates numSymbols cs datagrams es g) :
    ∀ d ∈ datagrams, d.sequence = readSequence d.bytes := by
  intro d hd
  rw [h.listed] at hd
  rcases List.mem_append.mp hd with hd | hd
  · obtain ⟨data, hdata, rfl⟩ := List.mem_map.mp hd
    exact (directoryMessages_announce _ data hdata).sequence.symm
  · obtain ⟨e, he, rfl⟩ := List.mem_map.mp hd
    obtain ⟨msg, hmsg⟩ := h.emitted e he
    exact (hmsg ▸ (payload_packs e.header msg).sequence : readSequence e.out = e.header.sequence).symm

/-- The sequences of a locate count from 1 on. -/
theorem carried_all (h : Generates numSymbols cs datagrams es g) (loc : StockLocate) :
    carried loc (datagrams.map PcapGen.Datagram.bytes) = List.range' 1 (stampedOn loc es).length := by
  have hnone : carried loc (MessageGenerator.new numSymbols).directoryMessages = [] := by
    rw [carried, List.map_eq_nil_iff, List.filter_eq_nil_iff]
    intro data hdata
    simp [(directoryMessages_announce _ data hdata).sequence]
  have hall : carried loc (es.map (fun e => e.out)) = stampedOn loc es := by
    rw [carried, stampedOn, List.filter_map, List.map_map]
    congr 1
    refine List.filter_congr (fun e he => ?_)
    obtain ⟨msg, hmsg⟩ := h.emitted e he
    have hpacks := hmsg ▸ payload_packs e.header msg
    have hmem : (readSequence e.out).toNat ∈ stampedOn (readLocate e.out) es :=
      List.mem_map_of_mem (List.mem_filter.mpr ⟨he, by simp⟩)
    rw [h.stamped] at hmem
    have hpos := (List.mem_range'_1.mp hmem).1
    have hseq : readSequence e.out ≠ 0 := by
      intro hzero
      rw [hzero] at hpos
      exact absurd hpos (by decide)
    simp [hpacks.framed, hseq]
  have hbytes : datagrams.map PcapGen.Datagram.bytes =
      (MessageGenerator.new numSymbols).directoryMessages ++ es.map (fun e => e.out) := by
    rw [h.listed]
    simp [Function.comp_def]
  rw [hbytes, carried_append, hnone, hall, List.nil_append]
  exact h.stamped loc

end Generates

/-- What is left of the sequences of a locate has the range as its hole, if it goes on behind it. -/
theorem holes_outside (gapLo gapHi : SequenceNumber) (n : ℕ) :
    holes ((List.range' 1 n).filter (outside gapLo gapHi)) =
      if 1 < gapLo ∧ gapLo ≤ gapHi ∧ gapHi.toNat < n then [(gapLo.toNat, gapHi.toNat)] else [] := by
  have hiff : 1 < gapLo ∧ gapLo ≤ gapHi ∧ gapHi.toNat < n ↔
      1 < gapLo.toNat ∧ gapLo.toNat ≤ gapHi.toNat ∧ gapHi.toNat < n := by
    rw [UInt64.lt_iff_toNat_lt, UInt64.le_iff_toNat_le]
    exact Iff.rfl
  rcases Nat.lt_or_ge (gapHi.toNat + 1) gapLo.toNat with hempty | hle
  · have hall : (List.range' 1 n).filter (outside gapLo gapHi) = List.range' 1 n := by
      rw [List.filter_eq_self]
      intro m _
      have hout : outside gapLo gapHi m := by
        unfold outside
        omega
      simpa using hout
    rw [hall, holes_range', if_neg (fun hin => by have := hiff.mp hin; omega)]
  · exact (holes_filter_range' hle n).trans (if_congr hiff.symm rfl rfl)

namespace Generates
variable {numSymbols : ℕ} {cs : List Draws} {datagrams : List PcapGen.Datagram} {es : List Emission}
  {g : MessageGenerator}

theorem rising_outside (h : Generates numSymbols cs datagrams es g)
    (gapLo gapHi : SequenceNumber) :
    Rising ((datagrams.filter (fun d => ¬ PcapGen.Drops true gapLo gapHi d)).map PcapGen.Datagram.bytes) := by
  intro loc
  rw [carried_outside gapLo gapHi loc h.sequences, h.carried_all]
  exact List.Pairwise.filter _ List.pairwise_lt_range'

/-- One symbol is one locate. -/
theorem stamped_single (h : Generates 1 cs datagrams es g) (loc : StockLocate) :
    (stampedOn loc es).length = if loc = 100 then cs.length else 0 := by
  have hlocate : ∀ e ∈ es, readLocate e.out = 100 := by
    intro e he
    obtain ⟨msg, hmsg⟩ := h.emitted e he
    obtain ⟨si, hsi, hloc⟩ := h.located e he
    have hread : readLocate e.out = e.header.stockLocate := hmsg ▸ (payload_packs e.header msg).locate
    obtain rfl : si = 0 := by omega
    exact hread.trans hloc
  rw [stampedOn, List.length_map]
  by_cases hhere : loc = 100
  · rw [if_pos hhere, List.filter_eq_self.mpr (fun e he => by simp [hlocate e he, hhere]), h.count]
  · rw [if_neg hhere, List.filter_eq_nil_iff.mpr (fun e he => by simp [hlocate e he, Ne.symm hhere])]
    rfl

end Generates

/-- A single locate has reported the range. -/
theorem gaps_of_rangesOf {gaps : List GapRange} {l : StockLocate} {first last : SequenceNumber}
    (hothers : ∀ loc, loc ≠ l → rangesOf loc gaps = []) :
    (rangesOf l gaps = [(first.toNat, last.toNat)] → gaps = [⟨l, first, last⟩]) ∧ (rangesOf l gaps = [] → gaps = []) := by
  have hall : ∀ r ∈ gaps, r.loc = l := by
    intro r hr
    by_contra hne
    have hmem : (r.firstMissing.toNat, r.lastMissing.toNat) ∈ rangesOf r.loc gaps :=
      List.mem_map_of_mem (List.mem_filter.mpr ⟨hr, by simp⟩)
    rw [hothers r.loc hne] at hmem
    exact List.not_mem_nil hmem
  have hmap : rangesOf l gaps = gaps.map (fun r => (r.firstMissing.toNat, r.lastMissing.toNat)) := by
    rw [rangesOf, List.filter_eq_self.mpr (fun r hr => by simp [hall r hr])]
  rw [hmap]
  refine ⟨fun hone => ?_, List.map_eq_nil_iff.mp⟩
  obtain ⟨⟨loc, f, t⟩, rfl, hr⟩ := List.map_eq_singleton_iff.mp hone
  obtain ⟨hf, ht⟩ := Prod.mk.inj hr
  obtain rfl : loc = l := hall _ (List.mem_singleton_self _)
  obtain rfl : f = first := UInt64.toNat_inj.mp hf
  obtain rfl : t = last := UInt64.toNat_inj.mp ht
  rfl

/-- A range of sequences is left out of the file. Replayed with `--skip-gaps`, the rest is decoded as if the range
had never been sent, and the range is reported once on each locate that has sequences on both sides of it. -/
theorem dropped_range_is_reported {lib : Libpcap} (hlib : lib.ReadsCaptures) (disk : Disk) (path : String)
    (fopen : Bool) (gapLo gapHi : SequenceNumber) (numSymbols : ℕ) (hsymbols : 1 ≤ numSymbols)
    (cs : List Draws) (hlen : cs.length < 2 ^ 40) :
    ∃ datagrams es g, PcapGen.generate numSymbols cs = some datagrams ∧
      (MessageGenerator.new numSymbols).run cs = some (es, g) ∧
      ∀ w, PcapGen.writePcap disk path fopen datagrams true gapLo gapHi = .ok w → ∃ file, w.file = some file ∧
        ∀ passes > datagrams.length, ∃ s, pcapReplay lib file 0 true passes = .ok (some s) ∧
          s.replayed = (datagrams.filter (fun d => ¬ PcapGen.Drops true gapLo gapHi d)).length ∧
          s.handler.stats.staleMsgs = 0 ∧
          referenceBookFromPcap lib file passes = .ok (some s.handler.book) ∧
          (∀ loc, rangesOf loc s.gaps =
            if 1 < gapLo ∧ gapLo ≤ gapHi ∧ gapHi.toNat < (stampedOn loc es).length then [(gapLo.toNat, gapHi.toNat)]
            else []) ∧
          (numSymbols = 1 → s.gaps =
            if 1 < gapLo ∧ gapLo ≤ gapHi ∧ gapHi.toNat < cs.length then [⟨100, gapLo, gapHi⟩] else []) := by
  obtain ⟨datagrams, es, g, hgen⟩ := generates numSymbols hsymbols cs (by omega)
  have hcount := hgen.length_datagrams
  refine ⟨datagrams, es, g, hgen.generated, hgen.ran, fun w hwrite => ?_⟩
  obtain ⟨c, hfile, hc, hrecords, hpayloads⟩ := PcapGen.writePcap_capture hwrite hgen.sizes (by omega)
  refine ⟨_, hfile, fun passes hp => ⟨_, pcapReplay_capture hlib hc 0 true (by omega), ?_⟩⟩
  have hs := SkippedThrough.run 10 (hgen.rising_outside gapLo gapHi)
  have hreference := referenceBook_capture hlib hc (show passes > c.records.length by omega)
  rw [hpayloads] at hreference
  rw [limited, if_pos rfl, hpayloads]
  have hranges (loc : StockLocate) := hs.ranges loc
  simp only [carried_outside gapLo gapHi _ hgen.sequences, hgen.carried_all, holes_outside] at hranges
  refine ⟨List.length_map _, hs.stale, ?_, hranges, ?_⟩
  · rw [hreference, ← hs.book]
  · rintro rfl
    have hothers : ∀ loc, loc ≠ 100 → rangesOf loc _ = [] := fun loc hloc => by
      rw [hranges loc, hgen.stamped_single, if_neg hloc]
      exact if_neg (fun hin => absurd hin.2.2 (Nat.not_lt_zero _))
    obtain ⟨hone, hnone⟩ := @gaps_of_rangesOf _ 100 gapLo gapHi hothers
    have hhere := hranges 100
    rw [hgen.stamped_single, if_pos rfl] at hhere
    split_ifs with hin
    · rw [if_pos hin] at hhere
      exact hone hhere
    · rw [if_neg hin] at hhere
      exact hnone hhere

theorem sequences_500_to_510_reported : ∃ datagrams w file s, PcapGen.generate 1 thousandAdds = some datagrams ∧
    PcapGen.writePcap (fun _ data => data.length) "itch_gap.pcap" true datagrams true PcapGen.kGapLo PcapGen.kGapHi =
      .ok w ∧
    w.file = some file ∧ pcapReplay Libpcap.plain file 0 true (datagrams.length + 1) = .ok (some s) ∧
    s.gaps = [⟨100, 500, 510⟩] := by
  have hroomy : PcapWriter.Roomy (fun _ data => data.length) := fun _ data => Nat.le_refl data.length
  have hlen : thousandAdds.length = 1000 := List.length_replicate
  obtain ⟨datagrams, es, g, hgen, -, hall⟩ := dropped_range_is_reported Libpcap.plain_readsCaptures
    (fun _ data => data.length) "itch_gap.pcap" true PcapGen.kGapLo PcapGen.kGapHi 1 (Nat.le_refl 1) thousandAdds
    (by rw [hlen]; decide)
  obtain ⟨w, hwrite⟩ := PcapGen.writePcap_roomy hroomy "itch_gap.pcap" datagrams true PcapGen.kGapLo PcapGen.kGapHi
  obtain ⟨file, hfile, hreplay⟩ := hall w hwrite
  obtain ⟨s, hs, -, -, -, -, hgaps⟩ := hreplay (datagrams.length + 1) (Nat.lt_succ_self _)
  refine ⟨datagrams, w, file, s, hgen, hwrite, hfile, hs, ?_⟩
  rw [hgaps rfl, hlen]
  rfl

end MdfeedItch
