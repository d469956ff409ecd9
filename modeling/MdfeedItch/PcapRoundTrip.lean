import MdfeedItch.PcapHeaders

/-! # Captures are read back as they were written

What the writer leaves in its file is a well-formed capture with one record for each
datagram. The reader goes over any capture record by record and keeps those that are
longer than their headers, which is all of a written one. -/
namespace MdfeedItch
open ByteLayout CaptureFormat

/-- The arguments of a call of `write_datagram`. -/
structure Datagram where
  payload : List UInt8
  tsUs : UInt64
  dstPort : UInt16

/-- The record that the call appends. -/
def Datagram.record (d : Datagram) : Record :=
  let frame := datagramFrame d.payload d.dstPort
  ⟨(d.tsUs / 1000000).toUInt32, (d.tsUs % 1000000).toUInt32, UInt32.ofNat frame.length, frame⟩

namespace PcapWriter

/-- The calls for a list of datagrams, and whether all of them returned true. -/
def writeAll (disk : Disk) : PcapWriter → List Datagram → Bool × PcapWriter
  | w, [] => (true, w)
  | w, d :: ds =>
    let (ok, w) := w.writeDatagram disk d.payload d.tsUs d.dstPort
    let (all, w) := writeAll disk w ds
    (ok && all, w)

variable {disk : Disk}

/-- A write of all bytes has appended them. -/
theorem fwrite_all {file data : List UInt8} (h : (fwrite disk file data).1 = data.length) :
    (fwrite disk file data).2 = file ++ data := by
  have hmin : min (disk file data) data.length = data.length := h
  rw [fwrite]
  dsimp only
  rw [hmin, List.take_length]

theorem openFile_ok {path : String} {fopen : Bool} {w : PcapWriter} (h : openFile disk path fopen = .ok w) :
    w.file = some (fileHeader kSnapLen) := by
  rw [openFile] at h
  split_ifs at h with hopen
  dsimp only at h
  split_ifs at h with hshort
  cases h
  rw [fwrite_all (not_not.mp hshort)]
  simp only [putU32le_eq, putU16le_eq, fileHeader, List.nil_append, List.append_assoc]
  rfl

/-- The header that is written in front of a frame. -/
theorem header_eq (d : Datagram) :
    putU32le (d.tsUs / 1000000).toUInt32 ++ putU32le (d.tsUs % 1000000).toUInt32 ++
        putU32le (UInt32.ofNat (datagramFrame d.payload d.dstPort).length) ++
        putU32le (UInt32.ofNat (datagramFrame d.payload d.dstPort).length) = d.record.header := by
  have hcaplen (n : ℕ) : leBytes 4 (UInt32.ofNat n).toNat = leBytes 4 n := by
    rw [UInt32.toNat_ofNat', leBytes, leBytes]
    exact congrArg List.reverse (toBytes_mod 4 n)
  have hlength : d.record.data.length = (datagramFrame d.payload d.dstPort).length := rfl
  simp only [putU32le_eq, List.append_assoc, hcaplen, Record.header, hlength]
  simp only [Datagram.record, hcaplen]

theorem writeDatagram_ok {w : PcapWriter} {file : List UInt8} (hw : w.file = some file) {d : Datagram}
    (h : (w.writeDatagram disk d.payload d.tsUs d.dstPort).1 = true) :
    (w.writeDatagram disk d.payload d.tsUs d.dstPort).2.file = some (file ++ d.record.bytes) := by
  have hdata : d.record.data = datagramFrame d.payload d.dstPort := rfl
  rw [writeDatagram, hw] at h ⊢
  dsimp only at h ⊢
  rw [header_eq, ← hdata] at h ⊢
  split_ifs at h ⊢ with hheader hframe
  rw [fwrite_all (not_not.mp hframe), fwrite_all (not_not.mp hheader), List.append_assoc, Record.bytes]

/-- When every call returned true, the file has grown by one record for each. -/
theorem writeAll_appends {ds : List Datagram} {w : PcapWriter} {file : List UInt8} (hw : w.file = some file)
    (h : (w.writeAll disk ds).1 = true) :
    (w.writeAll disk ds).2.file = some (file ++ (ds.map Datagram.record).flatMap Record.bytes) := by
  induction ds generalizing w file with
  | nil =>
    rw [List.map_nil, List.flatMap_nil, List.append_nil]
    exact hw
  | cons d ds ih =>
    rw [writeAll] at h ⊢
    dsimp only at h ⊢
    obtain ⟨hd, hds⟩ := Bool.and_eq_true_iff.mp h
    rw [ih (writeDatagram_ok hw hd) hds, List.map_cons, List.flatMap_cons, List.append_assoc]

/-- A file that was opened and written successfully is a capture of the datagrams. -/
theorem file_written {path : String} {fopen : Bool} {w w' : PcapWriter} (hopen : openFile disk path fopen = .ok w)
    {ds : List Datagram} (hwrite : w.writeAll disk ds = (true, w')) :
    w'.file = some (Capture.bytes ⟨kSnapLen, ds.map Datagram.record⟩) := by
  have hall : (w.writeAll disk ds).1 = true := by rw [hwrite]
  have hfile := writeAll_appends (openFile_ok hopen) hall
  rw [hwrite] at hfile
  exact hfile

/-- A disk that takes all bytes it is given. -/
def Roomy (disk : Disk) : Prop := ∀ file data, data.length ≤ disk file data

theorem fwrite_roomy (hdisk : Roomy disk) (file data : List UInt8) :
    fwrite disk file data = (data.length, file ++ data) := by
  have hmin : min (disk file data) data.length = data.length := min_eq_right (hdisk file data)
  rw [fwrite]
  rw [hmin, List.take_length]

theorem openFile_roomy (hdisk : Roomy disk) (path : String) :
    openFile disk path true = .ok ⟨some (fileHeader kSnapLen)⟩ := by
  rcases hopen : openFile disk path true with err | w
  · rw [openFile, if_pos rfl] at hopen
    dsimp only at hopen
    rw [fwrite_roomy hdisk, if_neg (not_not.mpr rfl)] at hopen
    cases hopen
  · have hfile := openFile_ok hopen
    cases w
    exact congrArg (fun file => Except.ok (PcapWriter.mk file)) hfile

theorem writeDatagram_roomy (hdisk : Roomy disk) {w : PcapWriter} {file : List UInt8} (hw : w.file = some file)
    (d : Datagram) : (w.writeDatagram disk d.payload d.tsUs d.dstPort).1 = true := by
  rw [writeDatagram, hw]
  dsimp only
  simp only [fwrite_roomy hdisk, ne_eq, not_true_eq_false, ↓reduceIte]

/-- Then no call fails. -/
theorem writeAll_roomy (hdisk : Roomy disk) (ds : List Datagram) {w : PcapWriter} {file : List UInt8}
    (hw : w.file = some file) : (w.writeAll disk ds).1 = true := by
  induction ds generalizing w file with
  | nil => rfl
  | cons d ds ih =>
    have hd := writeDatagram_roomy hdisk hw d
    exact Bool.and_eq_true_iff.mpr ⟨hd, ih (writeDatagram_ok hw hd)⟩

end PcapWriter

namespace PcapReader
variable {lib : Libpcap} {snapLen : UInt32}

/-- What `next` makes of a record, if it does not skip it. -/
def captured (r : Record) : Option PcapRecord :=
  if r.data.length ≤ kHeadersLen then none
  else some ⟨UInt64.ofNat (r.sec.toNat * 1000000 + r.usec.toNat), r.data.drop kHeadersLen⟩

theorem ofInt_natCast (n : ℕ) : UInt64.ofInt (n : ℤ) = UInt64.ofNat n := by
  have hmod : ((n : ℤ) % 2 ^ 64).toNat = n % 2 ^ 64 := by omega
  rw [UInt64.ofInt, hmod, ← UInt64.toNat_inj, UInt64.toNat_ofNat', UInt64.toNat_ofNat', Nat.mod_mod]

/-- One pass over a record. -/
theorem next_record {h h' : lib.Handle} {r : Record} (hr : r.WellFormed snapLen)
    (hnext : lib.nextEx h = (1, some r.packet, h')) (passes : ℕ) :
    next (passes + 1) ⟨some h, false⟩ = match captured r with
      | none => next passes ⟨some h', false⟩
      | some rec => some (some rec, ⟨some h', false⟩) := by
  have hcap : (UInt32.ofNat r.data.length).toNat = r.data.length :=
    UInt32.toNat_ofNat_of_lt' (hr.captured.trans_lt snapLen.toNat_lt)
  have hpayload : (r.data.drop kHeadersLen).take (r.data.length - kHeadersLen) = r.data.drop kHeadersLen :=
    List.take_of_length_le (by rw [List.length_drop])
  have hrc : ((1 : ℤ) = -2) = False := by decide
  simp only [next, hnext, hrc, ↓reduceIte, Record.packet, hcap, hpayload, ofInt_natCast, captured]
  split_ifs with hshort
  · rfl
  · rw [UInt64.ofNat_add, UInt64.ofNat_mul]
    rfl

/-- `next` skips the records that are too short, and returns the first other one or reaches the end. -/
theorem next_yields {rs : List Record} (hrs : ∀ r ∈ rs, r.WellFormed snapLen) {h : lib.Handle} (hy : lib.Yields h rs) :
    (rs.filterMap captured = [] ∧ ∃ h', ∀ passes > rs.length,
      next passes ⟨some h, false⟩ = some (none, ⟨some h', true⟩)) ∨
    ∃ rec rest h', rs.filterMap captured = rec :: rest.filterMap captured ∧ rest <:+ rs ∧ rest.length < rs.length ∧
      lib.Yields h' rest ∧ ∀ passes > rs.length, next passes ⟨some h, false⟩ = some (some rec, ⟨some h', false⟩) := by
  induction rs generalizing h with
  | nil =>
    obtain ⟨packet, h', hnext⟩ := hy
    refine Or.inl ⟨rfl, h', fun passes hp => ?_⟩
    obtain ⟨k, rfl⟩ := Nat.exists_eq_add_of_lt hp
    simp only [next, hnext]
    rfl
  | cons r rs ih =>
    obtain ⟨hr, hrest⟩ := List.forall_mem_cons.mp hrs
    obtain ⟨h', hnext, hy'⟩ := hy
    have hstep (passes : ℕ) := next_record hr hnext passes
    have hlen : rs.length < (r :: rs).length := Nat.lt_succ_self rs.length
    rcases hc : captured r with _ | rec
    · have hskip (passes : ℕ) (hp : passes > (r :: rs).length) :
          ∃ n > rs.length, next passes ⟨some h, false⟩ = next n ⟨some h', false⟩ := by
        obtain ⟨k, rfl⟩ := Nat.exists_eq_add_of_lt hp
        refine ⟨(r :: rs).length + k, hlen.trans_le (Nat.le_add_right _ k), ?_⟩
        rw [hstep, hc]
      rw [List.filterMap_cons_none hc]
      rcases ih hrest hy' with ⟨hnil, h'', hend⟩ | ⟨rec, rest, h'', heq, hsuffix, hshorter, hy'', hrec⟩
      · refine Or.inl ⟨hnil, h'', fun passes hp => ?_⟩
        obtain ⟨n, hn, hsame⟩ := hskip passes hp
        rw [hsame, hend n hn]
      · refine Or.inr ⟨rec, rest, h'', heq, hsuffix.trans (List.suffix_cons r rs), hshorter.trans hlen, hy'',
          fun passes hp => ?_⟩
        obtain ⟨n, hn, hsame⟩ := hskip passes hp
        rw [hsame, hrec n hn]
    · rw [List.filterMap_cons_some hc]
      refine Or.inr ⟨rec, rs, h', rfl, List.suffix_cons r rs, hlen, hy', fun passes hp => ?_⟩
      obtain ⟨k, rfl⟩ := Nat.exists_eq_add_of_lt hp
      rw [hstep, hc]

/-- Reading to the end gives all records that are long enough, in order. -/
theorem readAll_yields {rs : List Record} (hrs : ∀ r ∈ rs, r.WellFormed snapLen) {h : lib.Handle}
    (hy : lib.Yields h rs) : ∃ final : PcapReader lib, final.eof = true ∧
      ∀ passes > rs.length, readAll passes ⟨some h, false⟩ = some (rs.filterMap captured, final) := by
  induction hn : rs.length using Nat.strong_induction_on generalizing rs h with
  | _ n ih =>
    subst hn
    rcases next_yields hrs hy with ⟨hnil, h', hend⟩ | ⟨rec, rest, h', heq, hsuffix, hlen, hy', hrec⟩
    · refine ⟨⟨some h', true⟩, rfl, fun passes hp => ?_⟩
      obtain ⟨k, rfl⟩ := Nat.exists_eq_add_of_lt hp
      rw [readAll, hend _ hp, hnil]
      rfl
    · obtain ⟨final, heof, hall⟩ := ih rest.length hlen (fun r hr => hrs r (hsuffix.subset hr)) hy' rfl
      refine ⟨final, heof, fun passes hp => ?_⟩
      obtain ⟨k, rfl⟩ := Nat.exists_eq_add_of_lt hp
      rw [readAll, hrec _ hp, heq]
      dsimp only [Option.bind_eq_bind, Option.bind_some]
      rw [hall _ (hlen.trans_le (Nat.le_add_right _ k))]
      rfl

/-- A well-formed capture is read completely. -/
theorem readAll_capture (hlib : lib.ReadsCaptures) {c : Capture} (hc : c.WellFormed) :
    ∃ reader final : PcapReader lib, openFile lib c.bytes = .ok reader ∧ final.eof = true ∧
      ∀ passes > c.records.length, reader.readAll passes = some (c.records.filterMap captured, final) := by
  obtain ⟨h, hopen, hlink, hy⟩ := hlib c hc
  obtain ⟨final, heof, hall⟩ := readAll_yields hc hy
  refine ⟨⟨some h, false⟩, final, ?_, heof, hall⟩
  rw [openFile, hopen]
  dsimp only
  rw [hlink]
  rfl

end PcapReader

/-- A datagram that fits in one packet, at a time that fits in 31 bits of seconds. -/
structure Datagram.Fits (d : Datagram) : Prop where
  nonempty : 1 ≤ d.payload.length
  size : d.payload.length ≤ 65493
  time : d.tsUs.toNat < 2 ^ 31 * 10 ^ 6

variable {d : Datagram}

theorem length_record (d : Datagram) : d.record.data.length = 42 + d.payload.length :=
  length_datagramFrame d.payload d.dstPort

theorem sec_record (h : d.Fits) : d.record.sec.toNat = d.tsUs.toNat / 1000000 := by
  have htime := h.time
  have hdiv : (d.tsUs / 1000000).toNat = d.tsUs.toNat / 1000000 := UInt64.toNat_div _ _
  show (d.tsUs / 1000000).toUInt32.toNat = _
  rw [UInt64.toNat_toUInt32, hdiv]
  omega

theorem usec_record (d : Datagram) : d.record.usec.toNat = d.tsUs.toNat % 1000000 := by
  have hmod : (d.tsUs % 1000000).toNat = d.tsUs.toNat % 1000000 := UInt64.toNat_mod _ _
  show (d.tsUs % 1000000).toUInt32.toNat = _
  rw [UInt64.toNat_toUInt32, hmod]
  omega

theorem wellFormed_record (h : d.Fits) : d.record.WellFormed kSnapLen := by
  have hsize := h.size
  have htime := h.time
  have hsnap : kSnapLen.toNat = 65535 := rfl
  have horig : d.record.origLen.toNat = d.record.data.length :=
    UInt32.toNat_ofNat_of_lt' (by
      show d.record.data.length < 4294967296
      rw [length_record]
      omega)
  refine ⟨?_, ?_, ?_, horig.ge⟩
  · rw [sec_record h]
    omega
  · rw [usec_record]
    omega
  · rw [length_record, hsnap]
    omega

theorem captured_record (h : d.Fits) : PcapReader.captured d.record = some ⟨d.tsUs, d.payload⟩ := by
  have hnonempty := h.nonempty
  have hlong : ¬ d.record.data.length ≤ kHeadersLen := by
    rw [length_record]
    show ¬ 42 + d.payload.length ≤ 42
    omega
  have hpayload : d.record.data.drop kHeadersLen = d.payload := drop_datagramFrame d.payload d.dstPort
  have htime : d.record.sec.toNat * 1000000 + d.record.usec.toNat = d.tsUs.toNat := by
    rw [sec_record h, usec_record]
    omega
  rw [PcapReader.captured, if_neg hlong, hpayload, htime, UInt64.ofNat_toNat]

/-- What is written as datagrams is read back in order, and every packet written is a proper one. -/
theorem capture_round_trip {lib : Libpcap} (hlib : lib.ReadsCaptures) {disk : Disk} {path : String} {fopen : Bool}
    {ds : List Datagram} (hds : ∀ d ∈ ds, d.Fits) {w w' : PcapWriter}
    (hopen : PcapWriter.openFile disk path fopen = .ok w) (hwrite : w.writeAll disk ds = (true, w')) :
    ∃ c : Capture, w'.file = some c.bytes ∧ c.records = ds.map Datagram.record ∧
      (∃ reader final : PcapReader lib, PcapReader.openFile lib c.bytes = .ok reader ∧ final.eof = true ∧
        ∀ passes > ds.length, reader.readAll passes = some (ds.map (fun d => ⟨d.tsUs, d.payload⟩), final)) ∧
      ∀ d ∈ ds, PacketOf d.payload d.record.data := by
  have hwell : Capture.WellFormed ⟨kSnapLen, ds.map Datagram.record⟩ := by
    intro r hr
    obtain ⟨d, hd, rfl⟩ := List.mem_map.mp hr
    exact wellFormed_record (hds d hd)
  have hall : (ds.map Datagram.record).filterMap PcapReader.captured = ds.map (fun d => ⟨d.tsUs, d.payload⟩) := by
    rw [List.filterMap_map, ← List.filterMap_eq_map]
    refine List.filterMap_congr (fun d hd => ?_)
    rw [Function.comp_apply, captured_record (hds d hd)]
    rfl
  obtain ⟨reader, final, hread, heof, hrecords⟩ := PcapReader.readAll_capture hlib hwell
  rw [hall, List.length_map] at hrecords
  exact ⟨⟨kSnapLen, ds.map Datagram.record⟩, PcapWriter.file_written hopen hwrite, rfl, ⟨reader, final, hread, heof, hrecords⟩,
    fun d hd => packetOf_datagramFrame (hds d hd).size d.dstPort⟩

theorem capture_round_trip_quote :
    ∃ (w w' : PcapWriter) (c : Capture) (reader final : PcapReader Libpcap.plain),
    PcapWriter.openFile (fun _ data => data.length) "quote.pcap" true = .ok w ∧
    w.writeAll (fun _ data => data.length) [⟨[0x51, 0x54], 34200000001, 26400⟩] = (true, w') ∧ w'.file = some c.bytes ∧
    PcapReader.openFile Libpcap.plain c.bytes = .ok reader ∧
    reader.readAll 2 = some ([⟨34200000001, [0x51, 0x54]⟩], final) := by
  have hroomy : PcapWriter.Roomy (fun _ data => data.length) := fun _ data => Nat.le_refl data.length
  have hopen := PcapWriter.openFile_roomy hroomy "quote.pcap"
  have hds : ∀ d ∈ [Datagram.mk [0x51, 0x54] 34200000001 26400], d.Fits := by
    intro d hd
    rw [List.mem_singleton.mp hd]
    exact ⟨by decide, by decide, by decide⟩
  rcases hwrite : PcapWriter.writeAll (fun _ data => data.length) ⟨some (fileHeader kSnapLen)⟩
    [⟨[0x51, 0x54], 34200000001, 26400⟩] with ⟨all, w'⟩
  have hall := PcapWriter.writeAll_roomy hroomy [⟨[0x51, 0x54], 34200000001, 26400⟩]
    (w := ⟨some (fileHeader kSnapLen)⟩) rfl
  rw [hwrite] at hall
  obtain rfl : all = true := hall
  obtain ⟨c, hfile, -, ⟨reader, final, hread, -, hrecords⟩, -⟩ :=
    capture_round_trip Libpcap.plain_readsCaptures hds hopen hwrite
  exact ⟨_, w', c, reader, final, hopen, hwrite, hfile, hread, hrecords 2 (by decide)⟩

end MdfeedItch
