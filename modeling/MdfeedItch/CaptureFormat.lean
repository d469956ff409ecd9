import MdfeedItch.ByteLayout

/-! # Packet capture files and a library that reads them

The classic format for Ethernet, little-endian with microseconds: a file header of 24
bytes, then records of 16 header bytes and the captured bytes. `Libpcap` is what a
program sees of a library for such files, and `ReadsCaptures` what its manual says
about a well-formed one. -/
namespace MdfeedItch.CaptureFormat
open ByteCursor ByteLayout

/-- The low `n` bytes of a number, lowest first. -/
def leBytes (n v : ℕ) : List UInt8 := (toBytes n v).reverse

def ofLeBytes (bs : List UInt8) : ℕ := ofBytes bs.reverse

@[simp] theorem length_leBytes (n v : ℕ) : (leBytes n v).length = n := by simp [leBytes]

theorem ofLeBytes_leBytes (n v : ℕ) : ofLeBytes (leBytes n v) = v % 256 ^ n := by
  rw [ofLeBytes, leBytes, List.reverse_reverse, ofBytes_toBytes]

theorem leBytes_eq_map (n v : ℕ) : leBytes n v = (List.range n).map (fun i => UInt8.ofNat (v / 256 ^ i)) := by
  induction n with
  | zero => rfl
  | succ n ih => rw [leBytes, toBytes, List.reverse_cons, List.range_succ, List.map_append, ← ih, leBytes, List.map_singleton]

structure Record where
  sec : UInt32
  usec : UInt32
  origLen : UInt32
  data : List UInt8

structure Capture where
  snapLen : UInt32
  records : List Record

/-- The header of a record. -/
def Record.header (r : Record) : List UInt8 :=
  leBytes 4 r.sec.toNat ++ (leBytes 4 r.usec.toNat ++ (leBytes 4 r.data.length ++ leBytes 4 r.origLen.toNat))

def Record.bytes (r : Record) : List UInt8 := r.header ++ r.data

/-- The header of a file: magic number, version 2.4, time zone and accuracy, snap length, Ethernet. -/
def fileHeader (snapLen : UInt32) : List UInt8 :=
  leBytes 4 0xA1B2C3D4 ++ (leBytes 2 2 ++ (leBytes 2 4 ++ (leBytes 4 0 ++ (leBytes 4 0 ++
    (leBytes 4 snapLen.toNat ++ leBytes 4 1)))))

def Capture.bytes (c : Capture) : List UInt8 := fileHeader c.snapLen ++ c.records.flatMap Record.bytes

/-- Times are signed 32-bit seconds and proper microseconds, and at most `snapLen` bytes are captured. -/
structure Record.WellFormed (snapLen : UInt32) (r : Record) : Prop where
  sec : r.sec.toNat < 2 ^ 31
  usec : r.usec.toNat < 1000000
  captured : r.data.length ≤ snapLen.toNat
  original : r.data.length ≤ r.origLen.toNat

def Capture.WellFormed (c : Capture) : Prop := ∀ r ∈ c.records, r.WellFormed c.snapLen

/-- `pcap_pkthdr`. -/
structure PacketHeader where
  tvSec : ℤ
  tvUsec : ℤ
  caplen : UInt32
  len : UInt32

/-- Opening a file by its content, its link type, and the next packet: a return code, the packet
unless a pointer to it is null, and the handle afterwards. -/
structure Libpcap where
  Handle : Type
  openOffline : List UInt8 → Except String Handle
  datalink : Handle → ℤ
  nextEx : Handle → ℤ × Option (PacketHeader × List UInt8) × Handle

/-- The packet of a record. -/
def Record.packet (r : Record) : PacketHeader × List UInt8 :=
  (⟨r.sec.toNat, r.usec.toNat, UInt32.ofNat r.data.length, r.origLen⟩, r.data)

namespace Libpcap

/-- The handle yields the packets of the records, each with return code 1, and then -2. -/
def Yields (lib : Libpcap) : lib.Handle → List Record → Prop
  | h, [] => ∃ packet h', lib.nextEx h = (-2, packet, h')
  | h, r :: rs => ∃ h', lib.nextEx h = (1, some r.packet, h') ∧ lib.Yields h' rs

/-- Well-formed captures are opened as Ethernet and yield their records in order. -/
def ReadsCaptures (lib : Libpcap) : Prop := ∀ c : Capture, c.WellFormed →
  ∃ h, lib.openOffline c.bytes = .ok h ∧ lib.datalink h = 1 ∧ lib.Yields h c.records

/-- Four bytes at an offset. -/
def word (bs : List UInt8) (off : ℕ) : ℕ := ofLeBytes ((bs.drop off).take 4)

def openPlain (bytes : List UInt8) : Except String (ℕ × List UInt8) :=
  if bytes.length < 24 then .error "truncated dump file"
  else if word bytes 0 ≠ 0xA1B2C3D4 then .error "unknown file format"
  else .ok (word bytes 20, bytes.drop 24)

def nextPlain (h : ℕ × List UInt8) : ℤ × Option (PacketHeader × List UInt8) × (ℕ × List UInt8) :=
  if h.2 = [] then (-2, none, h)
  else if h.2.length < 16 + word h.2 8 then (-1, none, h)
  else (1, some (⟨word h.2 0, word h.2 4, UInt32.ofNat (word h.2 8), UInt32.ofNat (word h.2 12)⟩,
    (h.2.drop 16).take (word h.2 8)), (h.1, h.2.drop (16 + word h.2 8)))

/-- A reader that keeps the link type and the bytes behind the last record it returned. -/
def plain : Libpcap := ⟨ℕ × List UInt8, openPlain, fun h => h.1, nextPlain⟩

theorem word_of_append {front back : List UInt8} {off v : ℕ} (hoff : front.length = off) (hv : v < 2 ^ 32) :
    word (front ++ (leBytes 4 v ++ back)) off = v := by
  rw [word, List.drop_left' hoff, List.take_left' (length_leBytes 4 v), ofLeBytes_leBytes]
  exact Nat.mod_eq_of_lt hv

theorem word_in_front {v : ℕ} (hv : v < 2 ^ 32) (back : List UInt8) : word (leBytes 4 v ++ back) 0 = v := by
  rw [word, List.drop_zero, List.take_left' (length_leBytes 4 v), ofLeBytes_leBytes]
  exact Nat.mod_eq_of_lt hv

theorem length_header (r : Record) : r.header.length = 16 := by simp [Record.header]

/-- The words of a record's header, and the data behind it. -/
theorem words_of_record {r : Record} (hlen : r.data.length < 2 ^ 32) (t : List UInt8) :
    word (r.bytes ++ t) 0 = r.sec.toNat ∧ word (r.bytes ++ t) 4 = r.usec.toNat ∧
      word (r.bytes ++ t) 8 = r.data.length ∧ word (r.bytes ++ t) 12 = r.origLen.toNat := by
  have hsplit : r.bytes ++ t = leBytes 4 r.sec.toNat ++ (leBytes 4 r.usec.toNat ++ (leBytes 4 r.data.length ++
      (leBytes 4 r.origLen.toNat ++ (r.data ++ t)))) := by
    simp only [Record.bytes, Record.header, List.append_assoc]
  have htwo (u v : ℕ) (x : List UInt8) : leBytes 4 u ++ (leBytes 4 v ++ x) = (leBytes 4 u ++ leBytes 4 v) ++ x :=
    (List.append_assoc _ _ _).symm
  rw [hsplit]
  refine ⟨word_in_front r.sec.toNat_lt _, word_of_append (by simp) r.usec.toNat_lt, ?_, ?_⟩
  · rw [htwo]
    exact word_of_append (by simp) hlen
  · rw [htwo, ← List.append_assoc (leBytes 4 r.sec.toNat ++ leBytes 4 r.usec.toNat)]
    exact word_of_append (by simp) r.origLen.toNat_lt

theorem nextPlain_record {snapLen : UInt32} {r : Record} (hr : r.WellFormed snapLen) (link : ℕ) (t : List UInt8) :
    nextPlain (link, r.bytes ++ t) = (1, some r.packet, (link, t)) := by
  have hlen : r.data.length < 2 ^ 32 := hr.captured.trans_lt snapLen.toNat_lt
  obtain ⟨hsec, husec, hcap, horig⟩ := words_of_record hlen t
  have hsize : (r.bytes ++ t).length = 16 + r.data.length + t.length := by
    rw [List.length_append, Record.bytes, List.length_append, length_header]
  have hne : r.bytes ++ t ≠ [] := List.ne_nil_of_length_pos (by omega)
  have hdata : (r.bytes ++ t).drop 16 = r.data ++ t := by
    rw [Record.bytes, List.append_assoc, List.drop_left' (length_header r)]
  have hrest : (r.bytes ++ t).drop (16 + r.data.length) = t := by
    rw [← List.drop_drop, hdata, List.drop_left]
  rw [nextPlain]
  dsimp only
  rw [if_neg hne, if_neg (by rw [hsize, hcap]; omega), hsec, husec, hcap, horig, hdata, hrest, List.take_left,
    UInt32.ofNat_toNat]
  rfl

theorem plain_nextEx (h : ℕ × List UInt8) : plain.nextEx h = nextPlain h := rfl

theorem plain_yields {snapLen : UInt32} {rs : List Record} (h : ∀ r ∈ rs, r.WellFormed snapLen) (link : ℕ) :
    plain.Yields (link, rs.flatMap Record.bytes) rs := by
  induction rs with
  | nil => exact ⟨none, (link, []), rfl⟩
  | cons r rs ih =>
    obtain ⟨hr, hrs⟩ := List.forall_mem_cons.mp h
    have hnext := nextPlain_record hr link (rs.flatMap Record.bytes)
    rw [← plain_nextEx] at hnext
    rw [List.flatMap_cons]
    exact ⟨(link, rs.flatMap Record.bytes), hnext, ih hrs⟩

theorem openPlain_capture (c : Capture) : openPlain c.bytes = .ok (1, c.records.flatMap Record.bytes) := by
  have hlen : (fileHeader c.snapLen).length = 24 := by simp [fileHeader]
  have hmagic : word c.bytes 0 = 0xA1B2C3D4 := by
    rw [Capture.bytes, fileHeader, List.append_assoc]
    exact word_in_front (by norm_num) _
  have hlink : word c.bytes 20 = 1 := by
    have hsplit : c.bytes = (leBytes 4 0xA1B2C3D4 ++ (leBytes 2 2 ++ (leBytes 2 4 ++ (leBytes 4 0 ++ (leBytes 4 0 ++
        leBytes 4 c.snapLen.toNat))))) ++ (leBytes 4 1 ++ c.records.flatMap Record.bytes) := by
      simp only [Capture.bytes, fileHeader, List.append_assoc]
    rw [hsplit]
    exact word_of_append (by simp) (by norm_num)
  have hrest : c.bytes.drop 24 = c.records.flatMap Record.bytes := by
    rw [Capture.bytes, List.drop_left' hlen]
  have hlong : ¬ c.bytes.length < 24 := by
    rw [Capture.bytes, List.length_append, hlen]
    omega
  rw [openPlain, if_neg hlong, if_neg (not_not.mpr hmagic), hlink, hrest]

theorem plain_readsCaptures : plain.ReadsCaptures := by
  intro c hc
  have hopen := openPlain_capture c
  generalize c.bytes = bytes at hopen ⊢
  exact ⟨((1 : ℕ), c.records.flatMap Record.bytes), hopen, rfl, plain_yields hc 1⟩

end Libpcap

end MdfeedItch.CaptureFormat
