import MdfeedItch.CaptureFormat
import MdfeedItch.OnesComplement
import MdfeedItch.ItchMessages

/-! # Writing and reading captures

`pcap/pcap_io.h` and `pcap/pcap_io.cpp`. A file is its content; `Disk` says how many
of the bytes given to `fwrite` it takes. The reader runs on a library for captures,
and its loops are given the number of passes they may take. -/
namespace MdfeedItch
open CaptureFormat

abbrev kEthHeaderLen : ℕ := 14
abbrev kIpv4HeaderLen : ℕ := 20
abbrev kUdpHeaderLen : ℕ := 8
abbrev kHeadersLen : ℕ := kEthHeaderLen + kIpv4HeaderLen + kUdpHeaderLen

def putU16le (x : UInt16) : List UInt8 := [x.toUInt8, (x >>> 8).toUInt8]

def putU32le (x : UInt32) : List UInt8 := (List.range 4).map (fun i => (x >>> UInt32.ofNat (i * 8)).toUInt8)

def putU16be (x : UInt16) : List UInt8 := [(x >>> 8).toUInt8, x.toUInt8]

/-- The first loop of `ip_checksum`, and the odd byte behind it. -/
def sumWords (sum : UInt32) : List UInt8 → UInt32
  | [] => sum
  | [a] => sum + a.toUInt32 <<< 8
  | a :: b :: rest => sumWords (sum + (a.toUInt32 <<< 8 ||| b.toUInt32)) rest

theorem toNat_shiftRight_16 (sum : UInt32) : (sum >>> 16).toNat = sum.toNat / 65536 := by
  rw [UInt32.toNat_shiftRight]
  exact Nat.shiftRight_eq_div_pow sum.toNat 16

theorem toNat_carries (sum : UInt32) :
    ((sum &&& (0xFFFF : UInt32)) + (sum >>> 16)).toNat = sum.toNat % 65536 + sum.toNat / 65536 := by
  have hlow : (sum &&& (0xFFFF : UInt32)).toNat = sum.toNat % 65536 := by
    rw [UInt32.toNat_and]
    exact Nat.and_two_pow_sub_one_eq_mod sum.toNat 16
  have hlt := sum.toNat_lt
  rw [UInt32.toNat_add, hlow, toNat_shiftRight_16]
  omega

theorem shiftRight_ne_zero {sum : UInt32} : sum >>> 16 ≠ 0 ↔ 65536 ≤ sum.toNat := by
  have hzero : (0 : UInt32).toNat = 0 := rfl
  rw [ne_eq, ← UInt32.toNat_inj, toNat_shiftRight_16, hzero]
  omega

/-- The second loop of `ip_checksum`. -/
def foldCarries (sum : UInt32) : UInt32 :=
  if sum >>> 16 ≠ 0 then foldCarries ((sum &&& (0xFFFF : UInt32)) + (sum >>> 16)) else sum
termination_by sum.toNat
decreasing_by
  rename_i h
  have hlarge := shiftRight_ne_zero.mp h
  rw [toNat_carries]
  omega

def ipChecksum (data : List UInt8) : UInt16 := (~~~foldCarries (sumWords 0 data) &&& 0xFFFF).toUInt16

abbrev kPcapMagic : UInt32 := 0xA1B2C3D4
abbrev kPcapVersionMajor : UInt16 := 2
abbrev kPcapVersionMinor : UInt16 := 4
abbrev kSnapLen : UInt32 := 65535
abbrev kDltEn10mb : UInt32 := 1

/-- The IPv4 header with its checksum still zero. -/
def ipv4Header (ipTotal : UInt16) : List UInt8 :=
  [0x45, 0x00] ++ putU16be ipTotal ++ putU16be 0x0000 ++ putU16be 0x0000 ++ [0x10, 0x11] ++ putU16be 0x0000 ++
    [127, 0, 0, 1] ++ [239, 0, 0, 7]

/-- The network frame that `write_datagram` builds around a payload. -/
def datagramFrame (payload : List UInt8) (dstPort : UInt16) : List UInt8 :=
  let ethDst : List UInt8 := [0x01, 0x00, 0x5e, 0x00, 0x00, 0x07]
  let ethSrc : List UInt8 := [0x02, 0x00, 0x00, 0x00, 0x00, 0x01]
  let frame := ethDst ++ ethSrc ++ putU16be 0x0800
  let udpLen := UInt16.ofNat (kUdpHeaderLen + payload.length)
  let ipTotal := UInt16.ofNat (kIpv4HeaderLen + udpLen.toNat)
  let ipOff := frame.length
  let frame := frame ++ ipv4Header ipTotal
  let ipck := ipChecksum ((frame.drop ipOff).take kIpv4HeaderLen)
  let frame := (frame.set (ipOff + 10) (ipck >>> 8).toUInt8).set (ipOff + 11) ipck.toUInt8
  frame ++ putU16be 50007 ++ putU16be dstPort ++ putU16be udpLen ++ putU16be 0x0000 ++ payload

/-- How many bytes of the second list are written to a file that holds the first. -/
abbrev Disk := List UInt8 → List UInt8 → ℕ

/-- The number of bytes written, and the file with them. There is no buffer in between: `close` ignores
whether `fclose` could write the last bytes, and is not part of the model. -/
def fwrite (disk : Disk) (file data : List UInt8) : ℕ × List UInt8 :=
  let n := min (disk file data) data.length
  (n, file ++ data.take n)

/-- The content of the open file, if there is one. -/
structure PcapWriter where
  file : Option (List UInt8)

namespace PcapWriter

def openFile (disk : Disk) (path : String) (fopen : Bool) : Except String PcapWriter :=
  if fopen then
    let ghdr := putU32le kPcapMagic ++ putU16le kPcapVersionMajor ++ putU16le kPcapVersionMinor ++ putU32le 0 ++
      putU32le 0 ++ putU32le kSnapLen ++ putU32le kDltEn10mb
    let (n, file) := fwrite disk [] ghdr
    if n ≠ ghdr.length then .error "short write of pcap global header" else .ok ⟨some file⟩
  else .error ("cannot open pcap file for writing: " ++ path)

def writeDatagram (disk : Disk) (w : PcapWriter) (payload : List UInt8) (tsUs : UInt64) (dstPort : UInt16) :
    Bool × PcapWriter :=
  match w.file with
  | none => (false, w)
  | some file =>
    let frame := datagramFrame payload dstPort
    let rhdr := putU32le (tsUs / 1000000).toUInt32 ++ putU32le (tsUs % 1000000).toUInt32 ++
      putU32le (UInt32.ofNat frame.length) ++ putU32le (UInt32.ofNat frame.length)
    let (n, file) := fwrite disk file rhdr
    if n ≠ rhdr.length then (false, ⟨some file⟩)
    else
      let (n, file) := fwrite disk file frame
      if n ≠ frame.length then (false, ⟨some file⟩) else (true, ⟨some file⟩)

end PcapWriter

structure PcapRecord where
  tsUs : UInt64
  payload : List UInt8

structure PcapReader (lib : Libpcap) where
  handle : Option lib.Handle
  eof : Bool

namespace PcapReader
variable {lib : Libpcap}

def openFile (lib : Libpcap) (file : List UInt8) : Except String (PcapReader lib) :=
  match lib.openOffline file with
  | .error errbuf => .error ("pcap_open_offline: " ++ errbuf)
  | .ok p =>
    if lib.datalink p ≠ kDltEn10mb.toNat then .error "unexpected link type; expected Ethernet (DLT_EN10MB)"
    else .ok ⟨some p, false⟩

/-- The next record, or none where `next` returns false; no answer where its loop takes more passes. -/
def next : ℕ → PcapReader lib → Option (Option PcapRecord × PcapReader lib)
  | 0, _ => none
  | passes + 1, r =>
    match r.handle with
    | none => some (none, r)
    | some p =>
      let (rc, packet, p') := lib.nextEx p
      if rc = -2 then some (none, ⟨some p', true⟩)
      else match (if rc = 1 then packet else none) with
        | none => if rc < 0 then some (none, ⟨some p', true⟩) else next passes ⟨some p', r.eof⟩
        | some (hdr, data) =>
          -- too short to carry a payload
          if hdr.caplen.toNat ≤ kHeadersLen then next passes ⟨some p', r.eof⟩
          else
            let payloadLen := hdr.caplen.toNat - kHeadersLen
            let tsUs := UInt64.ofInt hdr.tvSec * 1000000 + UInt64.ofInt hdr.tvUsec
            some (some ⟨tsUs, (data.drop kHeadersLen).take payloadLen⟩, ⟨some p', r.eof⟩)

/-- All records that `next` fills until it returns false. -/
def readAll : ℕ → PcapReader lib → Option (List PcapRecord × PcapReader lib)
  | 0, _ => none
  | passes + 1, r => do
    match ← next (passes + 1) r with
    | (none, r) => return ([], r)
    | (some rec, r) =>
      let (recs, r) ← readAll passes r
      return (rec :: recs, r)

end PcapReader

end MdfeedItch
