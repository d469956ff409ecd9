import MdfeedItch.PcapFiles

/-! # The headers of a written packet

The bytes that the writer pushes are the fixed-width numbers of the formats, and
`ip_checksum` is the ones-complement checksum of 16 bits. So the lengths in a packet
are those of its payload, and the IPv4 header sums up to ones. -/
namespace MdfeedItch
open ByteCursor ByteLayout OnesComplement CaptureFormat

theorem toUInt8_low (x : UInt16) : x.toUInt8 = UInt8.ofNat x.toNat := by
  rw [← UInt8.toNat_inj, UInt16.toNat_toUInt8, UInt8.toNat_ofNat']

theorem toUInt8_high (x : UInt16) : (x >>> 8).toUInt8 = UInt8.ofNat (x.toNat / 256) := by
  have hshift : (x >>> 8).toNat = x.toNat / 256 := by
    rw [UInt16.toNat_shiftRight]
    exact Nat.shiftRight_eq_div_pow x.toNat 8
  rw [toUInt8_low, hshift]

theorem toUInt8_shift (x : UInt32) {i : ℕ} (hi : i < 4) :
    (x >>> UInt32.ofNat (i * 8)).toUInt8 = UInt8.ofNat (x.toNat / 256 ^ i) := by
  have hbits : (UInt32.ofNat (i * 8)).toNat % 32 = i * 8 := by
    rw [UInt32.toNat_ofNat']
    omega
  have hpow : 256 ^ i = 2 ^ (i * 8) := by
    rw [Nat.mul_comm, pow_mul]
    norm_num
  rw [← UInt8.toNat_inj, UInt32.toNat_toUInt8, UInt32.toNat_shiftRight, hbits, Nat.shiftRight_eq_div_pow, hpow,
    UInt8.toNat_ofNat']

theorem putU16be_eq (x : UInt16) : putU16be x = toBytes 2 x.toNat := by
  rw [putU16be, toUInt8_high, toUInt8_low]
  simp [toBytes]

theorem putU16le_eq (x : UInt16) : putU16le x = leBytes 2 x.toNat := by
  rw [putU16le, toUInt8_high, toUInt8_low]
  simp [leBytes, toBytes]

theorem putU32le_eq (x : UInt32) : putU32le x = leBytes 4 x.toNat := by
  rw [putU32le, leBytes_eq_map]
  exact List.map_congr_left (fun i hi => toUInt8_shift x (List.mem_range.mp hi))

theorem toNat_high (a : UInt8) : (a.toUInt32 <<< 8).toNat = a.toNat * 256 := by
  have ha := a.toNat_lt
  rw [UInt32.toNat_shiftLeft, UInt8.toNat_toUInt32]
  show a.toNat <<< 8 % 2 ^ 32 = _
  rw [Nat.shiftLeft_eq]
  omega

theorem toNat_word (a b : UInt8) : (a.toUInt32 <<< 8 ||| b.toUInt32).toNat = a.toNat * 256 + b.toNat := by
  have hor := Nat.two_pow_add_eq_or_of_lt (i := 8) b.toNat_lt a.toNat
  rw [UInt32.toNat_or, toNat_high, UInt8.toNat_toUInt32, Nat.mul_comm]
  exact hor.symm

theorem sumWords_toNat {sum : UInt32} {data : List UInt8} (h : sum.toNat + wordSum data < 2 ^ 32) :
    (sumWords sum data).toNat = sum.toNat + wordSum data := by
  induction sum, data using sumWords.induct with
  | case1 sum => rfl
  | case2 sum a =>
    rw [wordSum] at h ⊢
    rw [sumWords, UInt32.toNat_add, toNat_high, Nat.mod_eq_of_lt h]
  | case3 sum a b rest ih =>
    rw [wordSum] at h
    have hsum : (sum + (a.toUInt32 <<< 8 ||| b.toUInt32)).toNat = sum.toNat + (a.toNat * 256 + b.toNat) := by
      rw [UInt32.toNat_add, toNat_word]
      omega
    rw [sumWords, ih (by rw [hsum]; omega), hsum, wordSum]
    omega

theorem foldCarries_toNat (sum : UInt32) : (foldCarries sum).toNat = fold sum.toNat := by
  induction sum using foldCarries.induct with
  | case1 sum h ih =>
    have hlarge := shiftRight_ne_zero.mp h
    rw [foldCarries, if_pos h, ih, toNat_carries]
    conv_rhs => rw [fold, if_neg (by omega)]
  | case2 sum h =>
    have hsmall := mt shiftRight_ne_zero.mpr h
    rw [foldCarries, if_neg h, fold, if_pos (by omega)]

theorem wordSum_le (data : List UInt8) : wordSum data ≤ 65280 * data.length := by
  induction data using wordSum.induct with
  | case1 => simp [wordSum]
  | case2 a =>
    have := a.toNat_lt
    rw [wordSum, List.length_singleton]
    omega
  | case3 a b rest ih =>
    have := a.toNat_lt
    have := b.toNat_lt
    rw [wordSum, List.length_cons, List.length_cons]
    omega

theorem ipChecksum_toNat {data : List UInt8} (h : data.length ≤ 65535) : (ipChecksum data).toNat = checksum data := by
  have hle := wordSum_le data
  have hzero : (0 : UInt32).toNat = 0 := rfl
  have hsum : (sumWords 0 data).toNat = wordSum data := by
    rw [sumWords_toNat (by rw [hzero]; omega), hzero, Nat.zero_add]
  have hfold : (foldCarries (sumWords 0 data)).toNat = fold (wordSum data) := by rw [foldCarries_toNat, hsum]
  have hlt := fold_lt (wordSum data)
  have hmask : (~~~foldCarries (sumWords 0 data) &&& 0xFFFF).toNat = (2 ^ 32 - 1 - fold (wordSum data)) % 2 ^ 16 := by
    rw [UInt32.toNat_and, UInt32.toNat_not, hfold]
    exact Nat.and_two_pow_sub_one_eq_mod _ 16
  rw [ipChecksum, checksum, UInt32.toNat_toUInt16, hmask]
  omega

def ethHeader : List UInt8 := [0x01, 0x00, 0x5e, 0x00, 0x00, 0x07, 0x02, 0x00, 0x00, 0x00, 0x00, 0x01, 0x08, 0x00]

/-- The IPv4 header in front of its checksum. -/
def ipv4Front (ipTotal : UInt16) : List UInt8 := [0x45, 0x00] ++ putU16be ipTotal ++ [0, 0, 0, 0, 0x10, 0x11]

/-- The addresses behind it. -/
def ipv4Back : List UInt8 := [127, 0, 0, 1, 239, 0, 0, 7]

/-- The IPv4 header of a packet. -/
def sealedHeader (ipTotal : UInt16) : List UInt8 :=
  ipv4Front ipTotal ++ (putU16be (ipChecksum (ipv4Header ipTotal)) ++ ipv4Back)

def udpHeader (dstPort udpLen : UInt16) : List UInt8 :=
  putU16be 50007 ++ (putU16be dstPort ++ (putU16be udpLen ++ putU16be 0x0000))

/-- The checksum is taken from the header behind the Ethernet one and written into it. -/
theorem datagramFrame_eq (payload : List UInt8) (dstPort : UInt16) :
    datagramFrame payload dstPort =
      let udpLen := UInt16.ofNat (kUdpHeaderLen + payload.length)
      ethHeader ++ (sealedHeader (UInt16.ofNat (kIpv4HeaderLen + udpLen.toNat)) ++
        (udpHeader dstPort udpLen ++ payload)) := by
  have heth : [0x01, 0x00, 0x5e, 0x00, 0x00, 0x07] ++ [0x02, 0x00, 0x00, 0x00, 0x00, 0x01] ++ putU16be 0x0800 =
      ethHeader := rfl
  have hheader (t : UInt16) : ((ethHeader ++ ipv4Header t).drop ethHeader.length).take kIpv4HeaderLen = ipv4Header t := by
    rw [List.drop_left]
    rfl
  have hseal (t x : UInt16) : ((ethHeader ++ ipv4Header t).set (ethHeader.length + 10) (x >>> 8).toUInt8).set
      (ethHeader.length + 11) x.toUInt8 = ethHeader ++ (ipv4Front t ++ (putU16be x ++ ipv4Back)) := rfl
  unfold datagramFrame
  dsimp only
  rw [heth, hheader, hseal]
  simp only [sealedHeader, udpHeader, List.append_assoc]

theorem fold_sealedHeader (ipTotal : UInt16) : foldCarries (sumWords 0 (sealedHeader ipTotal)) = 0xFFFF := by
  have hlen : (ipv4Header ipTotal).length = 20 := rfl
  have hseal : (sealedHeader ipTotal).length = 20 := rfl
  have hheader : ipv4Header ipTotal = ipv4Front ipTotal ++ (toBytes 2 0 ++ ipv4Back) := rfl
  have hsealed : sealedHeader ipTotal =
      ipv4Front ipTotal ++ (toBytes 2 (checksum (ipv4Front ipTotal ++ (toBytes 2 0 ++ ipv4Back))) ++ ipv4Back) := by
    rw [sealedHeader, putU16be_eq, ipChecksum_toNat (by omega), hheader]
  have hfront : Even (ipv4Front ipTotal).length := ⟨5, rfl⟩
  have hle := wordSum_le (sealedHeader ipTotal)
  have hzero : (0 : UInt32).toNat = 0 := rfl
  have hones : (0xFFFF : UInt32).toNat = 65535 := rfl
  rw [← UInt32.toNat_inj, foldCarries_toNat, sumWords_toNat (by rw [hzero]; omega), hzero, Nat.zero_add, hsealed, hones]
  exact fold_wordSum_checksum hfront ipv4Back

/-- What a packet around a payload says about it. -/
structure PacketOf (payload frame : List UInt8) : Prop where
  ipTotal : ofBytes ((frame.drop 16).take 2) = 28 + payload.length
  udpLen : ofBytes ((frame.drop 38).take 2) = 8 + payload.length
  checksum : foldCarries (sumWords 0 ((frame.drop 14).take 20)) = 0xFFFF

theorem length_datagramFrame (payload : List UInt8) (dstPort : UInt16) :
    (datagramFrame payload dstPort).length = kHeadersLen + payload.length := by
  rw [datagramFrame_eq]
  dsimp only
  rw [List.length_append, List.length_append, List.length_append, ← Nat.add_assoc, ← Nat.add_assoc]
  rfl

theorem drop_datagramFrame (payload : List UInt8) (dstPort : UInt16) :
    (datagramFrame payload dstPort).drop kHeadersLen = payload := by
  rw [datagramFrame_eq]
  dsimp only
  rw [← List.append_assoc (sealedHeader _), ← List.append_assoc ethHeader]
  exact List.drop_left' rfl

/-- The lengths in a packet are right as long as they fit in 16 bits. -/
theorem packetOf_datagramFrame {payload : List UInt8} (h : payload.length ≤ 65493) (dstPort : UInt16) :
    PacketOf payload (datagramFrame payload dstPort) := by
  have hudp : (UInt16.ofNat (kUdpHeaderLen + payload.length)).toNat = 8 + payload.length :=
    UInt16.toNat_ofNat_of_lt' (by show 8 + payload.length < 65536; omega)
  have hip : (UInt16.ofNat (kIpv4HeaderLen + (UInt16.ofNat (kUdpHeaderLen + payload.length)).toNat)).toNat =
      28 + payload.length := by
    rw [hudp]
    show (20 + (8 + payload.length)) % 65536 = _
    omega
  rw [datagramFrame_eq]
  refine ⟨?_, ?_, ?_⟩
  · show ofBytes (putU16be _) = _
    rw [putU16be_eq, ofBytes_toBytes, hip]
    omega
  · show ofBytes (putU16be _) = _
    rw [putU16be_eq, ofBytes_toBytes, hudp]
    omega
  · exact fold_sealedHeader _

end MdfeedItch
