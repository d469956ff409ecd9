import MdfeedItch.FrameRoundTrip

/-! # Three size tables and one bounds check

`framed_size`, the size that each arm of `encode_frame` gives to `write_header` and the
offsets of its writes are kept apart in `core/parser.cpp`. Here every arm has its own
constants, and a write may leave the buffer. The tables agree, so the check of
`write_header` covers all writes behind it and `encodeFrame` is what the arms compute. -/
namespace MdfeedItch
open ByteCursor ByteLayout

abbrev kWireSizeS : ℕ := 12
abbrev kWireSizeR : ℕ := 39
abbrev kWireSizeA : ℕ := 36
abbrev kWireSizeF : ℕ := 40
abbrev kWireSizeE : ℕ := 31
abbrev kWireSizeC : ℕ := 36
abbrev kWireSizeX : ℕ := 23
abbrev kWireSizeD : ℕ := 19
abbrev kWireSizeU : ℕ := 35
abbrev kWireSizeP : ℕ := 44

namespace FrameArms

def framedSize : AnyMessage → ℕ
  | .systemEvent _ => 2 + kWireSizeS
  | .stockDirectory _ => 2 + kWireSizeR
  | .addOrder _ => 2 + kWireSizeA
  | .addOrderMPID _ => 2 + kWireSizeF
  | .orderExecuted _ => 2 + kWireSizeE
  | .orderExecutedWithPrice _ => 2 + kWireSizeC
  | .orderCancel _ => 2 + kWireSizeX
  | .orderDelete _ => 2 + kWireSizeD
  | .orderReplace _ => 2 + kWireSizeU
  | .trade _ => 2 + kWireSizeP

/-- What it returns and the buffer it leaves; `none` is a write outside of the buffer. -/
def writeHeader (out : List UInt8) (wireSize : ℕ) (type : UInt8) (stockLocate : StockLocate)
    (trackingNumber : TrackingNumber) (ts : Timestamp) : Option (ℕ × List UInt8) := do
  if out.length < 2 + wireSize then return (0, out)
  let out ← writeAll out [(0, u16Bytes (UInt16.ofNat wireSize)), (2, u8Bytes type), (3, u16Bytes stockLocate),
    (5, u16Bytes trackingNumber), (7, u48Bytes ts)]
  return (2 + wireSize, out)

/-- An arm of `encode_frame`: behind its header the writes at absolute offsets and the size it returns. -/
def arm (header : Option (ℕ × List UInt8)) (writes : List Field) (size : ℕ) : Option (ℕ × List UInt8) := do
  let (n, out) ← header
  if n = 0 then return (0, out)
  let out ← writeAll out writes
  return (size, out)

def encodeFrame (msg : AnyMessage) (out : List UInt8) : Option (ℕ × List UInt8) :=
  match msg with
  | .systemEvent m =>
    arm (writeHeader out kWireSizeS 0x53 m.stockLocate m.trackingNumber m.ts) [(13, u8Bytes m.eventCode)]
      (2 + kWireSizeS)
  | .stockDirectory m =>
    arm (writeHeader out kWireSizeR 0x52 m.stockLocate m.trackingNumber m.ts)
      [(13, arrayBytes m.symbol), (21, u8Bytes m.marketCategory), (22, u8Bytes m.financialStatus),
        (23, u32Bytes m.roundLotSize)]
      (2 + kWireSizeR)
  | .addOrder m =>
    arm (writeHeader out kWireSizeA 0x41 m.stockLocate m.trackingNumber m.ts)
      [(13, u64Bytes m.orderId), (21, u8Bytes m.side.code), (22, u32Bytes m.shares), (26, arrayBytes m.symbol),
        (34, u32Bytes m.price)]
      (2 + kWireSizeA)
  | .addOrderMPID m =>
    arm (writeHeader out kWireSizeF 0x46 m.base.stockLocate m.base.trackingNumber m.base.ts)
      [(13, u64Bytes m.base.orderId), (21, u8Bytes m.base.side.code), (22, u32Bytes m.base.shares),
        (26, arrayBytes m.base.symbol), (34, u32Bytes m.base.price), (38, arrayBytes m.attribution)]
      (2 + kWireSizeF)
  | .orderExecuted m =>
    arm (writeHeader out kWireSizeE 0x45 m.stockLocate m.trackingNumber m.ts)
      [(13, u64Bytes m.orderId), (21, u32Bytes m.executedShares), (25, u64Bytes m.matchNumber)]
      (2 + kWireSizeE)
  | .orderExecutedWithPrice m =>
    arm (writeHeader out kWireSizeC 0x43 m.base.stockLocate m.base.trackingNumber m.base.ts)
      [(13, u64Bytes m.base.orderId), (21, u32Bytes m.base.executedShares), (25, u64Bytes m.base.matchNumber),
        (33, u8Bytes m.printable), (34, u32Bytes m.executionPrice)]
      (2 + kWireSizeC)
  | .orderCancel m =>
    arm (writeHeader out kWireSizeX 0x58 m.stockLocate m.trackingNumber m.ts)
      [(13, u64Bytes m.orderId), (21, u32Bytes m.canceledShares)]
      (2 + kWireSizeX)
  | .orderDelete m =>
    arm (writeHeader out kWireSizeD 0x44 m.stockLocate m.trackingNumber m.ts) [(13, u64Bytes m.orderId)]
      (2 + kWireSizeD)
  | .orderReplace m =>
    arm (writeHeader out kWireSizeU 0x55 m.stockLocate m.trackingNumber m.ts)
      [(13, u64Bytes m.originalOrderId), (21, u64Bytes m.newOrderId), (29, u32Bytes m.shares),
        (33, u32Bytes m.price)]
      (2 + kWireSizeU)
  | .trade m =>
    arm (writeHeader out kWireSizeP 0x50 m.stockLocate m.trackingNumber m.ts)
      [(13, u64Bytes m.orderId), (21, u8Bytes m.side.code), (22, u32Bytes m.shares), (26, arrayBytes m.symbol),
        (34, u32Bytes m.price), (38, u64Bytes m.matchNumber)]
      (2 + kWireSizeP)

theorem framedSize_eq (msg : AnyMessage) : framedSize msg = MdfeedItch.framedSize msg := by
  cases msg <;> rfl

/-- Size, type and writes of every arm are those of the one table by message type. -/
theorem encodeFrame_eq_arm (msg : AnyMessage) (out : List UInt8) :
    encodeFrame msg out =
      arm (writeHeader out msg.type.wireSize msg.type.code msg.stockLocate msg.trackingNumber msg.ts) (bodyFields msg)
        (MdfeedItch.framedSize msg) := by
  cases msg <;> rfl

/-- All writes end inside of the checked size. -/
theorem frameFields_within (msg : AnyMessage) :
    ∀ f ∈ frameFields msg, f.1 + f.2.length ≤ MdfeedItch.framedSize msg := by
  intro f hf
  have hend := (frameFields_consecutive msg).within f hf
  have hlen : (fieldBytes (frameFields msg)).length = 3 + bytesRead msg.type := length_frameBytes msg
  have hread := bytesRead_lt msg.type
  rw [MdfeedItch.framedSize]
  omega

/-- In a buffer with enough room the header and what is behind it are written. -/
theorem writeAll_frame {msg : AnyMessage} {out : List UInt8} (h : MdfeedItch.framedSize msg ≤ out.length) :
    writeAll out (headerFields msg) = some (overwriteAll out (headerFields msg)) ∧
      writeAll (overwriteAll out (headerFields msg)) (bodyFields msg) = some (overwriteAll out (frameFields msg)) := by
  have hroom : ∀ f ∈ headerFields msg ++ bodyFields msg, f.1 + f.2.length ≤ out.length :=
    fun f hf => (frameFields_within msg f hf).trans h
  have hheader : writeAll out (headerFields msg) = some (overwriteAll out (headerFields msg)) :=
    writeAll_eq (fun f hf => hroom f (List.mem_append_left _ hf))
  have hall : writeAll out (headerFields msg ++ bodyFields msg) = some (overwriteAll out (frameFields msg)) :=
    writeAll_eq hroom
  refine ⟨hheader, ?_⟩
  rw [writeAll, List.foldlM_append] at hall
  rw [writeAll] at hheader ⊢
  rwa [hheader] at hall

/-- No arm writes outside of the buffer, and together they are the encoder. -/
theorem encodeFrame_eq (msg : AnyMessage) (out : List UInt8) :
    encodeFrame msg out = some (MdfeedItch.encodeFrame msg out) := by
  have hheader : writeHeader out msg.type.wireSize msg.type.code msg.stockLocate msg.trackingNumber msg.ts =
      if out.length < MdfeedItch.framedSize msg then some (0, out)
      else (writeAll out (headerFields msg)).bind (fun out => some (MdfeedItch.framedSize msg, out)) := rfl
  rw [encodeFrame_eq_arm, hheader, MdfeedItch.encodeFrame]
  by_cases hshort : out.length < MdfeedItch.framedSize msg
  · rw [if_pos hshort, if_pos hshort]
    rfl
  · obtain ⟨hfirst, hbehind⟩ := writeAll_frame (Nat.not_lt.mp hshort)
    have hsize : MdfeedItch.framedSize msg ≠ 0 := by
      rw [MdfeedItch.framedSize]
      omega
    rw [if_neg hshort, if_neg hshort, hfirst, Option.bind_some, arm]
    simp only [Option.bind_eq_bind, Option.bind_some, if_neg hsize, hbehind]
    rfl

/-- With enough room the encoder returns the framed size, which is two more than the length it wrote
in front, and leaves the bytes from there on; otherwise it returns 0 and leaves the buffer. -/
theorem encodeFrame_respects_buffer (msg : AnyMessage) (out : List UInt8) :
    (framedSize msg ≤ out.length → ∃ out', encodeFrame msg out = some (framedSize msg, out') ∧
      framedSize msg = 2 + ofBytes (out'.take 2) ∧ out'.length = out.length ∧
      out'.drop (framedSize msg) = out.drop (framedSize msg)) ∧
    (out.length < framedSize msg → encodeFrame msg out = some (0, out)) := by
  rw [framedSize_eq, encodeFrame_eq]
  constructor
  · intro h
    have hread := bytesRead_lt msg.type
    have hlen := length_frameBytes msg
    have hsize : MdfeedItch.framedSize msg = 2 + msg.type.wireSize := rfl
    rw [MdfeedItch.encodeFrame_eq h]
    refine ⟨_, rfl, ?_, ?_, ?_⟩
    · have hword : (UInt16.ofNat msg.type.wireSize).toNat = msg.type.wireSize := by cases msg <;> rfl
      rw [frameBytes_eq, List.append_assoc, List.take_left' (length_u16Bytes _), u16Bytes, hword, ofBytes_toBytes,
        Nat.mod_eq_of_lt (show msg.type.wireSize < 256 ^ 2 from msg.type.wireSize_lt)]
      exact hsize
    · rw [List.length_append, List.length_drop]
      omega
    · rw [List.drop_append, List.drop_drop, List.drop_eq_nil_of_le (by omega), List.nil_append]
      congr 1
      omega
  · intro h
    rw [MdfeedItch.encodeFrame, if_pos h]

end FrameArms

end MdfeedItch
