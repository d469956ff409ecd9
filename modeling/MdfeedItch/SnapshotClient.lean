import MdfeedItch.BookSnapshotCodec
import MdfeedItch.FeedHandler

/-! # Frames of the recovery channel

`recovery/snapshot_client.cpp`: requests, responses and faults behind a length and
an op code. The sum `4 + len` of the decoder has 32 bits, so a huge length wraps. -/
namespace MdfeedItch.SnapshotClient
open ByteCursor ByteLayout GuardedReads

structure SnapshotFault where
  stockLocate : StockLocate
  code : UInt8
  deriving DecidableEq, Repr

inductive Kind | none | request | response | fault
  deriving DecidableEq, Repr

structure DecodedFrame where
  kind : Kind := .none
  request : SnapshotRequest := ⟨0, 0⟩
  response : SnapshotResponse := ⟨0, 0, Vector.replicate symbolLen 0, [], []⟩
  fault : SnapshotFault := ⟨0, 0⟩
  deriving DecidableEq, Repr

def frameWithHeader (op : UInt8) (body : List UInt8) : List UInt8 :=
  u32Bytes (UInt32.ofNat (1 + body.length)) ++ (u8Bytes op ++ body)

def requestBody (req : SnapshotRequest) : List UInt8 := u16Bytes req.stockLocate ++ u64Bytes req.fromSeq

def responseBody (resp : SnapshotResponse) : List UInt8 :=
  u16Bytes resp.stockLocate ++ (u64Bytes resp.lastAppliedSeq ++ (arrayBytes resp.symbol ++
    (u32Bytes (UInt32.ofNat resp.bids.length) ++ (resp.bids.flatMap levelBytes ++
      (u32Bytes (UInt32.ofNat resp.asks.length) ++ resp.asks.flatMap levelBytes)))))

def faultBody (f : SnapshotFault) : List UInt8 := u16Bytes f.stockLocate ++ u8Bytes f.code

def encodeRequest (req : SnapshotRequest) : List UInt8 := frameWithHeader 0x51 (requestBody req)
def encodeResponse (resp : SnapshotResponse) : List UInt8 := frameWithHeader 0x53 (responseBody resp)
def encodeFault (f : SnapshotFault) : List UInt8 := frameWithHeader 0x46 (faultBody f)

/-- The cases of the `switch`: what is in `out` and whether the case reached its end.
`behind` bytes of the buffer lie at and behind `end`. -/
def decodeRequest (behind : ℤ) : Cursor (DecodedFrame × Bool) :=
  guarded behind 10 ({}, false) do
    let stockLocate ← readU16
    let fromSeq ← readU64
    return ({ kind := .request, request := { stockLocate, fromSeq } }, true)

def decodeFault (behind : ℤ) : Cursor (DecodedFrame × Bool) :=
  guarded behind 3 ({}, false) do
    let stockLocate ← readU16
    let code ← readU8
    return ({ kind := .fault, fault := { stockLocate, code } }, true)

def decodeResponse (behind : ℤ) : Cursor (DecodedFrame × Bool) :=
  guarded behind (2 + 8 + symbolLen + 4) ({}, false) do
    let stockLocate ← readU16
    let lastAppliedSeq ← readU64
    let symbol ← readSymbol
    let bn ← readU32
    let header : SnapshotResponse := { stockLocate, lastAppliedSeq, symbol, bids := [], asks := [] }
    guarded behind (bn.toNat * 12 + 4) ({ kind := .response, response := header }, false) do
      let bids ← takeMany readLevel bn.toNat
      let an ← readU32
      guarded behind (an.toNat * 12) ({ kind := .response, response := { header with bids } }, false) do
        let asks ← takeMany readLevel an.toNat
        return ({ kind := .response, response := { header with bids, asks } }, true)

def decodeOp (behind : ℤ) (op : UInt8) : Cursor (DecodedFrame × Bool) :=
  if op = 0x51 then decodeRequest behind
  else if op = 0x46 then decodeFault behind
  else if op = 0x53 then decodeResponse behind
  else return ({}, false)

/-- `decode_frame` with its `consumed`. No result stands for a read outside the buffer. -/
def decodeFrame (bytes : List UInt8) : Option (DecodedFrame × ℕ) :=
  if bytes.length < 5 then some ({}, 0)
  else do
    let len ← readAt readU32 bytes 0
    let total := (4 + len).toNat
    if bytes.length < total then return ({}, 0)
    else
      let op ← readAt readU8 bytes 4
      let (out, complete) ← readAt (decodeOp ((bytes.length : ℤ) - (4 + len.toNat)) op) bytes 5
      return (out, if complete then total else 0)

theorem length_frameWithHeader (op : UInt8) (body : List UInt8) :
    (frameWithHeader op body).length = 5 + body.length := by
  simp only [frameWithHeader, u32Bytes, u8Bytes, List.length_append, length_toBytes, List.length_cons,
    List.length_nil]
  omega

/-- The header of a frame hands its body to the case of its op code. -/
theorem decodeFrame_header {op : UInt8} {body : List UInt8}
    (hlen : (frameWithHeader op body).length ≤ 2 ^ 32 - 1)
    (t : List UInt8) {out : DecodedFrame}
    (hbody : (decodeOp t.length op).run (body ++ t) = some ((out, true), t)) :
    decodeFrame (frameWithHeader op body ++ t) = some (out, (frameWithHeader op body).length) := by
  rw [length_frameWithHeader] at hlen
  obtain ⟨len, hl⟩ : ∃ len : UInt32, UInt32.ofNat (1 + body.length) = len := ⟨_, rfl⟩
  have hlenNat : len.toNat = 1 + body.length := by
    rw [← hl]
    exact UInt32.toNat_ofNat_of_lt' (show 1 + body.length < 2 ^ 32 by omega)
  have htotal : (4 + len).toNat = 5 + body.length := by
    rw [UInt32.toNat_add, hlenNat]
    show (4 + (1 + body.length)) % 2 ^ 32 = _
    rw [Nat.mod_eq_of_lt (by omega)]
    omega
  have hsplit : frameWithHeader op body ++ t = u32Bytes len ++ (u8Bytes op ++ (body ++ t)) := by
    rw [frameWithHeader, hl]
    simp only [List.append_assoc]
  have hsize : (frameWithHeader op body ++ t).length = 5 + body.length + t.length := by
    rw [List.length_append, length_frameWithHeader]
  have hbehind : ((frameWithHeader op body ++ t).length : ℤ) - (4 + len.toNat) = t.length := by
    rw [hsize, hlenNat]
    omega
  have hfour : (u32Bytes len).length = 4 := by rw [u32Bytes, length_toBytes]
  have hreadLen : readAt readU32 (frameWithHeader op body ++ t) 0 = some len := by
    rw [hsplit]
    exact readAt_run (readU32_accepts.run trivial _)
  have hreadOp : readAt readU8 (frameWithHeader op body ++ t) 4 = some op := by
    apply readAt_run
    rw [hsplit, List.drop_left' hfour]
    exact readU8_accepts.run trivial _
  have hreadBody : readAt (decodeOp t.length op) (frameWithHeader op body ++ t) 5 = some (out, true) := by
    apply readAt_run
    rw [hsplit, show 5 = 4 + 1 from rfl, ← List.drop_drop, List.drop_left' hfour]
    exact hbody
  rw [decodeFrame, if_neg (by omega), hreadLen, Option.bind_eq_bind, Option.bind_some]
  dsimp only
  rw [htotal, if_neg (by omega), hreadOp, hbehind, length_frameWithHeader]
  simp only [Option.bind_eq_bind, Option.bind_some, hreadBody]
  rfl

theorem length_requestBody (req : SnapshotRequest) : (requestBody req).length = 10 := by
  simp [requestBody, u16Bytes, u64Bytes]

/-- A request is read in front of any bytes, whether they are of its frame or behind it. -/
theorem run_decodeRequest_append (req : SnapshotRequest) {left : ℕ} {t : List UInt8} (hleft : left ≤ t.length) :
    (decodeRequest left).run (requestBody req ++ t) = some (({ kind := .request, request := req }, true), t) := by
  have hlen := length_requestBody req
  rw [decodeRequest, run_guarded_enough (by rw [List.length_append, hlen]; omega), requestBody, List.append_assoc]
  refine run_bind_eq_some.mpr ⟨_, _, readU16_accepts.run trivial _, ?_⟩
  exact run_bind_eq_some.mpr ⟨_, _, readU64_accepts.run trivial _, rfl⟩

theorem request_round_trip (req : SnapshotRequest) (t : List UInt8) :
    decodeFrame (encodeRequest req ++ t) =
      some ({ kind := .request, request := req }, (encodeRequest req).length) := by
  apply decodeFrame_header
  · rw [length_frameWithHeader, length_requestBody]
    norm_num
  · exact run_decodeRequest_append req (Nat.le_refl t.length)

theorem fault_round_trip (f : SnapshotFault) (t : List UInt8) :
    decodeFrame (encodeFault f ++ t) = some ({ kind := .fault, fault := f }, (encodeFault f).length) := by
  have hlen : (faultBody f).length = 3 := by simp [faultBody, u16Bytes, u8Bytes]
  apply decodeFrame_header
  · rw [length_frameWithHeader, hlen]
    norm_num
  · have hrun : (decodeFault t.length).run (faultBody f ++ t) =
      some (({ kind := .fault, fault := f }, true), t) := by
      rw [decodeFault, run_guarded_enough (by rw [List.length_append, hlen]; omega), faultBody,
        List.append_assoc]
      refine run_bind_eq_some.mpr ⟨_, _, readU16_accepts.run trivial _, ?_⟩
      exact run_bind_eq_some.mpr ⟨_, _, readU8_accepts.run trivial _, rfl⟩
    exact hrun

theorem length_responseBody (resp : SnapshotResponse) :
    (responseBody resp).length = 26 + resp.bids.length * 12 + resp.asks.length * 12 := by
  simp only [responseBody, u16Bytes, u32Bytes, u64Bytes, arrayBytes, List.length_append, length_toBytes,
    length_levels, Vector.length_toList, symbolLen]
  omega

/-- A response whose frame length fits its prefix comes back from the wire. -/
theorem response_round_trip {resp : SnapshotResponse} (hlen : (encodeResponse resp).length ≤ 2 ^ 32 - 1)
    (t : List UInt8) :
    decodeFrame (encodeResponse resp ++ t) =
      some ({ kind := .response, response := resp }, (encodeResponse resp).length) := by
  have hbody := length_responseBody resp
  have hframe := hlen
  rw [encodeResponse, length_frameWithHeader, hbody] at hframe
  have hbn : (UInt32.ofNat resp.bids.length).toNat = resp.bids.length :=
    UInt32.toNat_ofNat_of_lt' (show resp.bids.length < 2 ^ 32 by omega)
  have han : (UInt32.ofNat resp.asks.length).toNat = resp.asks.length :=
    UInt32.toNat_ofNat_of_lt' (show resp.asks.length < 2 ^ 32 by omega)
  apply decodeFrame_header hlen
  have hrun : (decodeResponse t.length).run (responseBody resp ++ t) =
    some (({ kind := .response, response := resp }, true), t) := by
    rw [decodeResponse, run_guarded_enough (by rw [List.length_append, hbody]; push_cast; omega),
      responseBody]
    simp only [List.append_assoc]
    refine run_bind_eq_some.mpr ⟨_, _, readU16_accepts.run trivial _, ?_⟩
    refine run_bind_eq_some.mpr ⟨_, _, readU64_accepts.run trivial _, ?_⟩
    refine run_bind_eq_some.mpr ⟨_, _, (readArray_accepts symbolLen).run trivial _, ?_⟩
    refine run_bind_eq_some.mpr ⟨_, _, readU32_accepts.run trivial _, ?_⟩
    rw [hbn]
    have hlevels := length_levels resp.bids
    have hlevels' := length_levels resp.asks
    rw [run_guarded_enough (by
      simp only [List.length_append, hlevels, hlevels', u32Bytes, length_toBytes]; push_cast; omega)]
    refine run_bind_eq_some.mpr ⟨_, _, (readLevels_accepts _).run rfl _, ?_⟩
    refine run_bind_eq_some.mpr ⟨_, _, readU32_accepts.run trivial _, ?_⟩
    rw [han, run_guarded_enough (by rw [List.length_append, hlevels']; push_cast; omega)]
    exact run_bind_eq_some.mpr ⟨_, _, (readLevels_accepts _).run rfl _, rfl⟩
  exact hrun

end MdfeedItch.SnapshotClient
