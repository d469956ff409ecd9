import MdfeedItch.FrameGrammar

/-! # Streams of frames

A stream of encoded messages decodes to these messages, frame by frame. Encoding a
decoded message again gives the bytes back for every type but the stock directory,
whose last fourteen bytes the decoder skips and the encoder leaves as they were. -/
namespace MdfeedItch
open ByteCursor ByteLayout

theorem decodeFrame_frame {m : AnyMessage} (hts : m.ts.toNat < 2 ^ 48) {b : List UInt8}
    (hbytes : frameBytes m <+: b)
    (hroom : framedSize m ≤ b.length) : decodeFrame b = ⟨.ok, framedSize m, some m⟩ := by
  obtain ⟨rest, rfl⟩ := hbytes
  refine (Outcome.message ?_ hts rfl).eq
  rw [Truncated, (frameBytes_front m rest).1]
  unfold framedSize at hroom
  omega

theorem decodeFrame_message_iff {b : List UInt8} {m : AnyMessage} : (decodeFrame b).message = some m ↔
    m.ts.toNat < 2 ^ 48 ∧ framedSize m ≤ b.length ∧ frameBytes m <+: b := by
  constructor
  · intro hm
    have hout := decodeFrame_outcome b
    generalize decodeFrame b = r at hout hm
    cases hout with
    | truncated h => cases hm
    | empty h hempty => cases hm
    | unknown h hsome htype => cases hm
    | mismatch h hsome htype hsize => cases hm
    | @message m' rest h hts hbytes =>
      obtain rfl := Option.some.inj hm
      refine ⟨hts, ?_, rest, hbytes.symm⟩
      have hwhole := (not_or.mp h).2
      rw [hbytes, (frameBytes_front m' rest).1, ← hbytes] at hwhole
      exact Nat.not_lt.mp hwhole
  · rintro ⟨hts, hroom, hbytes⟩
    rw [decodeFrame_frame hts hbytes hroom]

/-- `decode_frame` called again and again at the offset advanced by `consumed`: the
results and what is left. -/
def decodeStream : ℕ → List UInt8 → List ParseResult × List UInt8
  | 0, bytes => ([], bytes)
  | n + 1, bytes =>
    let r := decodeFrame bytes
    let later := decodeStream n (bytes.drop r.consumed)
    (r :: later.1, later.2)

/-- Messages with the buffer each is encoded into; the encoded buffers one after the other. -/
def encodeStream (sends : List (AnyMessage × List UInt8)) : List UInt8 :=
  sends.flatMap (fun s => (encodeFrame s.1 s.2).2)

theorem encodeFrame_exact {m : AnyMessage} {out : List UInt8} (h : out.length = framedSize m) :
    (encodeFrame m out).1 = framedSize m ∧ (encodeFrame m out).2.length = framedSize m ∧
      frameBytes m <+: (encodeFrame m out).2 := by
  have hwritten : (frameBytes m).length ≤ framedSize m := by
    rw [length_frameBytes, framedSize]
    have hread := bytesRead_lt m.type
    omega
  rw [encodeFrame_eq h.ge]
  refine ⟨rfl, ?_, List.prefix_append _ _⟩
  rw [List.length_append, List.length_drop, h]
  omega

/-- Every list of messages comes back from its encoding, in front of any bytes. -/
theorem stream_round_trip (sends : List (AnyMessage × List UInt8)) (t : List UInt8)
    (hts : ∀ s ∈ sends, s.1.ts.toNat < 2 ^ 48) (hbuf : ∀ s ∈ sends, s.2.length = framedSize s.1) :
    (∀ s ∈ sends, (encodeFrame s.1 s.2).1 = framedSize s.1) ∧
      decodeStream sends.length (encodeStream sends ++ t) =
        (sends.map (fun s => ⟨.ok, framedSize s.1, some s.1⟩), t) := by
  refine ⟨fun s hs => (encodeFrame_exact (hbuf s hs)).1, ?_⟩
  induction sends with
  | nil => rfl
  | cons s sends ih =>
    obtain ⟨-, hlen, hbytes⟩ := encodeFrame_exact (hbuf s (by simp))
    have hsplit : encodeStream (s :: sends) ++ t = (encodeFrame s.1 s.2).2 ++ (encodeStream sends ++ t) := by
      rw [encodeStream, List.flatMap_cons, List.append_assoc]
      rfl
    have hfirst : decodeFrame (encodeStream (s :: sends) ++ t) = ⟨.ok, framedSize s.1, some s.1⟩ := by
      rw [hsplit]
      refine decodeFrame_frame (hts s (by simp)) (hbytes.trans (List.prefix_append _ _)) ?_
      rw [List.length_append, hlen]
      omega
    have hrest := ih (fun s hs => hts s (by simp [hs])) (fun s hs => hbuf s (by simp [hs]))
    rw [List.length_cons, decodeStream, hfirst, hsplit]
    dsimp only
    rw [← hlen, List.drop_left, hrest, hlen]
    rfl

theorem two_messages_round_trip :
    let sends := [(AnyMessage.orderDelete ⟨1, 2, 3, 4⟩, List.replicate 21 7),
      (.systemEvent ⟨5, 6, 7, 0x4F⟩, List.replicate 14 7)]
    (decodeStream 2 (encodeStream sends ++ [9])).2 = [9] ∧
      (decodeStream 2 (encodeStream sends ++ [9])).1.map ParseResult.message = sends.map
        (fun s => some s.1) := by
  intro sends
  have h := (stream_round_trip sends [9] (by decide) (by decide)).2
  rw [show sends.length = 2 from rfl] at h
  rw [h]
  exact ⟨rfl, rfl⟩

/-- The timestamp that the six bytes on the wire keep. -/
def wireTs (ts : Timestamp) : Timestamp := UInt64.ofNat (ts.toNat % 2 ^ 48)

def AnyMessage.onWire : AnyMessage → AnyMessage
  | systemEvent m => systemEvent { m with ts := wireTs m.ts }
  | stockDirectory m => stockDirectory { m with ts := wireTs m.ts }
  | addOrder m => addOrder { m with ts := wireTs m.ts }
  | addOrderMPID m => addOrderMPID { m with base := { m.base with ts := wireTs m.base.ts } }
  | orderExecuted m => orderExecuted { m with ts := wireTs m.ts }
  | orderExecutedWithPrice m => orderExecutedWithPrice { m with base := { m.base with ts := wireTs m.base.ts } }
  | orderCancel m => orderCancel { m with ts := wireTs m.ts }
  | orderDelete m => orderDelete { m with ts := wireTs m.ts }
  | orderReplace m => orderReplace { m with ts := wireTs m.ts }
  | trade m => trade { m with ts := wireTs m.ts }

theorem toNat_wireTs (ts : Timestamp) : (wireTs ts).toNat = ts.toNat % 2 ^ 48 :=
  UInt64.toNat_ofNat_of_lt' ((Nat.mod_lt _ (by norm_num)).trans (by norm_num))

theorem u48Bytes_wireTs (ts : Timestamp) : u48Bytes (wireTs ts) = u48Bytes ts := by
  rw [u48Bytes, u48Bytes, toNat_wireTs]
  exact toBytes_mod 6 ts.toNat

/-- The wire does not tell a message from what the receiver sees. -/
theorem frameBytes_onWire (m : AnyMessage) : frameBytes m.onWire = frameBytes m := by
  cases m <;>
    simp only [AnyMessage.onWire, frameBytes, frameFields, headerFields, bodyFields, addOrderFields,
      orderExecutedFields,
      AnyMessage.type, AnyMessage.stockLocate, AnyMessage.trackingNumber, AnyMessage.ts, u48Bytes_wireTs]

theorem type_onWire (m : AnyMessage) : m.onWire.type = m.type := by cases m <;> rfl

theorem ts_onWire (m : AnyMessage) : m.onWire.ts.toNat < 2 ^ 48 := by
  have hts : m.onWire.ts = wireTs m.ts := by cases m <;> rfl
  rw [hts, toNat_wireTs]
  exact Nat.mod_lt _ (by norm_num)

theorem decodeFrame_onWire (m : AnyMessage) {out : List UInt8} (hout : out.length = framedSize m)
    (t : List UInt8) :
    decodeFrame ((encodeFrame m out).2 ++ t) = ⟨.ok, framedSize m, some m.onWire⟩ := by
  obtain ⟨-, hlen, hbytes⟩ := encodeFrame_exact hout
  have hsize : framedSize m.onWire = framedSize m := by rw [framedSize, type_onWire, framedSize]
  have h := decodeFrame_frame (ts_onWire m) (b := (encodeFrame m out).2 ++ t)
    (by rw [frameBytes_onWire]; exact hbytes.trans (List.prefix_append _ _))
      (by rw [hsize, List.length_append, hlen]; omega)
  rw [h, hsize]

/-- The bytes of a frame that are neither read nor written: those of a stock
directory behind its round lot size. -/
def unreadBytes (b : List UInt8) : List UInt8 := (b.drop 27).take 14

/-- A decoded frame is reproduced exactly when it is no stock directory, or the
buffer happens to hold its last fourteen bytes. -/
theorem reencode_iff {b : List UInt8} {m : AnyMessage} (hm : (decodeFrame b).message = some m)
    {out : List UInt8}
    (hout : (decodeFrame b).consumed ≤ out.length) :
    let n := (decodeFrame b).consumed
    ((encodeFrame m out).1 = n ∧ (encodeFrame m out).2.take n = b.take n) ↔
      b.getD 2 0 ≠ MessageType.stockDirectory.code ∨ unreadBytes out = unreadBytes b := by
  obtain ⟨hts, hroom, rest, hbytes⟩ := decodeFrame_message_iff.mp hm
  have hn : (decodeFrame b).consumed = framedSize m := by
    rw [decodeFrame_frame hts ⟨rest, hbytes⟩ hroom]
  have htype : b.getD 2 0 = m.type.code := hbytes ▸ (frameBytes_front m rest).2.1
  have hwritten := length_frameBytes m
  intro n
  have hnsize : n = framedSize m := hn
  rw [hn] at hout
  rw [encodeFrame_eq hout, hnsize, htype]
  dsimp only
  have hread := bytesRead_lt m.type
  have hback : b = frameBytes m ++ b.drop (frameBytes m).length := by
    rw [← hbytes, List.drop_left]
  have hbound : (frameBytes m).length ≤ framedSize m := by rw [hwritten, framedSize]; omega
  -- behind the written bytes the buffer decides, in front of them both sides agree
  have hcut : (frameBytes m ++ out.drop (frameBytes m).length).take (framedSize m) = b.take (framedSize m) ↔
      (out.drop (frameBytes m).length).take (framedSize m - (frameBytes m).length) =
        (b.drop (frameBytes m).length).take (framedSize m - (frameBytes m).length) := by
    conv_lhs => rhs; rw [hback]
    rw [List.take_append, List.take_append, List.take_of_length_le hbound, List.append_cancel_left_eq]
  rw [hcut, and_iff_right rfl, hwritten, framedSize]
  by_cases hdir : m.type = .stockDirectory
  · rw [hdir]
    simp [unreadBytes, bytesRead, MessageType.wireSize]
  · have hall : 3 + bytesRead m.type = 2 + m.type.wireSize := by
      cases ht : m.type with
      | stockDirectory => exact absurd ht hdir
      | _ => rfl
    rw [hall, Nat.sub_self]
    refine iff_of_true (by simp) (Or.inl (fun hcode => hdir ?_))
    have := (MessageType.ofByte_code m.type).symm.trans
      ((congrArg _ hcode).trans (MessageType.ofByte_code .stockDirectory))
    exact Option.some.inj this

private def directoryFrame : List UInt8 := [0, 39, 0x52] ++ List.replicate 24 0 ++ List.replicate 14 1

theorem reencoded_delete :
    let b := [0, 19, 0x44, 0, 1, 0, 2, 0, 0, 0, 0, 0, 3, 0, 0, 0, 0, 0, 0, 0, 4, 9]
    let m := AnyMessage.orderDelete ⟨1, 2, 3, 4⟩
    (encodeFrame m (List.replicate 30 7)).1 = 21 ∧ (encodeFrame m (List.replicate 30 7)).2.take 21 =
      b.take 21 := by
  intro b m
  have hm : (decodeFrame b).message = some m := by decide
  have hn : (decodeFrame b).consumed = 21 := by decide
  have hroom : (decodeFrame b).consumed ≤ (List.replicate 30 (7 : UInt8)).length := by rw [hn]; decide
  have h := (reencode_iff hm hroom).mpr (Or.inl (by decide))
  rwa [hn] at h

/-- The last bytes of a stock directory do not survive. -/
theorem directory_not_reencoded : ¬ ∀ (b : List UInt8) (m : AnyMessage) (out : List UInt8),
    (decodeFrame b).message = some m → (decodeFrame b).consumed ≤ out.length →
      (encodeFrame m out).1 = (decodeFrame b).consumed ∧
        (encodeFrame m out).2.take (decodeFrame b).consumed = b.take (decodeFrame b).consumed := by
  intro hall
  have hm : (decodeFrame directoryFrame).message = some
    (.stockDirectory ⟨0, 0, 0, Vector.replicate 8 0, 0, 0, 0⟩) := by decide
  have hn : (decodeFrame directoryFrame).consumed = 41 := by decide
  have h := (hall directoryFrame _ (List.replicate 41 0) hm (by rw [hn]; decide)).2
  rw [hn] at h
  exact absurd h (by decide)

end MdfeedItch
