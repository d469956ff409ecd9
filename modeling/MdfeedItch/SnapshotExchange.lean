import MdfeedItch.Reconciliation
import MdfeedItch.RecoveryFrames
import MdfeedItch.SocketFrames

/-! # A snapshot over TCP

`sim/snapshot_server.cpp` and the requester of `tests/integration/gap_fill_test.cpp`:
one connection for every request, a frame each way. The calls on both sockets move
any number of bytes, are interrupted or fail. -/
namespace MdfeedItch
open ByteCursor ByteLayout GuardedReads PartialTransfers SnapshotClient

abbrev SnapshotProvider := SnapshotRequest → SnapshotResponse

structure SocketCalls where
  sends : List Call
  receives : List Call

/-! ## The two ends of a connection -/

/-- The body of the loop in `run` behind `accept_one`: the bytes that the client gets
before the connection is closed, and whether it counts as served. No value while the
server waits. -/
def serveConnection (provider : SnapshotProvider) (incoming : List UInt8) (calls : SocketCalls) :
    Option (List UInt8 × Bool) := do
  let (received, _, _) ← Socket.tcpRecvFrame incoming calls.receives
  match received with
  | none => return ([], false)
  | some frame =>
    let (dec, _) ← SnapshotClient.decodeFrame frame
    if dec.kind ≠ .request then return ([], false)
    else
      -- the result of `tcp_send_all` is not looked at
      let (_, sent, _) ← Socket.tcpSendAll (encodeResponse (provider dec.request)) [] calls.sends
      return (sent, true)

/-- The requester: connect, send the request, receive one frame. The inner option is its
result; there is no value while it waits. -/
def fetchSnapshot (provider : SnapshotProvider) (connected : Bool) (client server : SocketCalls) (req : SnapshotRequest) :
    Option (Option SnapshotResponse) :=
  if !connected then return none
  else do
    let (ok, sent, _) ← Socket.tcpSendAll (encodeRequest req) [] client.sends
    if !ok then return none
    else
      let (reply, _) ← serveConnection provider sent server
      let (received, _, _) ← Socket.tcpRecvFrame reply client.receives
      match received with
      | none => return none
      | some frame =>
        let (dec, _) ← SnapshotClient.decodeFrame frame
        if dec.kind ≠ .response then return none else return some dec.response

/-! ## Frames behind a header -/

def maxFrame : ℕ := 16 * 1024 * 1024

section Frames
variable {op : UInt8} {body frame : List UInt8} {out : DecodedFrame} {complete : Bool} {rest : List UInt8}

theorem declaredLength_frame (hlimit : 1 + body.length < 2 ^ 32) :
    declaredLength (frameWithHeader op body) = 1 + body.length := by
  have hfour : (frameWithHeader op body).take 4 = u32Bytes (UInt32.ofNat (1 + body.length)) := by
    rw [frameWithHeader, List.take_left' (by rw [u32Bytes, length_toBytes])]
  rw [declaredLength, hfour, u32Bytes, ofBytes_toBytes, UInt32.toNat_ofNat_of_lt' hlimit]
  exact Nat.mod_eq_of_lt hlimit

theorem wireFrame_iff : Socket.WireFrame frame ↔
    ∃ op body, frame = frameWithHeader op body ∧ 1 + body.length ≤ maxFrame := by
  constructor
  · rintro ⟨hsize, hnonempty, hlimit⟩
    obtain ⟨op, hop⟩ : ∃ op, (frame.drop 4).head? = some op := by
      refine ⟨_, List.head?_eq_some_head (List.ne_nil_of_length_pos ?_)⟩
      rw [List.length_drop]
      omega
    obtain ⟨body, hbody⟩ := List.head?_eq_some_iff.mp hop
    have hlen : 1 + body.length = ofBytes (frame.take 4) := by
      have := congrArg List.length hbody
      rw [List.length_drop, List.length_cons] at this
      omega
    refine ⟨op, body, ?_, hlen ▸ hlimit⟩
    have hfour : u32Bytes (UInt32.ofNat (1 + body.length)) = frame.take 4 := by
      rw [hlen, u32Bytes, toNat_ofBytes_four, toBytes_ofBytes (List.length_take_of_le (by omega))]
    rw [frameWithHeader, hfour]
    exact ((List.take_append_drop 4 frame).symm.trans (congrArg (frame.take 4 ++ ·) hbody))
  · rintro ⟨op, body, rfl, hlimit⟩
    have hlt : 1 + body.length < 2 ^ 32 := hlimit.trans_lt (by decide)
    have hdeclared : ofBytes ((frameWithHeader op body).take 4) = 1 + body.length := declaredLength_frame hlt
    refine ⟨?_, ?_, ?_⟩
    · rw [hdeclared, length_frameWithHeader]
      omega
    · rw [hdeclared]
      omega
    · rw [hdeclared]
      exact hlimit

theorem decodeFrame_wire (hlimit : 1 + body.length ≤ maxFrame) : SnapshotClient.decodeFrame (frameWithHeader op body) =
    ((decodeOp 0 op).run body).map (fun r => (r.1.1, if r.1.2 then 5 + body.length else 0)) := by
  have hlt : 1 + body.length < 2 ^ 32 - 4 := hlimit.trans_lt (by decide)
  have hsplit : frameWithHeader op body = (u32Bytes (UInt32.ofNat (1 + body.length)) ++ u8Bytes op) ++ body :=
    (List.append_assoc _ _ _).symm
  have hop : (frameWithHeader op body)[4]? = some op := by
    rw [frameWithHeader, List.getElem?_append_right (by rw [u32Bytes, length_toBytes]), u32Bytes, length_toBytes]
    rfl
  have hdrop : (frameWithHeader op body).drop 5 = body := by
    rw [hsplit, List.drop_left' (by simp [u32Bytes, u8Bytes])]
  rw [decodeFrame_eq hop, declaredLength_frame (by omega), length_frameWithHeader,
    show 4 + (1 + body.length) = 5 + body.length by omega, Nat.mod_eq_of_lt (by omega), if_neg (by omega)]
  have hroom : ((5 + body.length : ℕ) : ℤ) - (4 + (1 + body.length : ℕ)) = 0 := by omega
  rw [hroom, readAt, hdrop, Option.map_map]
  rfl

/-- What the decoder makes of a body: a request exactly of its op code and the bytes of one. -/
theorem decodeOp_asked (h : (decodeOp 0 op).run body = some ((out, complete), rest)) (hkind : out.kind = .request) :
    op = 0x51 ∧ body = requestBody out.request ++ rest := by
  unfold decodeOp at h
  split_ifs at h with hrequest hfault hresponse
  · refine ⟨hrequest, ?_⟩
    rw [decodeRequest, run_guarded] at h
    split_ifs at h
    · cases h
      cases hkind
    · obtain ⟨stockLocate, mid, hlocate, h⟩ := run_bind_eq_some.mp h
      obtain ⟨fromSeq, mid', hfrom, h⟩ := run_bind_eq_some.mp h
      obtain ⟨hout, hrest⟩ := run_pure_eq_some.mp h
      cases hout
      rw [((readU16_accepts body stockLocate mid).mp hlocate).2, ((readU64_accepts mid fromSeq mid').mp hfrom).2, hrest,
        requestBody, List.append_assoc]
  · rw [decodeFault, run_guarded] at h
    split_ifs at h
    · cases h
      cases hkind
    · obtain ⟨stockLocate, mid, -, h⟩ := run_bind_eq_some.mp h
      obtain ⟨code, mid', -, h⟩ := run_bind_eq_some.mp h
      obtain ⟨hout, -⟩ := run_pure_eq_some.mp h
      cases hout
      cases hkind
  · rw [decodeResponse, run_guarded] at h
    split_ifs at h
    · cases h
      cases hkind
    · obtain ⟨stockLocate, mid, -, h⟩ := run_bind_eq_some.mp h
      obtain ⟨lastAppliedSeq, mid', -, h⟩ := run_bind_eq_some.mp h
      obtain ⟨symbol, mid₂, -, h⟩ := run_bind_eq_some.mp h
      obtain ⟨bn, mid₃, -, h⟩ := run_bind_eq_some.mp h
      exact absurd ((decodeLevels_kind h).symm.trans hkind) (by decide)
  · cases (run_pure_eq_some.mp h).1
    cases hkind

theorem run_decodeOp_request (req : SnapshotRequest) (extra : List UInt8) :
    (decodeOp 0 0x51).run (requestBody req ++ extra) = some (({ kind := .request, request := req }, true), extra) :=
  run_decodeRequest_append req (Nat.zero_le extra.length)

theorem decodeFrame_total (hframe : Socket.WireFrame frame) :
    ∃ out consumed, SnapshotClient.decodeFrame frame = some (out, consumed) := by
  obtain ⟨op, body, rfl, hlimit⟩ := wireFrame_iff.mp hframe
  have hlen := length_frameWithHeader op body
  have hdeclared : declaredLength (frameWithHeader op body) = 1 + body.length := declaredLength_frame (hlimit.trans_lt (by decide))
  obtain ⟨out, consumed, hdecode, -⟩ := @staysInside_whole (frameWithHeader op body) (by omega) (by omega)
  exact ⟨out, consumed, hdecode⟩

end Frames

/-! ## What the server answers -/

/-- The bytes begin with the frame of a request, which may hold more than the request. -/
def AsksFor (incoming : List UInt8) (req : SnapshotRequest) : Prop :=
  ∃ extra rest, incoming = frameWithHeader 0x51 (requestBody req ++ extra) ++ rest ∧ 11 + extra.length ≤ maxFrame

section Server
variable {provider : SnapshotProvider} {incoming : List UInt8} {req : SnapshotRequest} {calls : SocketCalls}

theorem AsksFor.wireFrame {extra : List UInt8} (hlimit : 11 + extra.length ≤ maxFrame) :
    Socket.WireFrame (frameWithHeader 0x51 (requestBody req ++ extra)) :=
  wireFrame_iff.mpr ⟨0x51, requestBody req ++ extra, rfl, by rw [List.length_append, length_requestBody]; omega⟩

/-- The decoder finds a request exactly where the bytes ask for one. -/
theorem decodeFrame_asksFor {frame rest : List UInt8} (hframe : Socket.WireFrame frame) {out : DecodedFrame} {consumed : ℕ}
    (h : SnapshotClient.decodeFrame frame = some (out, consumed)) :
    (out.kind = .request → AsksFor (frame ++ rest) out.request) ∧
      ∀ req, AsksFor (frame ++ rest) req → out.kind = .request ∧ out.request = req := by
  refine ⟨fun hkind => ?_, ?_⟩
  · obtain ⟨op, body, rfl, hlimit⟩ := wireFrame_iff.mp hframe
    rw [decodeFrame_wire hlimit, Option.map_eq_some_iff] at h
    obtain ⟨⟨⟨out', complete⟩, extra⟩, hrun, hout⟩ := h
    cases hout
    obtain ⟨rfl, hbody⟩ := decodeOp_asked hrun hkind
    refine ⟨extra, rest, by rw [hbody], ?_⟩
    rw [hbody, List.length_append, length_requestBody] at hlimit
    omega
  · rintro req ⟨extra, rest', hsame, hlimit⟩
    have hasked := @AsksFor.wireFrame req extra hlimit
    have hfirst := Socket.tcpRecvFrame_whole hframe rest
    rw [hsame, Socket.tcpRecvFrame_whole hasked rest'] at hfirst
    cases hfirst
    rw [decodeFrame_wire (by rw [List.length_append, length_requestBody]; omega), run_decodeOp_request] at h
    cases h
    exact ⟨rfl, rfl⟩

theorem AsksFor.received (h : AsksFor incoming req) : ∃ frame rest consumed, incoming = frame ++ rest ∧
    Socket.WireFrame frame ∧ SnapshotClient.decodeFrame frame = some ({ kind := .request, request := req }, consumed) := by
  obtain ⟨extra, rest, hsame, hlimit⟩ := h
  refine ⟨_, rest, 5 + (requestBody req ++ extra).length, hsame, AsksFor.wireFrame hlimit, ?_⟩
  rw [decodeFrame_wire (by rw [List.length_append, length_requestBody]; omega), run_decodeOp_request]
  rfl

/-- Whatever the calls do, the server sends nothing but a first part of the answer to what
it was asked for. -/
theorem serveConnection_sound {sent : List UInt8} {served : Bool}
    (h : serveConnection provider incoming calls = some (sent, served)) :
    (served = false → sent = []) ∧
      (served = true → ∃ req, AsksFor incoming req ∧ sent <+: encodeResponse (provider req)) := by
  rw [serveConnection] at h
  cases hreceive : Socket.tcpRecvFrame incoming calls.receives with
  | none => simp [hreceive] at h
  | some r =>
    obtain ⟨received, rest, left⟩ := r
    cases received with
    | none =>
      simp only [hreceive, Option.bind_eq_bind, Option.bind_some, Option.pure_def, Option.some.injEq, Prod.mk.injEq] at h
      obtain ⟨rfl, rfl⟩ := h
      exact ⟨fun _ => rfl, fun hserved => by cases hserved⟩
    | some frame =>
      obtain ⟨hframe, rfl⟩ := Socket.tcpRecvFrame_front hreceive
      obtain ⟨out, consumed, hdecode⟩ := decodeFrame_total hframe
      simp only [hreceive, hdecode, Option.bind_eq_bind, Option.bind_some, Option.pure_def] at h
      by_cases hkind : out.kind = .request
      · rw [if_neg (not_not_intro hkind)] at h
        cases hsend : Socket.tcpSendAll (encodeResponse (provider out.request)) [] calls.sends with
        | none => simp [hsend] at h
        | some r =>
          obtain ⟨ok, stream, left'⟩ := r
          simp only [hsend, Option.bind_some, Option.some.injEq, Prod.mk.injEq] at h
          obtain ⟨rfl, rfl⟩ := h
          obtain ⟨n, hstream, -⟩ := writeAll_prefix hsend
          rw [List.nil_append, List.drop_zero] at hstream
          refine ⟨fun hserved => (by cases hserved), fun _ => ⟨out.request, (decodeFrame_asksFor hframe hdecode).1 hkind, ?_⟩⟩
          rw [hstream]
          exact List.take_prefix _ _
      · rw [if_pos hkind, Option.some.injEq, Prod.mk.injEq] at h
        obtain ⟨rfl, rfl⟩ := h
        exact ⟨fun _ => rfl, fun hserved => by cases hserved⟩

/-- When no call fails, what asks for a snapshot is answered, and nothing else. -/
theorem serveConnection_lossless (hreceives : Serves calls.receives (incoming.length + 1))
    (hsends : ∀ req, AsksFor incoming req → Serves calls.sends (encodeResponse (provider req)).length) :
    (∀ req, AsksFor incoming req → serveConnection provider incoming calls = some (encodeResponse (provider req), true)) ∧
      ((∀ req, ¬ AsksFor incoming req) → serveConnection provider incoming calls = some ([], false)) := by
  refine ⟨fun req hreq => ?_, fun hnone => ?_⟩
  · have hcalls := hsends req hreq
    obtain ⟨frame, rest, consumed, rfl, hframe, hdecode⟩ := hreq.received
    obtain ⟨left, hreceive, -⟩ := Socket.recv_next hframe hreceives
    obtain ⟨left', hsend, -⟩ := writeAll_spec (m := 0) [] (Nat.zero_le (encodeResponse (provider req)).length) hcalls
    rw [List.nil_append, List.drop_zero] at hsend
    simp only [serveConnection, hreceive, hdecode, Option.bind_eq_bind, Option.bind_some, ne_eq, not_true_eq_false, if_false,
      Socket.tcpSendAll, hsend, Option.pure_def]
  · have hrefines := Socket.tcpRecvFrame_refines hreceives
    cases hpure : MdfeedItch.tcpRecvFrame incoming with
    | none =>
      rw [hpure] at hrefines
      obtain ⟨left, hreceive⟩ := hrefines
      simp only [serveConnection, hreceive, Option.bind_eq_bind, Option.bind_some, Option.pure_def]
    | some r =>
      obtain ⟨received, rest⟩ := r
      rw [hpure] at hrefines
      obtain ⟨left, hreceive, -⟩ := hrefines
      cases received with
      | none => simp only [serveConnection, hreceive, Option.bind_eq_bind, Option.bind_some, Option.pure_def]
      | some frame =>
        obtain ⟨hframe, rfl⟩ := Socket.tcpRecvFrame_front hreceive
        obtain ⟨out, consumed, hdecode⟩ := decodeFrame_total hframe
        have hkind : out.kind ≠ .request := fun hkind => hnone _ ((decodeFrame_asksFor hframe hdecode).1 hkind)
        simp only [serveConnection, hreceive, hdecode, Option.bind_eq_bind, Option.bind_some, if_pos hkind, Option.pure_def]

end Server

/-! ## The loop over the connections -/

/-- A connection that the server accepts: what the provider answers at that time, all the
bytes that the client sends before it closes its end, and the server's calls. -/
structure SnapshotVisit where
  provider : SnapshotProvider
  incoming : List UInt8
  calls : SocketCalls

/-- No call on the connection fails, and the client reads what it is sent. -/
structure SnapshotVisit.Lossless (v : SnapshotVisit) : Prop where
  receives : Serves v.calls.receives (v.incoming.length + 1)
  sends : ∀ req, AsksFor v.incoming req → Serves v.calls.sends (encodeResponse (v.provider req)).length

/-- What a client gets, and whether it counts as served. A client that is heard counts, whether
or not all of the answer can be sent; one whose connection does not fail gets all of it
if it asks, and nothing else. -/
structure SnapshotVisit.Answered (v : SnapshotVisit) (sent : List UInt8) (served : Bool) : Prop where
  heard : served = true → ∃ req, AsksFor v.incoming req ∧ sent <+: encodeResponse (v.provider req)
  silent : served = false → sent = []
  whole : v.Lossless → ∀ req, AsksFor v.incoming req → sent = encodeResponse (v.provider req) ∧ served = true

theorem SnapshotVisit.answered {v : SnapshotVisit} {sent : List UInt8} {served : Bool}
    (h : serveConnection v.provider v.incoming v.calls = some (sent, served)) : v.Answered sent served := by
  obtain ⟨hsilent, hheard⟩ := serveConnection_sound h
  refine ⟨hheard, hsilent, fun hlossless req hreq => ?_⟩
  have hasked := (serveConnection_lossless hlossless.receives hlossless.sends).1 req hreq
  rw [h, Option.some.injEq, Prod.mk.injEq] at hasked
  exact hasked

theorem SnapshotVisit.Lossless.returns {v : SnapshotVisit} (h : v.Lossless) :
    serveConnection v.provider v.incoming v.calls ≠ none := by
  obtain ⟨hasked, hsilent⟩ := serveConnection_lossless h.receives h.sends
  by_cases hany : ∃ req, AsksFor v.incoming req
  · obtain ⟨req, hreq⟩ := hany
    rw [hasked req hreq]
    exact Option.some_ne_none _
  · rw [hsilent (not_exists.mp hany)]
    exact Option.some_ne_none _

section Example

def oneBidProvider : SnapshotProvider := fun req => ⟨req.stockLocate, 5, sampleSymbol, [⟨50, 100, 1⟩], []⟩

theorem length_oneBid (req : SnapshotRequest) : (encodeResponse (oneBidProvider req)).length = 43 := by
  rw [encodeResponse, length_frameWithHeader, length_responseBody]
  rfl

def bytewise (n : ℕ) : SocketCalls := ⟨List.replicate n (.moved 0), List.replicate n (.moved 0)⟩

end Example

/-! ## The requester -/

/-- No call on either end of a connection fails, and neither end gives up early. -/
structure LosslessExchange (client server : SocketCalls) (answer : List UInt8) : Prop where
  asks : Serves client.sends (5 + 10)
  heard : Serves server.receives (5 + 10 + 1)
  answers : Serves server.sends answer.length
  taken : Serves client.receives (answer.length + 1)

section Requester
variable {provider : SnapshotProvider} {connected : Bool} {client server : SocketCalls} {req : SnapshotRequest}
  {resp : SnapshotResponse}

theorem length_encodeRequest (req : SnapshotRequest) : (encodeRequest req).length = 5 + 10 := by
  rw [encodeRequest, length_frameWithHeader, length_requestBody]

theorem encodeRequest_wire (req : SnapshotRequest) : Socket.WireFrame (encodeRequest req) :=
  wireFrame_iff.mpr ⟨0x51, requestBody req, rfl, by rw [length_requestBody]; decide⟩

theorem encodeRequest_asksFor {req req' : SnapshotRequest} : AsksFor (encodeRequest req) req' ↔ req' = req := by
  have hasks : AsksFor (encodeRequest req) req := ⟨[], [], by simp [encodeRequest], by decide⟩
  refine ⟨fun h => ?_, fun h => h ▸ hasks⟩
  have hframe := encodeRequest_wire req
  obtain ⟨out, consumed, hdecode⟩ := decodeFrame_total hframe
  have honly := (@decodeFrame_asksFor _ [] hframe _ _ hdecode).2
  rw [List.append_nil] at honly
  exact (honly req' h).2.symm.trans (honly req hasks).2

theorem length_encodeResponse (resp : SnapshotResponse) : (encodeResponse resp).length = 5 + (responseBody resp).length :=
  length_frameWithHeader 0x53 _

/-- A frame at the front of an encoded response of less than 4 GiB is all of it. -/
theorem frame_of_response {frame : List UInt8} (hframe : Socket.WireFrame frame) (hlen : (encodeResponse resp).length < 2 ^ 32)
    (hpre : frame <+: encodeResponse resp) :
    frame = encodeResponse resp ∧ (encodeResponse resp).length ≤ 4 + maxFrame := by
  have hbody := length_encodeResponse resp
  have hsize := hframe.size
  have hlimit := hframe.limit
  obtain ⟨more, hmore⟩ := hpre
  have hhead : frame.take 4 = (encodeResponse resp).take 4 := by
    rw [← hmore, List.take_append_of_le_length (by omega)]
  have hdeclared : ofBytes ((encodeResponse resp).take 4) = 1 + (responseBody resp).length := declaredLength_frame (by omega)
  rw [hhead, hdeclared] at hsize hlimit
  have hnil : more = [] := by
    have := congrArg List.length hmore
    rw [List.length_append] at this
    exact List.eq_nil_of_length_eq_zero (by omega)
  rw [hnil, List.append_nil] at hmore
  refine ⟨hmore, ?_⟩
  rw [hbody, maxFrame]
  omega

/-- Whatever the calls on both ends do, also when the connection breaks: an answer that the
requester returns is the provider's to this very request, and complete. -/
theorem fetched_answer_is_whole (hlen : (encodeResponse (provider req)).length < 2 ^ 32)
    (h : fetchSnapshot provider connected client server req = some (some resp)) :
    resp = provider req ∧ connected = true ∧ (encodeResponse (provider req)).length ≤ 4 + maxFrame := by
  rw [fetchSnapshot] at h
  cases connected with
  | false => simp at h
  | true =>
    cases hsend : Socket.tcpSendAll (encodeRequest req) [] client.sends with
    | none => simp [hsend] at h
    | some r =>
      obtain ⟨ok, sent, left⟩ := r
      cases ok with
      | false => simp [hsend] at h
      | true =>
        obtain ⟨-, -, hall, -⟩ := writeAll_prefix hsend
        have hsent : sent = encodeRequest req := hall rfl
        subst hsent
        cases hserve : serveConnection provider (encodeRequest req) server with
        | none => simp [hsend, hserve] at h
        | some r =>
          obtain ⟨reply, served⟩ := r
          cases hreceive : Socket.tcpRecvFrame reply client.receives with
          | none => simp [hsend, hserve, hreceive] at h
          | some r =>
            obtain ⟨received, rest, left'⟩ := r
            cases received with
            | none => simp [hsend, hserve, hreceive] at h
            | some frame =>
              obtain ⟨hframe, rfl⟩ := Socket.tcpRecvFrame_front hreceive
              obtain ⟨hunserved, hserved⟩ := serveConnection_sound hserve
              have hpre : frame <+: encodeResponse (provider req) := by
                cases served with
                | false =>
                  have hempty := hframe.size
                  rw [(List.append_eq_nil_iff.mp (hunserved rfl)).1] at hempty
                  rw [List.length_nil] at hempty
                  omega
                | true =>
                  obtain ⟨req', hreq', hprefix⟩ := hserved rfl
                  rw [encodeRequest_asksFor.mp hreq'] at hprefix
                  exact (List.prefix_append frame rest).trans hprefix
              obtain ⟨rfl, hlimit⟩ := frame_of_response hframe hlen hpre
              have hround := response_round_trip (Nat.le_pred_of_lt hlen) []
              rw [List.append_nil] at hround
              simp only [Bool.not_true, Bool.false_eq_true, if_false, hsend, hserve, hreceive, hround, Option.bind_eq_bind,
                Option.bind_some, ne_eq, not_true_eq_false, Option.pure_def, Option.some.injEq] at h
              exact ⟨h.symm, rfl, hlimit⟩

theorem LosslessExchange.exchanged (hcalls : LosslessExchange client server (encodeResponse (provider req))) :
    (∃ left, Socket.tcpSendAll (encodeRequest req) [] client.sends = some (true, encodeRequest req, left)) ∧
      serveConnection provider (encodeRequest req) server = some (encodeResponse (provider req), true) := by
  obtain ⟨left, hsend, -⟩ := writeAll_spec (m := 0) [] (Nat.zero_le (encodeRequest req).length)
    (hcalls.asks.mono (by rw [length_encodeRequest]))
  rw [List.nil_append, List.drop_zero] at hsend
  refine ⟨⟨left, hsend⟩, (serveConnection_lossless ?_ (fun req' hreq' => ?_)).1 req (encodeRequest_asksFor.mpr rfl)⟩
  · rw [length_encodeRequest]
    exact hcalls.heard
  · rw [encodeRequest_asksFor.mp hreq']
    exact hcalls.answers

theorem LosslessExchange.returned (hcalls : LosslessExchange client server (encodeResponse (provider req)))
    (hlimit : (encodeResponse (provider req)).length ≤ 4 + maxFrame) :
    fetchSnapshot provider true client server req = some (some (provider req)) := by
  obtain ⟨⟨left, hsend⟩, hserve⟩ := hcalls.exchanged
  have hbody := length_encodeResponse (provider req)
  have hframe : Socket.WireFrame (encodeResponse (provider req)) :=
    wireFrame_iff.mpr ⟨0x53, responseBody (provider req), rfl, by omega⟩
  obtain ⟨left', hreceive, -⟩ := @Socket.recv_next _ [] _ hframe (by rw [List.append_nil]; exact hcalls.taken)
  have hround := response_round_trip (Nat.le_pred_of_lt (hlimit.trans_lt (by decide : 4 + maxFrame < 2 ^ 32))) []
  rw [List.append_nil] at hreceive hround
  simp only [fetchSnapshot, Bool.not_true, Bool.false_eq_true, if_false, hsend, hserve, hreceive, hround,
    Option.bind_eq_bind, Option.bind_some, ne_eq, not_true_eq_false, Option.pure_def]

theorem LosslessExchange.refused (hcalls : LosslessExchange client server (encodeResponse (provider req)))
    (hlen : (encodeResponse (provider req)).length < 2 ^ 32) (hlimit : ¬ (encodeResponse (provider req)).length ≤ 4 + maxFrame) :
    fetchSnapshot provider true client server req = some none := by
  obtain ⟨⟨left, hsend⟩, hserve⟩ := hcalls.exchanged
  have hbody := length_encodeResponse (provider req)
  have hdeclared : ofBytes ((encodeResponse (provider req)).take 4) = 1 + (responseBody (provider req)).length :=
    declaredLength_frame (by omega)
  have hpure : MdfeedItch.tcpRecvFrame (encodeResponse (provider req)) =
      some (none, (encodeResponse (provider req)).drop 4) := by
    rw [MdfeedItch.tcpRecvFrame, if_neg (by omega)]
    dsimp only
    rw [hdeclared, if_pos (Or.inr (by rw [maxFrame] at hlimit; omega))]
  have hrefines := Socket.tcpRecvFrame_refines hcalls.taken
  rw [hpure] at hrefines
  obtain ⟨left', hreceive, -⟩ := hrefines
  simp only [fetchSnapshot, Bool.not_true, Bool.false_eq_true, if_false, hsend, hserve, hreceive,
    Option.bind_eq_bind, Option.bind_some, Option.pure_def]

/-- When no call fails, the requester returns the provider's answer exactly if it is
connected and the frame of the answer is one that `tcp_recv_frame` takes. -/
theorem fetchSnapshot_lossless (hlen : (encodeResponse (provider req)).length < 2 ^ 32)
    (hcalls : LosslessExchange client server (encodeResponse (provider req))) :
    fetchSnapshot provider connected client server req =
      some (if connected ∧ (encodeResponse (provider req)).length ≤ 4 + maxFrame then some (provider req) else none) := by
  cases connected with
  | false => simp [fetchSnapshot]
  | true =>
    by_cases hlimit : (encodeResponse (provider req)).length ≤ 4 + maxFrame
    · rw [if_pos ⟨rfl, hlimit⟩]
      exact hcalls.returned hlimit
    · rw [if_neg (fun h => hlimit h.2)]
      exact hcalls.refused hlen hlimit

/-- An answer that arrives although every loop is interrupted once. -/
theorem interrupted_answer_is_whole :
    let slow : SocketCalls := ⟨.interrupted :: List.replicate 50 (.moved 6), .interrupted :: List.replicate 50 (.moved 2)⟩
    fetchSnapshot oneBidProvider true slow slow ⟨7, 42⟩ = some (some (oneBidProvider ⟨7, 42⟩)) ∧
      (encodeResponse (oneBidProvider ⟨7, 42⟩)).length ≤ 4 + maxFrame := by
  intro slow
  have hlen := length_oneBid ⟨7, 42⟩
  have hslow : ∀ k n, n ≤ 50 → Serves (.interrupted :: List.replicate 50 (.moved k)) n := fun k n hn =>
    ⟨by simp, (Serves.of_replicate k hn).enough⟩
  have hcalls : LosslessExchange slow slow (encodeResponse (oneBidProvider ⟨7, 42⟩)) :=
    ⟨hslow 6 _ (by decide), hslow 2 _ (by decide), hslow 6 _ (by rw [hlen]; decide), hslow 2 _ (by rw [hlen]; decide)⟩
  have hfetch := hcalls.returned (by rw [hlen]; decide)
  exact ⟨hfetch, (fetched_answer_is_whole (by rw [hlen]; decide) hfetch).2.2⟩

theorem bytewise_answer_returned :
    fetchSnapshot oneBidProvider true (bytewise 50) (bytewise 50) ⟨7, 42⟩ = some (some (oneBidProvider ⟨7, 42⟩)) := by
  have hcalls : ∀ n, n ≤ 50 → Serves (List.replicate 50 (.moved 0)) n := fun n hn => Serves.of_replicate 0 hn
  have hlen := length_oneBid ⟨7, 42⟩
  rw [fetchSnapshot_lossless (by rw [hlen]; decide) ⟨hcalls _ (by decide), hcalls _ (by decide),
    hcalls _ (by rw [hlen]; decide), hcalls _ (by rw [hlen]; decide)⟩, hlen]
  rfl

end Requester

/-! ## The recovery channel of the feed -/

def tcpRequester (provider : SnapshotProvider) (connected : Bool) (client server : SocketCalls) : RecoveryRequester :=
  fun req => (fetchSnapshot provider connected client server req).join

section Channel
variable {depth : ℕ} {symByLoc : Std.ExtTreeMap StockLocate Symbol} {s : Shadow}

theorem Shadow.Sound.answer_length (h : s.Sound depth symByLoc) (req : SnapshotRequest) :
    (encodeResponse (s.provider req)).length ≤ 31 + 24 * depth := by
  have hside : ∀ key buy, ((s.book.bookAt key).top buy).length ≤ depth := by
    intro key buy
    obtain ⟨prices, -, -, htop, -⟩ := (h.deep.aggregated key).carries.side buy
    rw [htop, List.length_map, List.length_take, h.deep.depth key]
    exact Nat.min_le_left _ _
  obtain ⟨loc, fromSeq⟩ := req
  rw [length_encodeResponse, length_responseBody]
  cases hsym : s.symByLoc[loc]? with
  | none =>
    simp only [Shadow.provider, hsym, List.length_nil]
    omega
  | some sym =>
    rw [Shadow.provider_tracked hsym]
    have hbids := hside (symbolKey sym) true
    have hasks := hside (symbolKey sym) false
    change (s.book.bookAt (symbolKey sym)).topBids.length ≤ depth at hbids
    change (s.book.bookAt (symbolKey sym)).topAsks.length ≤ depth at hasks
    dsimp only
    omega

/-- In every state of the feed the requester over TCP is the one of the system: for books
of up to 699049 levels a side every answer fits in a frame. -/
theorem recovery_over_tcp {skip : Bool} {started : List StockLocate} {acts : List RecoveryAction} (hdepth : depth ≤ 699049)
    (hfit : ∀ pre, pre <+: acts → LevelSumsFit ((RecoverySystem.new depth skip symByLoc started).run pre).1.shadow.book)
    {client server : SocketCalls} (connected : Bool)
    (hcalls : ∀ req, LosslessExchange client server
      (encodeResponse (((RecoverySystem.new depth skip symByLoc started).run acts).1.shadow.provider req))) :
    tcpRequester ((RecoverySystem.new depth skip symByLoc started).run acts).1.shadow.provider connected client server =
      ((RecoverySystem.new depth skip symByLoc started).run acts).1.requester connected := by
  have hsound := sound_run hfit
  funext req
  have hlen := hsound.answer_length req
  have hlimit : 31 + 24 * depth ≤ 4 + maxFrame := by
    rw [maxFrame]
    omega
  rw [tcpRequester, fetchSnapshot_lossless ((hlen.trans hlimit).trans_lt (by decide)) (hcalls req), Option.join_some]
  cases connected with
  | false => exact if_neg (fun h => by cases h.1)
  | true => exact if_pos ⟨rfl, hlen.trans hlimit⟩

theorem one_order_over_tcp :
    let shadow := ((RecoverySystem.new 10 false sampleLocates [1]).run [.publish (addDatagram 1 7)]).1.shadow
    tcpRequester shadow.provider true (bytewise 300) (bytewise 300) =
      ((RecoverySystem.new 10 false sampleLocates [1]).run [.publish (addDatagram 1 7)]).1.requester true := by
  have hfit := @fits_of_takes [.publish (addDatagram 1 7)] (RecoverySystem.new 10 false sampleLocates [1]) (by decide)
  refine recovery_over_tcp (by decide) hfit true (fun req => ?_)
  have hlen := (sound_run hfit).answer_length req
  exact ⟨Serves.of_replicate 0 (by decide), Serves.of_replicate 0 (by decide), Serves.of_replicate 0 (by omega),
    Serves.of_replicate 0 (by omega)⟩

end Channel

end MdfeedItch
