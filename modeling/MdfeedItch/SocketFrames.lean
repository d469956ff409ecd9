import MdfeedItch.PartialTransfers
import MdfeedItch.SnapshotService

/-! # Frames over a socket that cuts transfers up

The loops of `net/tcp_recovery.cpp` over a socket whose calls move any number of bytes.
On a stream that is lossless and in order they amount to `tcpRecvFrame`, so frames
arrive as they were sent. -/
namespace MdfeedItch.Socket
open ByteCursor PartialTransfers

/-- `tcp_send_all`: its result and the stream with the bytes that it has sent. A call
that returns 0 counts as failed. One for a peer that has gone does not return: `send` is
called without flags, and SIGPIPE ends the program. -/
def tcpSendAll (data stream : List UInt8) (calls : List Call) : Option (Bool × List UInt8 × List Call) :=
  writeAll data 0 stream calls

/-- `tcp_recv_frame`: the frame, if it returns true, and the bytes that are left. The two
loops fill the header and then the buffer behind it. -/
def tcpRecvFrame (stream : List UInt8) (calls : List Call) :
    Option (Option (List UInt8) × List UInt8 × List Call) :=
  match readFull 4 [] stream calls with
  | none => none
  | some (false, _, stream, calls) => some (none, stream, calls)
  | some (true, hdr, stream, calls) =>
    let len := ofBytes hdr
    if len = 0 ∨ 16 * 1024 * 1024 < len then some (none, stream, calls)
    else
      match readFull (4 + len) hdr stream calls with
      | none => none
      | some (false, _, stream, calls) => some (none, stream, calls)
      | some (true, out, stream, calls) => some (some out, stream, calls)

def sendFrames : List (List UInt8) → List UInt8 → List Call → Option (Bool × List UInt8 × List Call)
  | [], stream, calls => some (true, stream, calls)
  | f :: fs, stream, calls =>
    match tcpSendAll f stream calls with
    | some (true, stream, calls) => sendFrames fs stream calls
    | r => r

def recvFrames : ℕ → List UInt8 → List Call → Option (List (Option (List UInt8)) × List UInt8 × List Call)
  | 0, stream, calls => some ([], stream, calls)
  | n + 1, stream, calls => do
    let (first, stream, calls) ← tcpRecvFrame stream calls
    let (others, stream, calls) ← recvFrames n stream calls
    return (first :: others, stream, calls)

/-- A length between 1 and 16 MiB, and as many bytes behind it. -/
structure WireFrame (f : List UInt8) : Prop where
  size : f.length = 4 + ofBytes (f.take 4)
  nonempty : ofBytes (f.take 4) ≠ 0
  limit : ofBytes (f.take 4) ≤ 16 * 1024 * 1024

theorem WireFrame.take_four {f rest stream : List UInt8} (hf : WireFrame f) (hstream : stream <+: f ++ rest)
    (hfour : 4 ≤ stream.length) : stream.take 4 = f.take 4 := by
  obtain ⟨more, hmore⟩ := hstream
  have hsize := hf.size
  calc stream.take 4 = (stream ++ more).take 4 := (List.take_append_of_le_length hfour).symm
    _ = (f ++ rest).take 4 := by rw [hmore]
    _ = f.take 4 := List.take_append_of_le_length (by omega)

/-- The loops compute `tcpRecvFrame` of the stream, whatever the calls move; they give up
where it waits for bytes that never come. -/
theorem tcpRecvFrame_refines {stream : List UInt8} {calls : List Call}
    (hcalls : Serves calls (stream.length + 1)) :
    match MdfeedItch.tcpRecvFrame stream with
    | some (r, rest) => ∃ left, tcpRecvFrame stream calls = some (r, rest, left) ∧
      Serves left (rest.length + 1)
    | none => ∃ left, tcpRecvFrame stream calls = some (none, [], left) := by
  unfold MdfeedItch.tcpRecvFrame
  by_cases hfour : stream.length < 4
  · rw [if_pos hfour]
    obtain ⟨left, hleft⟩ := @readFull_short _ 4 [] stream calls (by simpa using hfour) hcalls
    exact ⟨left, by rw [tcpRecvFrame, hleft]⟩
  · rw [if_neg hfour]
    obtain ⟨calls₁, hhdr, hserves⟩ := @readFull_enough _ 4 [] stream calls ((stream.drop 4).length + 1)
      (by simp) (Nat.not_lt.mp hfour) (hcalls.mono (by rw [List.length_drop, List.length_nil]; omega))
    have hlen : (stream.take 4).length = 4 := List.length_take_of_le (Nat.not_lt.mp hfour)
    rw [List.length_nil, List.nil_append, Nat.sub_zero] at hhdr
    dsimp only
    generalize hbody : ofBytes (stream.take 4) = len
    by_cases hrange : len = 0 ∨ 16 * 1024 * 1024 < len
    · rw [if_pos hrange]
      refine ⟨calls₁, ?_, hserves⟩
      simp only [tcpRecvFrame, hhdr, hbody, hrange, if_true]
    · rw [if_neg hrange]
      by_cases hshort : stream.length < 4 + len
      · rw [if_pos hshort]
        obtain ⟨left, hleft⟩ := @readFull_short _ (4 + len) (stream.take 4) (stream.drop 4) calls₁
          (by rw [hlen, List.length_drop]; omega) hserves
        refine ⟨left, ?_⟩
        simp only [tcpRecvFrame, hhdr, hbody, hrange, if_false, hleft]
      · rw [if_neg hshort]
        obtain ⟨left, hleft, hserves'⟩ := @readFull_enough _ (4 + len) (stream.take 4) (stream.drop 4) calls₁
          ((stream.drop (4 + len)).length + 1) (by omega) (by rw [hlen, List.length_drop]; omega)
          (hserves.mono (by rw [hlen, List.length_drop, List.length_drop]; omega))
        rw [hlen, Nat.add_sub_cancel_left, List.drop_drop] at hleft
        refine ⟨left, ?_, hserves'⟩
        simp only [tcpRecvFrame, hhdr, hbody, hrange, if_false, hleft, ← List.take_add]

/-- Bytes that stop inside of a header, or of a frame whose header is in range. -/
def CutShort (bytes : List UInt8) : Prop :=
  bytes.length < 4 ∨
    ofBytes (bytes.take 4) ≠ 0 ∧ ofBytes (bytes.take 4) ≤ 16 * 1024 * 1024 ∧ bytes.length < 4 + ofBytes (bytes.take 4)

/-- What the loops take off the stream, whatever the calls do: a header that is refused, a
frame or header that is cut short, or a frame. -/
theorem tcpRecvFrame_parts {stream rest : List UInt8} {r : Option (List UInt8)} {calls left : List Call}
    (h : tcpRecvFrame stream calls = some (r, rest, left)) :
    ∃ bytes, stream = bytes ++ rest ∧
      ((r = none ∧ bytes.length = 4 ∧ (ofBytes bytes = 0 ∨ 16 * 1024 * 1024 < ofBytes bytes)) ∨
        (r = none ∧ CutShort bytes) ∨ (r = some bytes ∧ WireFrame bytes)) := by
  rw [tcpRecvFrame] at h
  cases hread : readFull 4 [] stream calls with
  | none => simp only [hread, reduceCtorEq] at h
  | some result =>
    obtain ⟨ok, hdr, stream', calls'⟩ := result
    obtain ⟨taken, hhdr, hstream, hfour, hshort⟩ := readFull_prefix (Nat.zero_le 4) hread
    rw [List.nil_append] at hhdr
    subst hhdr
    cases ok with
    | false =>
      simp only [hread] at h
      cases h
      exact ⟨_, hstream, Or.inr (Or.inl ⟨rfl, Or.inl (hshort rfl)⟩)⟩
    | true =>
      simp only [hread] at h
      split_ifs at h with hrange
      · cases h
        exact ⟨_, hstream, Or.inl ⟨rfl, hfour rfl, hrange⟩⟩
      · rw [not_or, Nat.not_lt] at hrange
        cases hread' : readFull (4 + ofBytes hdr) hdr stream' calls' with
        | none => simp only [hread', reduceCtorEq] at h
        | some result =>
          obtain ⟨ok, out, stream'', calls''⟩ := result
          obtain ⟨body, rfl, hstream', hwhole, hcut⟩ :=
            readFull_prefix (by rw [hfour rfl]; exact Nat.le_add_right 4 _) hread'
          have hhdr : (hdr ++ body).take 4 = hdr := List.take_left' (hfour rfl)
          cases ok with
          | false =>
            simp only [hread'] at h
            cases h
            refine ⟨hdr ++ body, by rw [hstream, hstream', List.append_assoc], Or.inr (Or.inl ⟨rfl, Or.inr ?_⟩)⟩
            rw [hhdr]
            exact ⟨hrange.1, hrange.2, hcut rfl⟩
          | true =>
            simp only [hread'] at h
            cases h
            refine ⟨hdr ++ body, by rw [hstream, hstream', List.append_assoc], Or.inr (Or.inr ⟨rfl, ⟨?_, ?_, ?_⟩⟩)⟩
            · rw [hhdr, hwhole rfl]
            · rw [hhdr]
              exact hrange.1
            · rw [hhdr]
              exact hrange.2

theorem tcpRecvFrame_front {stream f rest : List UInt8} {calls left : List Call}
    (h : tcpRecvFrame stream calls = some (some f, rest, left)) : WireFrame f ∧ stream = f ++ rest := by
  obtain ⟨bytes, hstream, ⟨hnone, -⟩ | ⟨hnone, -⟩ | ⟨hsome, hwire⟩⟩ := tcpRecvFrame_parts h
  · cases hnone
  · cases hnone
  · cases hsome
    exact ⟨hwire, hstream⟩

def wholeFrames : List (List UInt8) → ℕ → List (List UInt8)
  | [], _ => []
  | f :: fs, n => if f.length ≤ n then f :: wholeFrames fs (n - f.length) else []

theorem tcpRecvFrame_whole {f : List UInt8} (hf : WireFrame f) (rest : List UInt8) :
    MdfeedItch.tcpRecvFrame (f ++ rest) = some (some f, rest) := by
  have hsize := hf.size
  have hlimit := hf.limit
  have hlen : (f ++ rest).length = f.length + rest.length := List.length_append
  have hhead : (f ++ rest).take 4 = f.take 4 := hf.take_four (List.prefix_refl _) (by omega)
  rw [MdfeedItch.tcpRecvFrame, if_neg (by omega)]
  dsimp only
  rw [hhead, if_neg (not_or.mpr ⟨hf.nonempty, Nat.not_lt.mpr hlimit⟩), if_neg (by omega), ← hsize,
    List.take_left, List.drop_left]

theorem tcpRecvFrame_cut {f rest stream : List UInt8} (hf : WireFrame f) (hstream : stream <+: f ++ rest)
    (hcut : stream.length < f.length) : MdfeedItch.tcpRecvFrame stream = none := by
  have hsize := hf.size
  have hlimit := hf.limit
  unfold MdfeedItch.tcpRecvFrame
  by_cases hfour : stream.length < 4
  · rw [if_pos hfour]
  · rw [if_neg hfour]
    dsimp only
    rw [hf.take_four hstream (Nat.not_lt.mp hfour), if_neg (not_or.mpr ⟨hf.nonempty, Nat.not_lt.mpr hlimit⟩),
      if_pos (by omega)]

theorem recvFrames_succ {n : ℕ} {stream stream' stream'' : List UInt8} {calls calls' calls'' : List Call}
    {first : Option (List UInt8)} {others : List (Option (List UInt8))}
    (hfirst : tcpRecvFrame stream calls = some (first, stream', calls'))
    (hothers : recvFrames n stream' calls' = some (others, stream'', calls'')) :
    recvFrames (n + 1) stream calls = some (first :: others, stream'', calls'') := by
  rw [recvFrames, hfirst, Option.bind_eq_bind, Option.bind_some]
  dsimp only
  rw [hothers]
  rfl

theorem recv_next {f rest : List UInt8} {calls : List Call} (hf : WireFrame f)
    (hcalls : Serves calls ((f ++ rest).length + 1)) :
    ∃ left, tcpRecvFrame (f ++ rest) calls = some (some f, rest, left) ∧ Serves left (rest.length + 1) := by
  have h := tcpRecvFrame_refines hcalls
  rwa [tcpRecvFrame_whole hf rest] at h

theorem sendFrames_spec (frames : List (List UInt8)) (stream : List UInt8) {calls : List Call}
    (hcalls : Serves calls frames.flatten.length) :
    ∃ left, sendFrames frames stream calls = some (true, stream ++ frames.flatten, left) := by
  induction frames generalizing stream calls with
  | nil => exact ⟨calls, by rw [sendFrames, List.flatten_nil, List.append_nil]⟩
  | cons f fs ih =>
    rw [List.flatten_cons, List.length_append] at hcalls
    obtain ⟨left, hsent, hserves⟩ := writeAll_spec stream (Nat.zero_le f.length) hcalls
    obtain ⟨left', hothers⟩ := ih (stream ++ f) hserves
    refine ⟨left', ?_⟩
    rw [List.drop_zero] at hsent
    rw [sendFrames, tcpSendAll, hsent]
    dsimp only
    rw [hothers, List.append_assoc, List.flatten_cons]

/-- Frames in front of any bytes arrive one by one, and the bytes behind them stay. -/
theorem recvFrames_whole {frames : List (List UInt8)} (hframes : ∀ f ∈ frames, WireFrame f)
    (more : List UInt8) {calls : List Call}
    (hcalls : Serves calls ((frames.flatten ++ more).length + 1)) :
    ∃ left, recvFrames frames.length (frames.flatten ++ more) calls = some (frames.map some, more, left) := by
  induction frames generalizing calls with
  | nil => exact ⟨calls, rfl⟩
  | cons f fs ih =>
    rw [List.flatten_cons, List.append_assoc] at hcalls ⊢
    obtain ⟨calls', hfirst, hserves⟩ := recv_next (hframes f (by simp)) hcalls
    obtain ⟨left, hothers⟩ := ih (fun g hg => hframes g (by simp [hg])) hserves
    exact ⟨left, recvFrames_succ hfirst hothers⟩

/-- Of a stream that ends early the whole frames arrive, and the next call returns false. -/
theorem recvFrames_prefix {frames : List (List UInt8)} (hframes : ∀ f ∈ frames, WireFrame f)
    {stream : List UInt8} (hstream : stream <+: frames.flatten) {calls : List Call}
    (hcalls : Serves calls (stream.length + 1)) :
    ∃ left, recvFrames ((wholeFrames frames stream.length).length + 1) stream calls =
      some ((wholeFrames frames stream.length).map some ++ [none], [], left) := by
  induction frames generalizing stream calls with
  | nil =>
    obtain rfl := List.prefix_nil.mp hstream
    obtain ⟨left, hleft⟩ := tcpRecvFrame_refines hcalls
    exact ⟨left, recvFrames_succ hleft rfl⟩
  | cons f fs ih =>
    have hf := hframes f (by simp)
    rw [List.flatten_cons] at hstream
    rw [wholeFrames]
    split_ifs with hwhole
    · obtain ⟨rest, rfl⟩ : f <+: stream := List.prefix_of_prefix_length_le
        (List.prefix_append f _) hstream hwhole
      rw [List.prefix_append_right_inj] at hstream
      obtain ⟨calls', hfirst, hserves⟩ := recv_next hf hcalls
      obtain ⟨left, hothers⟩ := ih (fun g hg => hframes g (by simp [hg])) hstream hserves
      refine ⟨left, ?_⟩
      rw [List.length_append, Nat.add_sub_cancel_left]
      exact recvFrames_succ hfirst hothers
    · have h := tcpRecvFrame_refines hcalls
      rw [tcpRecvFrame_cut hf hstream (Nat.not_le.mp hwhole)] at h
      obtain ⟨left, hleft⟩ := h
      exact ⟨left, recvFrames_succ hleft rfl⟩

/-- However both ends cut the transfer up, all frames are sent and exactly the frames that
lie wholly in front of the end of the stream are received. -/
theorem frames_survive_fragmentation {frames : List (List UInt8)} (hframes : ∀ f ∈ frames, WireFrame f)
    {sends : List Call} (hsends : Serves sends frames.flatten.length) :
    ∃ sent unused, sendFrames frames [] sends = some (true, sent, unused) ∧
      (∀ more receives, Serves receives ((sent ++ more).length + 1) →
        ∃ left, recvFrames frames.length (sent ++ more) receives = some (frames.map some, more, left)) ∧
      ∀ stream receives, stream <+: sent → Serves receives (stream.length + 1) →
        ∃ left, recvFrames ((wholeFrames frames stream.length).length + 1) stream receives =
          some ((wholeFrames frames stream.length).map some ++ [none], [], left) := by
  obtain ⟨unused, hsent⟩ := sendFrames_spec frames [] hsends
  exact ⟨frames.flatten, unused, hsent, fun more receives => recvFrames_whole hframes more,
    fun stream receives hstream => recvFrames_prefix hframes hstream⟩

/-- Two frames, sent in pieces of three bytes and read byte by byte; the last byte of the
second one is lost. -/
theorem cut_frames_arrive :
    let frames : List (List UInt8) := [[0, 0, 0, 1, 7], [0, 0, 0, 2, 8, 9]]
    ∃ sent unused, sendFrames frames [] (.interrupted :: List.replicate 11 (.moved 2)) =
      some (true, sent, unused) ∧
      ∃ left, recvFrames 2 (sent.take 10) (.moved 1 :: .interrupted :: List.replicate 11 (.moved 0)) =
        some ([some [0, 0, 0, 1, 7], none], [], left) := by
  intro frames
  have hframes : ∀ f ∈ frames, WireFrame f := by
    intro f hf
    rcases List.mem_cons.mp hf with rfl | hf
    · exact ⟨by decide, by decide, by decide⟩
    · obtain rfl := List.mem_singleton.mp hf
      exact ⟨by decide, by decide, by decide⟩
  have hsends : Serves (.interrupted :: List.replicate 11 (.moved 2)) frames.flatten.length :=
    ⟨by decide, by decide⟩
  obtain ⟨sent, unused, hsent, -, hcut⟩ := frames_survive_fragmentation hframes hsends
  have hflat : (sendFrames frames [] (.interrupted :: List.replicate 11 (.moved 2))).map (fun r => r.2.1) =
    some frames.flatten := by decide
  rw [hsent, Option.map_some, Option.some_inj] at hflat
  refine ⟨sent, unused, hsent, ?_⟩
  rw [show sent = frames.flatten from hflat] at hcut ⊢
  exact hcut (frames.flatten.take 10) _ (List.take_prefix _ _) ⟨by decide, by decide⟩

end MdfeedItch.Socket
