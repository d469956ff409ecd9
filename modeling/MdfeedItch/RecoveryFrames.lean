import MdfeedItch.SnapshotClient

/-! # Every byte string at the decoder of the recovery channel

What `decode_frame` makes of arbitrary bytes. The decoder compares the size of its
buffer with `4 + len` in 32 bits; the case of a response fills in its kind before
it has compared the two level counts with the body. -/
namespace MdfeedItch.SnapshotClient
open ByteCursor ByteLayout GuardedReads

/-- What lies behind the op code of a frame. -/
def frameBody (bytes : List UInt8) : List UInt8 := (bytes.drop 5).take (declaredLength bytes - 1)

/-- The counts of a response, read from its body. -/
def bidCount (body : List UInt8) : ℕ := ofBytes ((body.drop 18).take 4)
def askCount (body : List UInt8) : ℕ := ofBytes ((body.drop (22 + bidCount body * 12)).take 4)

/-- The body holds the fixed fields of a response, but not the levels that its counts claim. -/
def Overclaims (body : List UInt8) : Prop :=
  22 ≤ body.length ∧ (body.length < 26 + bidCount body * 12 ∨
    body.length < 26 + bidCount body * 12 + askCount body * 12)

/-- What the case of a response does behind the count of the bids. -/
def decodeLevels (behind : ℤ) (header : SnapshotResponse) (bn : ℕ) : Cursor (DecodedFrame × Bool) :=
  guarded behind (bn * 12 + 4) ({ kind := .response, response := header }, false) do
    let bids ← takeMany readLevel bn
    let an ← readU32
    guarded behind (an.toNat * 12) ({ kind := .response, response := { header with bids } }, false) do
      let asks ← takeMany readLevel an.toNat
      return ({ kind := .response, response := { header with bids, asks } }, true)

theorem run_decodeResponse {behind : ℤ} {bs : List UInt8} (hroom : behind + 22 ≤ bs.length)
    (hbs : 22 ≤ bs.length) :
    ∃ header, (decodeResponse behind).run bs =
      (decodeLevels behind header (bidCount bs)).run (bs.drop 22) := by
  obtain ⟨stockLocate, hlocate⟩ := readU16_reads bs (by omega)
  obtain ⟨lastAppliedSeq, hlast⟩ := readU64_reads (bs.drop 2) (by rw [List.length_drop]; omega)
  rw [List.drop_drop] at hlast
  obtain ⟨symbol, hsymbol⟩ : ∃ symbol, readSymbol.run (bs.drop 10) = some (symbol, bs.drop 18) := by
    have hread := readArray_reads symbolLen (bs.drop 10) (by rw [List.length_drop, symbolLen]; omega)
    rwa [List.drop_drop] at hread
  have hcount := run_readU32 (show 4 ≤ (bs.drop 18).length by rw [List.length_drop]; omega)
  rw [List.drop_drop] at hcount
  refine ⟨{ stockLocate, lastAppliedSeq, symbol, bids := [], asks := [] }, ?_⟩
  rw [decodeResponse, run_guarded_enough (by rw [symbolLen]; omega), run_bind_of_run hlocate,
    run_bind_of_run hlast, run_bind_of_run hsymbol, run_bind_of_run hcount]
  rw [toNat_ofBytes_four]
  rfl

/-- The levels are all there or the case is left without its end. -/
theorem run_decodeLevels {behind n : ℕ} {bs : List UInt8} (hbs : bs.length = behind + n)
    (header : SnapshotResponse) (bn : ℕ) :
    ∃ response complete rest, (decodeLevels behind header bn).run bs =
        some (({ kind := .response, response }, complete), rest) ∧
      (complete = true ↔
        ¬ (n < bn * 12 + 4 ∨ n < bn * 12 + 4 + ofBytes ((bs.drop (bn * 12)).take 4) * 12)) := by
  unfold decodeLevels
  rw [run_guarded]
  by_cases hbids : n < bn * 12 + 4
  · rw [if_pos (by omega)]
    exact ⟨_, _, _, rfl, iff_of_false (by decide) (not_not.mpr (Or.inl hbids))⟩
  rw [if_neg (by omega)]
  obtain ⟨bids, hbidsRun⟩ := reads_many readLevel_reads bn bs (by omega)
  have hcount := run_readU32 (show 4 ≤ (bs.drop (bn * 12)).length by rw [List.length_drop]; omega)
  rw [run_bind_of_run hbidsRun, run_bind_of_run hcount, run_guarded, List.drop_drop, List.length_drop,
    toNat_ofBytes_four]
  obtain ⟨an, han⟩ : ∃ an, ofBytes ((bs.drop (bn * 12)).take 4) = an := ⟨_, rfl⟩
  rw [han]
  by_cases hasks : n < bn * 12 + 4 + an * 12
  · rw [if_pos (by omega)]
    exact ⟨_, _, _, rfl, iff_of_false (by decide) (not_not.mpr (Or.inr hasks))⟩
  · rw [if_neg (by omega)]
    obtain ⟨asks, hasksRun⟩ := reads_many readLevel_reads an (bs.drop (bn * 12 + 4))
      (by rw [List.length_drop]; omega)
    rw [run_bind_of_run hasksRun]
    exact ⟨_, _, _, rfl, iff_of_true rfl (by omega)⟩

/-- Whatever the counts say, the kind is set. -/
theorem decodeLevels_kind {behind : ℤ} {header : SnapshotResponse} {bn : ℕ} {bs rest : List UInt8}
    {out : DecodedFrame} {complete : Bool}
    (h : (decodeLevels behind header bn).run bs = some ((out, complete), rest)) : out.kind = .response := by
  rw [decodeLevels, run_guarded] at h
  split_ifs at h
  · cases h
    rfl
  obtain ⟨bids, mid, -, h⟩ := run_bind_eq_some.mp h
  obtain ⟨an, mid', -, h⟩ := run_bind_eq_some.mp h
  rw [run_guarded] at h
  split_ifs at h
  · cases h
    rfl
  · obtain ⟨asks, mid'', -, h⟩ := run_bind_eq_some.mp h
    obtain ⟨hout, -⟩ := run_pure_eq_some.mp h
    cases hout
    rfl

theorem overclaims_take {bs : List UInt8} {n : ℕ} (hn : 22 ≤ n) (hbs : n ≤ bs.length) :
    Overclaims (bs.take n) ↔ n - 22 < bidCount bs * 12 + 4 ∨
      n - 22 < bidCount bs * 12 + 4 + ofBytes (((bs.drop 22).drop (bidCount bs * 12)).take 4) * 12 := by
  have hbn : bidCount (bs.take n) = bidCount bs := by
    rw [bidCount, take_drop_take (by omega), bidCount]
  rw [Overclaims, List.length_take_of_le hbs, hbn, and_iff_right hn]
  by_cases hbids : n < 26 + bidCount bs * 12
  · exact iff_of_true (Or.inl hbids) (Or.inl (by omega))
  · have han : askCount (bs.take n) = ofBytes (((bs.drop 22).drop (bidCount bs * 12)).take 4) := by
      rw [askCount, hbn, take_drop_take (by omega), List.drop_drop]
    rw [han]
    omega

/-- With a negative distance to the end, as behind an empty frame, every case gives up. -/
theorem run_decodeOp_outside {behind : ℤ} {bs : List UInt8} (h : (bs.length : ℤ) < behind) (op : UInt8) :
    (decodeOp behind op).run bs = some (({}, false), bs) := by
  unfold decodeOp
  split_ifs
  · rw [decodeRequest, run_guarded, if_pos (by omega)]
  · rw [decodeFault, run_guarded, if_pos (by omega)]
  · rw [decodeResponse, run_guarded, if_pos (by omega)]
  · rfl

theorem run_decodeRequest {behind n : ℕ} {bs : List UInt8} (hbs : bs.length = behind + n) :
    ∃ out complete rest, (decodeRequest behind).run bs = some ((out, complete), rest) ∧
      (complete = true ↔ out.kind ≠ .none) := by
  rw [decodeRequest, run_guarded]
  by_cases hshort : n < 10
  · rw [if_pos (by omega)]
    exact ⟨_, _, _, rfl, by decide⟩
  · rw [if_neg (by omega)]
    obtain ⟨stockLocate, hlocate⟩ := readU16_reads bs (by omega)
    obtain ⟨fromSeq, hfrom⟩ := readU64_reads (bs.drop 2) (by rw [List.length_drop]; omega)
    rw [run_bind_of_run hlocate, run_bind_of_run hfrom]
    exact ⟨_, _, _, rfl, iff_of_true rfl Kind.noConfusion⟩

theorem run_decodeFault {behind n : ℕ} {bs : List UInt8} (hbs : bs.length = behind + n) :
    ∃ out complete rest, (decodeFault behind).run bs = some ((out, complete), rest) ∧
      (complete = true ↔ out.kind ≠ .none) := by
  rw [decodeFault, run_guarded]
  by_cases hshort : n < 3
  · rw [if_pos (by omega)]
    exact ⟨_, _, _, rfl, by decide⟩
  · rw [if_neg (by omega)]
    obtain ⟨stockLocate, hlocate⟩ := readU16_reads bs (by omega)
    obtain ⟨code, hcode⟩ := readU8_reads (bs.drop 2) (by rw [List.length_drop]; omega)
    rw [run_bind_of_run hlocate, run_bind_of_run hcode]
    exact ⟨_, _, _, rfl, iff_of_true rfl Kind.noConfusion⟩

/-- A response that claims too much keeps its kind without reaching its end. -/
theorem run_decodeResponse_complete {behind n : ℕ} {bs : List UInt8} (hbs : bs.length = behind + n) :
    ∃ out complete rest, (decodeResponse behind).run bs = some ((out, complete), rest) ∧
      ((complete = true ↔ out.kind ≠ .none) ↔ ¬ Overclaims (bs.take n)) := by
  by_cases hshort : n < 22
  · rw [decodeResponse, run_guarded, if_pos (by rw [symbolLen]; omega)]
    refine ⟨_, _, _, rfl, iff_of_true (by decide) (fun h => ?_)⟩
    have hsize := h.1
    rw [List.length_take] at hsize
    omega
  · obtain ⟨header, hheader⟩ := run_decodeResponse (show (behind : ℤ) + 22 ≤ bs.length by omega) (by omega)
    obtain ⟨response, complete, rest, hrun, hcomplete⟩ := run_decodeLevels
      (show (bs.drop 22).length = behind + (n - 22) by rw [List.length_drop]; omega) header (bidCount bs)
    refine ⟨_, _, _, hheader.trans hrun, ?_⟩
    have hkind : (complete = true ↔ Kind.response ≠ Kind.none) ↔ complete = true := iff_true_right (by decide)
    rw [hkind, hcomplete, overclaims_take (by omega) (by omega)]

/-- With `n` bytes of body, a case reaches its end exactly when it has set the kind,
but for a response that claims too much. -/
theorem run_decodeOp {behind n : ℕ} {bs : List UInt8} (hbs : bs.length = behind + n) (op : UInt8) :
    ∃ out complete rest, (decodeOp behind op).run bs = some ((out, complete), rest) ∧
      ((complete = true ↔ out.kind ≠ .none) ↔ ¬ (op = 0x53 ∧ Overclaims (bs.take n))) := by
  unfold decodeOp
  split_ifs with hrequest hfault hresponse
  · obtain ⟨out, complete, rest, hrun, hclean⟩ := run_decodeRequest hbs
    refine ⟨out, complete, rest, hrun, iff_of_true hclean (fun h => ?_)⟩
    exact absurd (hrequest.symm.trans h.1) (by decide)
  · obtain ⟨out, complete, rest, hrun, hclean⟩ := run_decodeFault hbs
    refine ⟨out, complete, rest, hrun, iff_of_true hclean (fun h => ?_)⟩
    exact absurd (hfault.symm.trans h.1) (by decide)
  · rw [and_iff_right hresponse]
    exact run_decodeResponse_complete hbs
  · exact ⟨_, _, _, rfl, iff_of_true (by decide) (fun h => hresponse h.1)⟩

/-- The op codes with a case of their own. -/
def opCodes : List UInt8 := [0x51, 0x46, 0x53]

/-- Far from the end, a case that is left has set the kind. -/
theorem decodeOp_kind {behind : ℤ} {op : UInt8} {bs rest : List UInt8} {out : DecodedFrame} {complete : Bool}
    (hop : op ∈ opCodes) (hroom : behind + 22 ≤ bs.length)
    (h : (decodeOp behind op).run bs = some ((out, complete), rest)) : out.kind ≠ .none := by
  unfold decodeOp at h
  split_ifs at h with hrequest hfault hresponse
  · rw [decodeRequest, run_guarded_enough (by omega)] at h
    obtain ⟨stockLocate, mid, -, h⟩ := run_bind_eq_some.mp h
    obtain ⟨fromSeq, mid', -, h⟩ := run_bind_eq_some.mp h
    obtain ⟨hout, -⟩ := run_pure_eq_some.mp h
    cases hout
    exact Kind.noConfusion
  · rw [decodeFault, run_guarded_enough (by omega)] at h
    obtain ⟨stockLocate, mid, -, h⟩ := run_bind_eq_some.mp h
    obtain ⟨code, mid', -, h⟩ := run_bind_eq_some.mp h
    obtain ⟨hout, -⟩ := run_pure_eq_some.mp h
    cases hout
    exact Kind.noConfusion
  · rw [decodeResponse, run_guarded_enough (by rw [symbolLen]; omega)] at h
    obtain ⟨stockLocate, mid, -, h⟩ := run_bind_eq_some.mp h
    obtain ⟨lastAppliedSeq, mid', -, h⟩ := run_bind_eq_some.mp h
    obtain ⟨symbol, mid'', -, h⟩ := run_bind_eq_some.mp h
    obtain ⟨bn, mid''', -, h⟩ := run_bind_eq_some.mp h
    have hkind : out.kind = .response := decodeLevels_kind h
    rw [hkind]
    decide
  · simp [opCodes, hrequest, hfault, hresponse] at hop

theorem decodeFrame_tiny {bytes : List UInt8} (h : bytes.length < 5) : decodeFrame bytes = some ({}, 0) := by
  rw [decodeFrame, if_pos h]

/-- The decoder on a buffer with an op code: the sum of its size check has 32 bits. -/
theorem decodeFrame_eq {bytes : List UInt8} {op : UInt8} (hop : bytes[4]? = some op) :
    decodeFrame bytes =
      if bytes.length < (4 + declaredLength bytes) % 2 ^ 32 then some ({}, 0)
      else (readAt (decodeOp ((bytes.length : ℤ) - (4 + declaredLength bytes)) op) bytes 5).map
        (fun r => (r.1, if r.2 then (4 + declaredLength bytes) % 2 ^ 32 else 0)) := by
  obtain ⟨hfour, hget⟩ := List.getElem?_eq_some_iff.mp hop
  have hlen : (UInt32.ofNat (ofBytes ((bytes.drop 0).take 4))).toNat = declaredLength bytes :=
    toNat_ofBytes_four bytes
  have hreadOp : readAt readU8 bytes 4 = some op := by
    have hdrop : bytes.drop 4 = u8Bytes op ++ bytes.drop 5 := by
      rw [List.drop_eq_getElem_cons hfour, hget]
      rfl
    exact readAt_run (hdrop ▸ readU8_accepts.run trivial _)
  rw [decodeFrame, if_neg (by omega), readAt_readU32 (by omega), Option.bind_eq_bind, Option.bind_some]
  dsimp only
  rw [UInt32.toNat_add, hlen, show UInt32.toNat 4 = 4 from rfl]
  split_ifs
  · rfl
  · rw [hreadOp, Option.bind_eq_bind, Option.bind_some]
    cases readAt (decodeOp ((bytes.length : ℤ) - (4 + declaredLength bytes)) op) bytes 5 with
    | none => rfl
    | some r => rfl

/-- A response frame that is all there and claims more levels than it holds. -/
def Overclaiming (bytes : List UInt8) : Prop :=
  4 + declaredLength bytes ≤ bytes.length ∧ bytes[4]? = some 0x53 ∧ Overclaims (frameBody bytes)

/-- A frame that is all there: what its case does decides the result. -/
theorem decodeFrame_whole {bytes : List UInt8} (hfive : 5 ≤ bytes.length)
    (hroom : 4 + declaredLength bytes ≤ bytes.length) :
    ∃ out complete, decodeFrame bytes =
        some (out, if complete then (4 + declaredLength bytes) % 2 ^ 32 else 0) ∧
      ((complete = true ↔ out.kind ≠ .none) ↔ ¬ Overclaiming bytes) := by
  obtain ⟨op, hop⟩ : ∃ op, bytes[4]? = some op := ⟨_, List.getElem?_eq_getElem (by omega)⟩
  have hsmall : ¬ bytes.length < (4 + declaredLength bytes) % 2 ^ 32 := by
    have hmod := Nat.mod_le (4 + declaredLength bytes) (2 ^ 32)
    omega
  rw [decodeFrame_eq hop, if_neg hsmall, Overclaiming, hop, and_iff_right hroom, Option.some_inj]
  rcases Nat.eq_zero_or_pos (declaredLength bytes) with hzero | hpos
  · -- an empty frame ends in front of its op code
    have hrun := run_decodeOp_outside
      (show ((bytes.drop 5).length : ℤ) < (bytes.length : ℤ) - (4 + declaredLength bytes) by
        rw [List.length_drop]; omega) op
    rw [readAt_run hrun]
    refine ⟨_, _, rfl, iff_of_true (by decide) (fun h => ?_)⟩
    have hbody := h.2.1
    rw [frameBody, hzero, List.take_zero] at hbody
    exact absurd hbody (by decide)
  · have hbehind : ((bytes.length : ℤ) - (4 + declaredLength bytes)) =
      (bytes.length - (4 + declaredLength bytes) : ℕ) := by
      omega
    rw [hbehind]
    obtain ⟨out, complete, rest, hrun, hclean⟩ := run_decodeOp
      (show (bytes.drop 5).length = bytes.length - (4 + declaredLength bytes) + (declaredLength bytes - 1) by
        rw [List.length_drop]; omega) op
    rw [readAt_run hrun]
    exact ⟨out, complete, rfl, hclean⟩

/-- A frame that is not all there is left alone, unless its length wraps. -/
theorem decodeFrame_partial {bytes : List UInt8} (hlen : declaredLength bytes < 2 ^ 32 - 4)
    (h : bytes.length < 4 + declaredLength bytes) : decodeFrame bytes = some ({}, 0) := by
  by_cases hfive : bytes.length < 5
  · exact decodeFrame_tiny hfive
  · obtain ⟨op, hop⟩ : ∃ op, bytes[4]? = some op := ⟨_, List.getElem?_eq_getElem (by omega)⟩
    rw [decodeFrame_eq hop, if_pos (by rw [Nat.mod_eq_of_lt (by omega)]; exact h)]

/-- What a caller that looks at the kind relies on: a kind comes with the size of
the whole frame, no kind with nothing consumed, and no response is cut short. -/
def DecodesWhole (bytes : List UInt8) : Prop :=
  ∃ out consumed, decodeFrame bytes = some (out, consumed) ∧ (0 < consumed ↔ out.kind ≠ .none) ∧
    (out.kind ≠ .none → consumed = 4 + declaredLength bytes) ∧ (Overclaiming bytes → out.kind = .none)

/-- The decoder is all or nothing on every buffer but a response frame that claims
more levels than it holds. -/
theorem decodesWhole_iff (bytes : List UInt8) (hlen : declaredLength bytes < 2 ^ 32 - 4) :
    DecodesWhole bytes ↔ ¬ Overclaiming bytes := by
  by_cases hwhole : 5 ≤ bytes.length ∧ 4 + declaredLength bytes ≤ bytes.length
  · obtain ⟨out, complete, hrun, hclean⟩ := decodeFrame_whole hwhole.1 hwhole.2
    rw [Nat.mod_eq_of_lt (by omega)] at hrun
    rw [← hclean]
    constructor
    · rintro ⟨out', consumed, hrun', hconsumed, -, -⟩
      obtain ⟨rfl, rfl⟩ := Prod.mk_inj.mp (Option.some.inj (hrun.symm.trans hrun'))
      rw [← hconsumed]
      cases complete <;> simp
    · intro hiff
      refine ⟨out, _, hrun, ?_, fun hkind => ?_, fun hover => absurd hover (hclean.mp hiff)⟩
      · rw [← hiff]
        cases complete <;> simp
      · rw [if_pos (hiff.mpr hkind)]
  · have hnone : decodeFrame bytes = some ({}, 0) := by
      by_cases hfive : bytes.length < 5
      · exact decodeFrame_tiny hfive
      · exact decodeFrame_partial hlen (by omega)
    have hover : ¬ Overclaiming bytes := by
      rintro ⟨hroom, hop, -⟩
      obtain ⟨hfour, -⟩ := List.getElem?_eq_some_iff.mp hop
      exact hwhole ⟨hfour, hroom⟩
    refine iff_of_true ⟨_, _, hnone, by decide, fun h => absurd rfl h, fun h => absurd h hover⟩ hover

theorem request_decodes_whole : DecodesWhole (encodeRequest ⟨7, 42⟩) := by
  refine (decodesWhole_iff (encodeRequest ⟨7, 42⟩) (by decide)).mpr ?_
  rintro ⟨-, hop, -⟩
  exact absurd hop (by decide)

/-- A response of one bid without the bid: its kind is set and nothing is consumed. -/
theorem missing_bid_kept : ¬ ∀ bytes : List UInt8, declaredLength bytes < 2 ^ 32 - 4 →
    DecodesWhole bytes := by
  intro h
  obtain ⟨out, consumed, hrun, hconsumed, -⟩ :=
    h ([0, 0, 0, 23, 0x53] ++ List.replicate 18 0 ++ [0, 0, 0, 1]) (by decide)
  have hkept : decodeFrame ([0, 0, 0, 23, 0x53] ++ List.replicate 18 0 ++ [0, 0, 0, 1]) =
      some ({ kind := .response }, 0) := by decide
  obtain ⟨rfl, rfl⟩ := Prod.mk_inj.mp (Option.some.inj (hkept.symm.trans hrun))
  exact absurd (hconsumed.mpr (by decide)) (by decide)

/-- Every read of the decoder lies inside the buffer, and so do the bytes it
consumes and the frames it finds. -/
def StaysInside (bytes : List UInt8) : Prop :=
  ∃ out consumed, decodeFrame bytes = some (out, consumed) ∧ consumed ≤ bytes.length ∧
    (out.kind ≠ .none → 4 + declaredLength bytes ≤ bytes.length)

theorem staysInside_whole {bytes : List UInt8} (hfive : 5 ≤ bytes.length)
    (hroom : 4 + declaredLength bytes ≤ bytes.length) : StaysInside bytes := by
  obtain ⟨out, complete, hrun, -⟩ := decodeFrame_whole hfive hroom
  refine ⟨out, _, hrun, ?_, fun _ => hroom⟩
  split_ifs
  · exact (Nat.mod_le _ _).trans hroom
  · exact Nat.zero_le _

/-- A length that wraps passes the size check; the cases compare with the end it points to. -/
theorem decodeFrame_wrapped {bytes : List UInt8} {op : UInt8} (hop : bytes[4]? = some op)
    (hwrap : 2 ^ 32 - 4 ≤ declaredLength bytes) : decodeFrame bytes =
      (readAt (decodeOp ((bytes.length : ℤ) - (4 + declaredLength bytes)) op) bytes 5).map
        (fun r => (r.1, if r.2 then (4 + declaredLength bytes) % 2 ^ 32 else 0)) := by
  obtain ⟨hfour, -⟩ := List.getElem?_eq_some_iff.mp hop
  have hlt : declaredLength bytes < 2 ^ 32 :=
    (ofBytes_lt _).trans_le (Nat.pow_le_pow_right (by norm_num) (List.length_take_le 4 bytes))
  rw [decodeFrame_eq hop, if_neg (by omega)]

/-- The decoder stays inside its buffer exactly when the length does not wrap, the
buffer is as long as the wrapped length says, or the op code is none of the three. -/
theorem staysInside_iff (bytes : List UInt8) : StaysInside bytes ↔
    bytes.length < 5 ∨ declaredLength bytes < 2 ^ 32 - 4 ∨ 4 + declaredLength bytes ≤ bytes.length ∨
      (∀ op, bytes[4]? = some op → op ∉ opCodes) := by
  by_cases hfive : bytes.length < 5
  · exact iff_of_true ⟨_, _, decodeFrame_tiny hfive, Nat.zero_le _, fun h => absurd rfl h⟩ (Or.inl hfive)
  by_cases hroom : 4 + declaredLength bytes ≤ bytes.length
  · exact iff_of_true (staysInside_whole (by omega) hroom) (Or.inr (Or.inr (Or.inl hroom)))
  by_cases hlen : declaredLength bytes < 2 ^ 32 - 4
  · exact iff_of_true ⟨_, _, decodeFrame_partial hlen (by omega), Nat.zero_le _, fun h => absurd rfl h⟩
      (Or.inr (Or.inl hlen))
  obtain ⟨op, hop⟩ : ∃ op, bytes[4]? = some op := ⟨_, List.getElem?_eq_getElem (by omega)⟩
  have hwrapped := decodeFrame_wrapped hop (by omega)
  by_cases hknown : op ∈ opCodes
  · -- the kind is set before, or without, a read outside of the buffer
    refine iff_of_false ?_ ?_
    · rintro ⟨out, consumed, hrun, -, hkind⟩
      rw [hwrapped] at hrun
      obtain ⟨⟨out', complete⟩, hread, heq⟩ := Option.map_eq_some_iff.mp hrun
      obtain ⟨rfl, -⟩ := Prod.mk_inj.mp heq
      obtain ⟨rest, hcase⟩ := readAt_eq_some hread
      exact hroom (hkind (decodeOp_kind hknown (by rw [List.length_drop]; omega) hcase))
    · rintro (h | h | h | h)
      · exact hfive h
      · exact hlen h
      · exact hroom h
      · exact h op hop hknown
  · have hother : decodeOp ((bytes.length : ℤ) - (4 + declaredLength bytes)) op = pure ({}, false) := by
      simp only [opCodes, List.mem_cons, List.not_mem_nil, or_false, not_or] at hknown
      rw [decodeOp, if_neg hknown.1, if_neg hknown.2.1, if_neg hknown.2.2]
    rw [hother] at hwrapped
    refine iff_of_true ⟨_, _, hwrapped, Nat.zero_le _, fun h => absurd rfl h⟩ (Or.inr (Or.inr (Or.inr ?_)))
    intro op' hop'
    cases Option.some.inj (hop.symm.trans hop')
    exact hknown

/-- Five bytes with the largest length: the sum wraps to 3 and the case of a
request reads behind the buffer. -/
theorem largest_length_reads_outside : ¬ ∀ bytes : List UInt8, StaysInside bytes := by
  intro h
  obtain ⟨out, consumed, hrun, -⟩ := h [0xFF, 0xFF, 0xFF, 0xFF, 0x51]
  have houtside : decodeFrame [0xFF, 0xFF, 0xFF, 0xFF, 0x51] = none := by decide
  cases houtside.symm.trans hrun

/-- What the three encoders encode. -/
inductive RecoveryFrame
  | request (req : SnapshotRequest)
  | response (resp : SnapshotResponse)
  | fault (f : SnapshotFault)

namespace RecoveryFrame

def body : RecoveryFrame → List UInt8
  | request req => requestBody req
  | response resp => responseBody resp
  | fault f => faultBody f

def encode : RecoveryFrame → List UInt8
  | request req => encodeRequest req
  | response resp => encodeResponse resp
  | fault f => encodeFault f

/-- What the decoder has to make of a frame. -/
def decoded : RecoveryFrame → DecodedFrame
  | request req => { kind := .request, request := req }
  | response resp => { kind := .response, response := resp }
  | fault f => { kind := .fault, fault := f }

/-- The length of the frame leaves the decoder's sum below 2^32. -/
def Fits (f : RecoveryFrame) : Prop := 1 + f.body.length ≤ 2 ^ 32 - 5

instance (f : RecoveryFrame) : Decidable f.Fits := inferInstanceAs (Decidable (_ ≤ _))

theorem length_encode (f : RecoveryFrame) : f.encode.length = 5 + f.body.length := by
  cases f <;> exact length_frameWithHeader _ _

/-- Every frame comes back from its bytes, in front of any others. -/
theorem round_trip {f : RecoveryFrame} (hfit : f.Fits) (t : List UInt8) :
    decodeFrame (f.encode ++ t) = some (f.decoded, f.encode.length) := by
  have hlen := f.length_encode
  unfold Fits at hfit
  cases f with
  | request req => exact request_round_trip req t
  | fault f => exact fault_round_trip f t
  | response resp => exact response_round_trip (show (encode (response resp)).length ≤ _ by omega) t

end RecoveryFrame

/-- `decode_frame` called `n` times, each time behind what the last call consumed. -/
def decodeFrames : ℕ → List UInt8 → Option (List DecodedFrame × List UInt8)
  | 0, bytes => some ([], bytes)
  | n + 1, bytes => do
    let (out, consumed) ← decodeFrame bytes
    let (later, rest) ← decodeFrames n (bytes.drop consumed)
    return (out :: later, rest)

/-- Frames that fit come back from the wire, alone and one after the other, whatever follows them. -/
theorem recovery_round_trip :
    (∀ (f : RecoveryFrame) (t : List UInt8), f.Fits →
      decodeFrame (f.encode ++ t) = some (f.decoded, f.encode.length)) ∧
    ∀ (frames : List RecoveryFrame) (t : List UInt8), (∀ f ∈ frames, f.Fits) →
      decodeFrames frames.length (frames.flatMap RecoveryFrame.encode ++ t) =
        some (frames.map RecoveryFrame.decoded, t) := by
  refine ⟨fun f t hfit => RecoveryFrame.round_trip hfit t, fun frames t hfit => ?_⟩
  induction frames with
  | nil => rfl
  | cons f frames ih =>
    have hfirst := RecoveryFrame.round_trip (hfit f (by simp)) (frames.flatMap RecoveryFrame.encode ++ t)
    have hrest := ih (fun g hg => hfit g (by simp [hg]))
    rw [List.length_cons, decodeFrames, List.flatMap_cons, List.append_assoc, hfirst, Option.bind_eq_bind,
      Option.bind_some]
    dsimp only
    rw [List.drop_left, hrest]
    rfl

/-- A request, a response with one ask and a fault, and a byte behind them. -/
theorem three_frames_round_trip :
    let frames : List RecoveryFrame := [.request ⟨7, 42⟩,
      .response ⟨7, 41, Vector.replicate 8 65, [], [⟨100, 5, 1⟩]⟩, .fault ⟨7, 2⟩]
    decodeFrames 3 (frames.flatMap RecoveryFrame.encode ++ [9]) =
      some (frames.map RecoveryFrame.decoded, [9]) := by
  intro frames
  exact recovery_round_trip.2 frames [9] (by decide)

end MdfeedItch.SnapshotClient
