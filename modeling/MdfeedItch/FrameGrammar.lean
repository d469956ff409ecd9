import MdfeedItch.FrameRoundTrip

/-! # What the decoder accepts

`Outcome` lists the five ways in which `decode_frame` ends. Each is decided by the
first `2 + L` bytes, where `L` is the length prefix, and each but the first takes
exactly these bytes off the buffer; so a loop over the frames of a buffer stops
inside of it. -/
namespace MdfeedItch
open ByteCursor ByteLayout

theorem MessageType.ofByte_code (t : MessageType) : MessageType.ofByte t.code = some t := by
  cases t <;> rfl

theorem MessageType.ofByte_eq_some_iff {b : UInt8} {t : MessageType} :
    MessageType.ofByte b = some t ↔ t.code = b := by
  constructor
  · intro h
    simpa using List.find?_some h
  · rintro rfl
    exact ofByte_code t

/-- The big-endian length prefix. -/
def frameLength (b : List UInt8) : ℕ := ofBytes (b.take 2)

/-- The buffer does not hold a whole frame. -/
def Truncated (b : List UInt8) : Prop := b.length < 2 ∨ b.length < 2 + frameLength b

instance (b : List UInt8) : Decidable (Truncated b) := inferInstanceAs (Decidable (_ ∨ _))

/-- How decoding the front of a buffer ends. -/
inductive Outcome (b : List UInt8) : ParseResult → Prop
  | truncated (h : Truncated b) : Outcome b ⟨.shortBuffer, 0, none⟩
  | empty (h : ¬ Truncated b) (hempty : frameLength b = 0) :
      Outcome b ⟨.lengthMismatch, 2 + frameLength b, none⟩
  | unknown (h : ¬ Truncated b) (hsome : 1 ≤ frameLength b) (htype : ∀ t : MessageType, t.code ≠ b.getD 2 0) :
      Outcome b ⟨.unknownType, 2 + frameLength b, none⟩
  | mismatch {t : MessageType} (h : ¬ Truncated b) (hsome : 1 ≤ frameLength b) (htype : t.code = b.getD 2 0)
      (hsize : frameLength b ≠ t.wireSize) : Outcome b ⟨.lengthMismatch, 2 + frameLength b, none⟩
  | message {m : AnyMessage} {rest : List UInt8} (h : ¬ Truncated b) (hts : m.ts.toNat < 2 ^ 48)
      (hbytes : b = frameBytes m ++ rest) : Outcome b ⟨.ok, framedSize m, some m⟩

/-- The prefix and the type byte of a buffer that starts with the bytes of a message. -/
theorem frameBytes_front (m : AnyMessage) (rest : List UInt8) :
    frameLength (frameBytes m ++ rest) = m.type.wireSize ∧ (frameBytes m ++ rest).getD 2 0 = m.type.code ∧
      (frameBytes m ++ rest).drop 3 = bodyBytes m ++ rest := by
  have hlen : (u16Bytes (UInt16.ofNat m.type.wireSize)).length = 2 := by simp
  have hsize : (UInt16.ofNat m.type.wireSize).toNat = m.type.wireSize :=
    UInt16.toNat_ofNat_of_lt' m.type.wireSize_lt
  have hsplit : frameBytes m ++ rest =
      u16Bytes (UInt16.ofNat m.type.wireSize) ++ (m.type.code :: (bodyBytes m ++ rest)) := by
    rw [frameBytes_eq, List.append_assoc, List.cons_append]
  rw [hsplit]
  refine ⟨?_, ?_, ?_⟩
  · rw [frameLength, ← hlen, List.take_left, u16Bytes, hsize, ofBytes_toBytes]
    exact Nat.mod_eq_of_lt m.type.wireSize_lt
  · rw [List.getD_eq_getElem?_getD, List.getElem?_append_right (by simp)]
    simp
  · rw [← List.drop_drop (i := 1) (j := 2), ← hlen, List.drop_left]
    rfl

/-- A whole frame of the right size for its type byte carries a message. -/
theorem exists_message {b : List UInt8} {t : MessageType} (h : ¬ Truncated b) (htype : t.code = b.getD 2 0)
    (hsize : frameLength b = t.wireSize) :
    ∃ m rest, m.type = t ∧ m.ts.toNat < 2 ^ 48 ∧ b = frameBytes m ++ rest ∧
      (decodeBody t).run (b.drop 3) = some (m, rest) := by
  have hpos := t.wireSize_pos
  have hread := bytesRead_lt t
  unfold Truncated at h
  obtain ⟨m, hm⟩ := decodeBody_reads t (b.drop 3) (by rw [List.length_drop]; omega)
  obtain ⟨⟨rfl, hts⟩, hbody⟩ := (decodeBody_accepts t _ _ _).mp hm
  refine ⟨m, _, rfl, hts, ?_, hm⟩
  have hhead : u16Bytes (UInt16.ofNat m.type.wireSize) = b.take 2 := by
    rw [u16Bytes, UInt16.toNat_ofNat_of_lt' m.type.wireSize_lt, ← hsize]
    exact toBytes_ofBytes (List.length_take_of_le (by omega))
  have hthird : b.drop 2 = m.type.code :: b.drop 3 := by
    rw [htype, List.drop_eq_getElem_cons (by omega), List.getD_eq_getElem?_getD,
      List.getElem?_eq_getElem (by omega), Option.getD_some]
  rw [frameBytes_eq, List.append_assoc, List.cons_append, ← hbody, hhead, ← hthird, List.take_append_drop]

theorem decodeFrame_truncated {b : List UInt8} (h : Truncated b) :
    decodeFrame b = ⟨.shortBuffer, 0, none⟩ := by
  rw [decodeFrame]
  split_ifs with hshort
  · rfl
  · exact if_pos (h.resolve_left hshort)

/-- The decoder on a buffer with a whole frame at its front. -/
theorem decodeFrame_whole {b : List UInt8} (h : ¬ Truncated b) : decodeFrame b =
    if frameLength b < 1 then ⟨.lengthMismatch, 2 + frameLength b, none⟩
    else match MessageType.ofByte (b.getD 2 0) with
      | none => ⟨.unknownType, 2 + frameLength b, none⟩
      | some type =>
        if frameLength b = type.wireSize then
          ⟨.ok, 2 + frameLength b, ((decodeBody type).run (b.drop 3)).map Prod.fst⟩
        else ⟨.lengthMismatch, 2 + frameLength b, none⟩ := by
  obtain ⟨hshort, hlong⟩ := not_or.mp h
  rw [decodeFrame, if_neg hshort]
  exact if_neg hlong

theorem decodeFrame_outcome (b : List UInt8) : Outcome b (decodeFrame b) := by
  by_cases h : Truncated b
  · rw [decodeFrame_truncated h]
    exact .truncated h
  · rw [decodeFrame_whole h]
    by_cases hzero : frameLength b < 1
    · rw [if_pos hzero]
      exact .empty h (Nat.lt_one_iff.mp hzero)
    · rw [if_neg hzero]
      have hsome : 1 ≤ frameLength b := Nat.not_lt.mp hzero
      cases htype : MessageType.ofByte (b.getD 2 0) with
      | none =>
        refine .unknown h hsome (fun t ht => ?_)
        rw [← ht, MessageType.ofByte_code] at htype
        cases htype
      | some t =>
        have hcode := MessageType.ofByte_eq_some_iff.mp htype
        dsimp only
        by_cases hsize : frameLength b = t.wireSize
        · obtain ⟨m, rest, rfl, hts, hbytes, hrun⟩ := exists_message h hcode hsize
          rw [if_pos hsize, hrun, hsize]
          exact .message h hts hbytes
        · rw [if_neg hsize]
          exact .mismatch h hsome hcode hsize

/-- No buffer has two outcomes. -/
theorem Outcome.eq {b : List UInt8} {r : ParseResult} (h : Outcome b r) : decodeFrame b = r := by
  cases h with
  | truncated h => exact decodeFrame_truncated h
  | empty h hempty => rw [decodeFrame_whole h, if_pos (Nat.lt_one_iff.mpr hempty)]
  | unknown h hsome htype =>
    have hnone : MessageType.ofByte (b.getD 2 0) = none := by
      cases hof : MessageType.ofByte (b.getD 2 0) with
      | none => rfl
      | some t => exact absurd (MessageType.ofByte_eq_some_iff.mp hof) (htype t)
    rw [decodeFrame_whole h, if_neg (Nat.not_lt.mpr hsome), hnone]
  | @mismatch t h hsome htype hsize =>
    rw [decodeFrame_whole h, if_neg (Nat.not_lt.mpr hsome), MessageType.ofByte_eq_some_iff.mpr htype]
    exact if_neg hsize
  | @message m rest h hts hbytes =>
    obtain ⟨hlen, htype, hbody⟩ := frameBytes_front m rest
    rw [← hbytes] at hlen htype hbody
    have hrun := (decodeBody_accepts m.type).run ⟨rfl, hts⟩ rest
    have hsome : 1 ≤ frameLength b := hlen ▸ m.type.wireSize_pos
    rw [decodeFrame_whole h, if_neg (Nat.not_lt.mpr hsome), MessageType.ofByte_eq_some_iff.mpr htype.symm]
    dsimp only
    rw [if_pos hlen, hbody, hrun, hlen]
    rfl

theorem Outcome.consumed {b : List UInt8} {r : ParseResult} (h : Outcome b r) (hwhole : ¬ Truncated b) :
    r.consumed = 2 + frameLength b := by
  cases h with
  | truncated h => exact absurd h hwhole
  | empty h hempty => rfl
  | unknown h hsome htype => rfl
  | mismatch h hsome htype hsize => rfl
  | @message m rest h hts hbytes =>
    rw [hbytes, (frameBytes_front m rest).1]
    rfl

/-- The frame is one of the grammar: a type code followed by as many bytes as the type asks for. -/
def WellFormed (b : List UInt8) : Prop :=
  1 ≤ frameLength b ∧ ∃ t : MessageType, t.code = b.getD 2 0 ∧ frameLength b = t.wireSize

/-- The frame has a type byte, but none of the ten codes. -/
def UnknownCode (b : List UInt8) : Prop := 1 ≤ frameLength b ∧ ∀ t : MessageType, t.code ≠ b.getD 2 0

theorem Outcome.status {b : List UInt8} {r : ParseResult} (h : Outcome b r) :
    (r.status = .shortBuffer ↔ Truncated b) ∧ (r.status = .ok ↔ ¬ Truncated b ∧ WellFormed b) ∧
      (r.status = .unknownType ↔ ¬ Truncated b ∧ UnknownCode b) := by
  cases h with
  | truncated h => simp [h]
  | empty h hempty => simp [h, WellFormed, UnknownCode, hempty]
  | unknown h hsome htype =>
    refine ⟨by simp [h], iff_of_false (by simp) ?_, iff_of_true rfl ⟨h, hsome, htype⟩⟩
    rintro ⟨-, -, t, ht, -⟩
    exact htype t ht
  | @mismatch t h hsome htype hsize =>
    refine ⟨by simp [h], iff_of_false (by simp) ?_, iff_of_false (by simp) ?_⟩
    · rintro ⟨-, -, t', ht', hsize'⟩
      have hsame := (MessageType.ofByte_code t).symm.trans
        ((congrArg _ (htype.trans ht'.symm)).trans (MessageType.ofByte_code t'))
      rw [← Option.some.inj hsame] at hsize'
      exact hsize hsize'
    · rintro ⟨-, -, hall⟩
      exact hall t htype
  | @message m rest h hts hbytes =>
    obtain ⟨hlen, htype, -⟩ := frameBytes_front m rest
    rw [← hbytes] at hlen htype
    refine ⟨by simp [h], iff_of_true rfl ⟨h, hlen ▸ m.type.wireSize_pos, m.type, htype.symm, hlen⟩,
      iff_of_false (by simp) ?_⟩
    rintro ⟨-, -, hall⟩
    exact hall m.type htype.symm

/-- The outcome is decided by the bytes of the frame, whatever stands behind it. -/
theorem Outcome.frame_only {b : List UInt8} {r : ParseResult} (h : Outcome b r) (hwhole : ¬ Truncated b)
    (t : List UInt8) :
    Outcome (b.take (2 + frameLength b) ++ t) r := by
  obtain ⟨hshort, hlong⟩ := not_or.mp hwhole
  have hcut : (b.take (2 + frameLength b)).length = 2 + frameLength b :=
    List.length_take_of_le (Nat.not_lt.mp hlong)
  have hhead : frameLength (b.take (2 + frameLength b) ++ t) = frameLength b := by
    rw [frameLength, List.take_append_of_le_length (by omega), List.take_take, Nat.min_eq_left (by omega)]
    rfl
  have hthird : 1 ≤ frameLength b → (b.take (2 + frameLength b) ++ t).getD 2 0 = b.getD 2 0 := by
    intro hsome
    rw [List.getD_eq_getElem?_getD, List.getElem?_append_left (by omega), List.getElem?_take_of_lt (by omega),
      List.getD_eq_getElem?_getD]
  have hwhole' : ¬ Truncated (b.take (2 + frameLength b) ++ t) := by
    rw [Truncated, hhead, List.length_append, hcut]
    omega
  obtain ⟨b', hb'⟩ : ∃ b', b' = b.take (2 + frameLength b) ++ t := ⟨_, rfl⟩
  rw [← hb'] at hhead hthird hwhole' ⊢
  cases h with
  | truncated h => exact absurd h hwhole
  | empty h hempty => exact hhead ▸ .empty hwhole' (hhead.trans hempty)
  | unknown h hsome htype =>
    exact hhead ▸ .unknown hwhole' (hhead.symm ▸ hsome) (fun t ht => htype t (ht.trans (hthird hsome)))
  | mismatch h hsome htype hsize =>
    exact hhead ▸ .mismatch hwhole' (hhead.symm ▸ hsome) (htype.trans (hthird hsome).symm)
      (hhead.symm ▸ hsize)
  | @message m rest h hts hbytes =>
    have hroom : (frameBytes m).length ≤ 2 + frameLength b := by
      have hread := bytesRead_lt m.type
      rw [hbytes, (frameBytes_front m rest).1, length_frameBytes]
      omega
    have hcutoff : b.take (2 + frameLength b) =
        frameBytes m ++ rest.take (2 + frameLength b - (frameBytes m).length) := by
      generalize 2 + frameLength b = n at hroom
      rw [hbytes, List.take_append, List.take_of_length_le hroom]
    have hmessage : b' = frameBytes m ++ (rest.take (2 + frameLength b - (frameBytes m).length) ++ t) := by
      rw [hb', hcutoff, List.append_assoc]
    exact .message hwhole' hts hmessage

/-- The loop of the fuzz driver from an offset on; `none` when the fuel runs out. -/
def fuzzerTestOneInput : ℕ → List UInt8 → ℕ → Option ℕ
  | 0, _, _ => none
  | fuel + 1, data, off =>
    if off < data.length then
      let pr := decodeFrame (data.drop off)
      if pr.consumed = 0 then some off else fuzzerTestOneInput fuel data (off + pr.consumed)
    else some off

/-- Each pass takes a whole frame, so the loop ends inside of the input. -/
theorem fuzzerTestOneInput_stops (data : List UInt8) (fuel off : ℕ) (hin : off ≤ data.length)
    (hfuel : data.length - off < fuel) :
    ∃ stop, fuzzerTestOneInput fuel data off = some stop ∧ stop ≤ data.length := by
  induction fuel generalizing off with
  | zero => omega
  | succ fuel ih =>
    rw [fuzzerTestOneInput]
    split_ifs with hmore
    · dsimp only
      split_ifs with hdone
      · exact ⟨off, rfl, hin⟩
      · have hwhole : ¬ Truncated (data.drop off) := by
          intro htrunc
          rw [decodeFrame_truncated htrunc] at hdone
          exact hdone rfl
        have hlen := (not_or.mp hwhole).2
        rw [(decodeFrame_outcome _).consumed hwhole] at hdone ⊢
        rw [List.length_drop] at hlen
        exact ih _ (by omega) (by omega)
    · exact ⟨off, rfl, hin⟩

/-- The decoder accepts exactly its grammar, reads nothing behind the frame and makes progress. -/
theorem decodeFrame_grammar (b : List UInt8) :
    ((decodeFrame b).status = .shortBuffer ∧ (decodeFrame b).consumed = 0 ↔ Truncated b) ∧
      (¬ Truncated b → (decodeFrame b).consumed = 2 + frameLength b ∧
        ((decodeFrame b).status = .ok ↔ WellFormed b) ∧
        ((decodeFrame b).status = .unknownType ↔ UnknownCode b) ∧
        ((decodeFrame b).status = .lengthMismatch ↔ ¬ WellFormed b ∧ ¬ UnknownCode b) ∧
        ∀ t, decodeFrame (b.take (2 + frameLength b) ++ t) = decodeFrame b) ∧
      ((decodeFrame b).message.isSome ↔ (decodeFrame b).status = .ok) ∧
      ∃ stop, fuzzerTestOneInput (b.length + 1) b 0 = some stop ∧ stop ≤ b.length := by
  have hout := decodeFrame_outcome b
  obtain ⟨hshort, hok, hunknown⟩ := hout.status
  refine ⟨⟨fun h => hshort.mp h.1, fun h => ?_⟩, fun hwhole =>
    ⟨hout.consumed hwhole, ?_, ?_, ?_, fun t => ?_⟩,
    decodeFrame_message b, fuzzerTestOneInput_stops b _ 0 (Nat.zero_le _) (by omega)⟩
  · rw [decodeFrame_truncated h]
    exact ⟨rfl, rfl⟩
  · rw [hok, and_iff_right hwhole]
  · rw [hunknown, and_iff_right hwhole]
  · rw [← and_iff_right hwhole (b := WellFormed b), ← hok, ← and_iff_right hwhole (b := UnknownCode b),
      ← hunknown]
    have hnot : (decodeFrame b).status ≠ .shortBuffer := fun h => hwhole (hshort.mp h)
    cases hs : (decodeFrame b).status with
    | ok => simp
    | shortBuffer => exact absurd hs hnot
    | unknownType => simp
    | lengthMismatch => simp
  · exact (hout.frame_only hwhole t).eq

end MdfeedItch
