import MdfeedItch.BookSnapshotCodec

/-! # What the snapshot decoder reserves

`decode_book_snapshot` reserves storage for `sym_count` records before its loop looks
at any of them. Frame length, magic and checksum bind the count to nothing: it is in
proportion to the frame exactly when the sender of the frame made it so. -/
namespace MdfeedItch
open ByteCursor ByteLayout GuardedReads

/-- The frame passes the checks in front of the fields: length, magic and checksum. -/
structure Sealed (bytes : List UInt8) : Prop where
  inside : 4 + declaredLength bytes ≤ bytes.length
  minimum : 20 ≤ declaredLength bytes
  magic : (bytes.drop 4).take 4 = snapshotMagic
  crc : UInt32.ofNat (ofBytes ((bytes.drop (declaredLength bytes)).take 4)) =
    crc32 ((bytes.drop 4).take (declaredLength bytes - 4))

/-- A sealed frame whose count is larger than its records can be: a record takes ten bytes at least. -/
def Overcounts (bytes : List UInt8) : Prop :=
  Sealed bytes ∧ (declaredLength bytes - 20) / 10 < ofBytes ((bytes.drop 16).take 4)

/-- An unsealed frame is refused in front of the call. -/
theorem reserveCall_of_not_sealed {bytes : List UInt8} (h : ¬ Sealed bytes) : reserveCall bytes = none := by
  rw [reserveCall]
  by_cases hshort : bytes.length < 4 ∨ bytes.length < 4 + declaredLength bytes ∨ declaredLength bytes < 20
  · rw [decodeReserving_short hshort]
    rfl
  · obtain ⟨hinside, hmin⟩ : 4 + declaredLength bytes ≤ bytes.length ∧ 20 ≤ declaredLength bytes := by omega
    rw [decodeReserving_eq rfl hmin hinside]
    split_ifs with hmagic hcrc
    · rfl
    · rfl
    · exact absurd ⟨hinside, hmin, not_not.mp hmagic, not_not.mp hcrc⟩ h

/-- A sealed frame comes to the call, with the count it carries. -/
theorem reserveCall_of_sealed {bytes : List UInt8} (h : Sealed bytes) : reserveCall bytes =
    some ⟨UInt32.ofNat (ofBytes ((bytes.drop 16).take 4)), declaredLength bytes - 20⟩ := by
  have hinside := h.inside
  have hmin := h.minimum
  obtain ⟨sequence, hsequence⟩ := readU64_reads (bytes.drop 8) (by rw [List.length_drop]; omega)
  rw [List.drop_drop] at hsequence
  have hcount := @run_readU32 (bytes.drop 16) (by rw [List.length_drop]; omega)
  rw [List.drop_drop] at hcount
  obtain ⟨⟨symbols, complete⟩, rest, hrecords, -⟩ :=
    decodeRecords_safe (bytes.length - declaredLength bytes)
      (UInt32.ofNat (ofBytes ((bytes.drop 16).take 4))).toNat [] (bytes.drop 20) (by rw [List.length_drop]; omega)
  have hrun : (decodeSnapshotFields (bytes.length - declaredLength bytes : ℕ)).run (bytes.drop 8) =
      some ((⟨UInt32.ofNat (ofBytes ((bytes.drop 16).take 4)), declaredLength bytes - 20⟩, ⟨sequence, symbols⟩,
        complete && decide ((rest.length : ℤ) - (bytes.length - declaredLength bytes : ℕ) = 0)), rest) := by
    rw [decodeSnapshotFields]
    refine run_bind_eq_some.mpr ⟨sequence, _, hsequence, ?_⟩
    refine run_bind_eq_some.mpr ⟨_, _, hcount, ?_⟩
    refine run_bind_eq_some.mpr ⟨(declaredLength bytes : ℤ) - 20, bytes.drop 20, ?_, ?_⟩
    · rw [run_room, List.length_drop]
      congr 2
      omega
    · refine run_bind_eq_some.mpr ⟨_, _, hrecords, ?_⟩
      exact run_bind_eq_some.mpr ⟨_, _, run_room _ _, rfl⟩
  rw [reserveCall, decodeReserving_eq rfl hmin hinside, if_neg (not_not.mpr h.magic), if_neg (not_not.mpr h.crc),
    readAt_run hrun]
  rfl

/-- The count passed to `reserve` is at most the number of ten-byte records that fit in front of the
checksum, exactly when the frame does not overcount. -/
theorem reserve_fits_iff (bytes : List UInt8) :
    (∀ call, reserveCall bytes = some call → (call.symCount.toNat : ℤ) ≤ call.left / 10) ↔ ¬ Overcounts bytes := by
  by_cases h : Sealed bytes
  · rw [reserveCall_of_sealed h, Overcounts, and_iff_right h]
    have hmin := h.minimum
    simp only [Option.some_inj, forall_eq', toNat_ofBytes_four]
    omega
  · rw [reserveCall_of_not_sealed h]
    exact iff_of_true (by simp) (fun hover => h hover.1)

section Count
variable {sequence : UInt64} {count : UInt32} {records t : List UInt8}

theorem count_of_frameAround
    (hlimit : (snapshotMagic ++ (u64Bytes sequence ++ (u32Bytes count ++ records))).length + 4 < 2 ^ 32) :
    ofBytes (((frameAround (snapshotMagic ++ (u64Bytes sequence ++ (u32Bytes count ++ records))) ++ t).drop 16).take 4) =
      count.toNat := by
  obtain ⟨-, hdrop, -⟩ := frameAround_parts hlimit t
  have hfront : (snapshotMagic ++ u64Bytes sequence).length = 12 := by
    rw [List.length_append, length_u64Bytes]
    rfl
  rw [show 16 = 4 + 12 from rfl, ← List.drop_drop, hdrop, ← List.append_assoc snapshotMagic, List.append_assoc,
    List.drop_left' hfront, List.append_assoc, List.take_left' (length_u32Bytes _), u32Bytes, ofBytes_toBytes]
  exact Nat.mod_eq_of_lt count.toNat_lt

theorem sealed_frameAround
    (hlimit : (snapshotMagic ++ (u64Bytes sequence ++ (u32Bytes count ++ records))).length + 4 < 2 ^ 32) :
    Sealed (frameAround (snapshotMagic ++ (u64Bytes sequence ++ (u32Bytes count ++ records))) ++ t) := by
  obtain ⟨hn, hdrop, hcrc⟩ := frameAround_parts hlimit t
  have hsize := length_frameAround (snapshotMagic ++ (u64Bytes sequence ++ (u32Bytes count ++ records)))
  refine ⟨?_, ?_, ?_, ?_⟩
  · rw [List.length_append, hsize, hn]
    omega
  · rw [hn]
    simp only [List.length_append, length_u64Bytes, length_u32Bytes, snapshotMagic, List.length_cons, List.length_nil]
    omega
  · rw [hdrop]
    rfl
  · rw [hn, hcrc, stored_u32, hdrop, Nat.add_sub_cancel, List.take_left]

end Count

/-- What overcounts is refused all the same, after the call. -/
theorem overcounts_refused {bytes : List UInt8} (h : Overcounts bytes) :
    ∃ snap, decodeBookSnapshot bytes = some (snap, false) := by
  obtain ⟨⟨snap, ok⟩, hdecode, -⟩ := decodeBookSnapshot_inside bytes
  cases ok with
  | false => exact ⟨snap, hdecode⟩
  | true =>
    exfalso
    obtain ⟨-, hsize, hbytes⟩ := encode_of_decode hdecode
    have hlimit : declaredLength bytes < 2 ^ 32 := by
      rw [declaredLength, ← toNat_ofBytes_four]
      exact UInt32.toNat_lt _
    have hcovered : coveredBytes snap = snapshotMagic ++ (u64Bytes snap.sequence ++
      (u32Bytes (UInt32.ofNat snap.symbols.length) ++ snap.symbols.flatMap recordBytes)) := rfl
    have hrecords := length_records snap.symbols
    have hcount := h.2
    rw [← hsize] at hcount hlimit
    rw [hbytes, encodeBookSnapshot, hcovered, count_of_frameAround (hcovered ▸ hlimit), UInt32.toNat_ofNat'] at hcount
    have hmod := Nat.mod_le snap.symbols.length (2 ^ 32)
    simp only [List.length_append, length_u64Bytes, length_u32Bytes, snapshotMagic, List.length_cons,
      List.length_nil] at hcount
    omega

/-- A frame without records that announces as many as its count can say. -/
def absurdFrame : List UInt8 := frameAround (snapshotMagic ++ (u64Bytes 1 ++ (u32Bytes 4294967295 ++ [])))

theorem absurdFrame_reserved : ¬ ∀ (bytes : List UInt8) (call : ReserveCall),
    reserveCall bytes = some call → (call.symCount.toNat : ℤ) ≤ call.left / 10 := by
  intro h
  have hlimit : (snapshotMagic ++ (u64Bytes 1 ++ (u32Bytes 4294967295 ++ []))).length + 4 < 2 ^ 32 := by decide
  have hcall := reserveCall_of_sealed (sealed_frameAround (t := []) hlimit)
  obtain ⟨hn, -, -⟩ := frameAround_parts hlimit []
  rw [List.append_nil] at hcall hn
  have hle := h absurdFrame _ hcall
  have hcount := count_of_frameAround (t := []) hlimit
  rw [List.append_nil] at hcount
  rw [hcount, hn] at hle
  exact absurd hle (by decide)

end MdfeedItch
