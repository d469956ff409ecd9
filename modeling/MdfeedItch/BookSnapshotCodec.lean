import MdfeedItch.BookSnapshotWire

/-! # The book-snapshot format is a bijection

The decoder accepts exactly the encoded snapshots with at most ten levels a side, in
front of any bytes, and stays inside its frame on all others. -/
namespace MdfeedItch
open ByteCursor ByteLayout GuardedReads

theorem readLevel_accepts : Accepts readLevel (fun _ => True) levelBytes := by
  have h : Accepts readLevel _ _ :=
    readU32_accepts.field PriceLevel.price (K := fun _ => True) fun _ =>
    readU32_accepts.field PriceLevel.totalQty fun _ =>
    readU32_accepts.field PriceLevel.orderCount fun _ => .done (by rintro ⟨⟩; simp; tauto)
  exact h.congr (by simp) (by simp [levelBytes])

theorem readLevel_reads : Reads readLevel 12 :=
  readU32_reads.bind fun _ => readU32_reads.bind fun _ => readU32_reads.bind fun _ => .pure _

theorem readLevels_accepts (n : ℕ) :
    Accepts (takeMany readLevel n) (fun levels => levels.length = n)
      (fun levels => levels.flatMap levelBytes) :=
  (readLevel_accepts.many n).congr (by simp) (by simp)

theorem length_levels (levels : List PriceLevel) :
    (levels.flatMap levelBytes).length = levels.length * 12 := by
  induction levels with
  | nil => rfl
  | cons l levels ih =>
    rw [List.flatMap_cons, List.length_append, ih, List.length_cons]
    simp only [levelBytes, u32Bytes, List.length_append, length_toBytes]
    omega

/-- A record whose level counts fit the format. -/
def BookSnapshotSymbol.Bounded (rec : BookSnapshotSymbol) : Prop :=
  rec.bids.length ≤ snapshotMaxLevels ∧ rec.asks.length ≤ snapshotMaxLevels

def BookSnapshot.Bounded (snap : BookSnapshot) : Prop := ∀ rec ∈ snap.symbols, rec.Bounded

theorem levelCount_toNat {n : ℕ} (h : n ≤ snapshotMaxLevels) : (UInt8.ofNat n).toNat = n := by
  apply UInt8.toNat_ofNat_of_lt'
  show n < 256
  unfold snapshotMaxLevels at h
  omega

theorem decodeRecord_some {behind : ℕ} {bs rest : List UInt8} {rec : BookSnapshotSymbol} :
    (decodeRecord behind).run bs = some (some rec, rest) ↔ rec.Bounded ∧ behind ≤ rest.length ∧
      bs = recordBytes rec ++ rest := by
  have hsymbol := readArray_accepts symbolLen
  constructor
  · intro h
    obtain ⟨-, hafter⟩ := run_guarded_eq_some.mp h
    obtain ⟨symbol, bs₁, hread₁, hafter₁⟩ := run_bind_eq_some.mp hafter
    obtain ⟨nb, bs₂, hread₂, hafter₂⟩ := run_bind_eq_some.mp hafter₁
    obtain ⟨-, hbs⟩ := (hsymbol _ _ _).mp hread₁
    obtain ⟨-, hbs₁⟩ := (readU8_accepts _ _ _).mp hread₂
    split_ifs at hafter₂ with hnb
    · cases hafter₂
    obtain ⟨-, hafter₂⟩ := run_guarded_eq_some.mp hafter₂
    obtain ⟨bids, bs₃, hread₃, hafter₃⟩ := run_bind_eq_some.mp hafter₂
    obtain ⟨na, bs₄, hread₄, hafter₄⟩ := run_bind_eq_some.mp hafter₃
    obtain ⟨hbids, hbs₂⟩ := (readLevels_accepts _ _ _ _).mp hread₃
    obtain ⟨-, hbs₃⟩ := (readU8_accepts _ _ _).mp hread₄
    split_ifs at hafter₄ with hna
    · cases hafter₄
    obtain ⟨hroom, hafter₄⟩ := run_guarded_eq_some.mp hafter₄
    obtain ⟨asks, bs₅, hread₅, hdone⟩ := run_bind_eq_some.mp hafter₄
    obtain ⟨hasks, hbs₄⟩ := (readLevels_accepts _ _ _ _).mp hread₅
    obtain ⟨hrec, rfl⟩ := run_pure_eq_some.mp hdone
    obtain rfl := Option.some.inj hrec
    rw [hbs₄, List.length_append, length_levels] at hroom
    refine ⟨⟨by dsimp only; omega, by dsimp only; omega⟩, by omega, ?_⟩
    rw [hbs, hbs₁, hbs₂, hbs₃, hbs₄]
    simp [recordBytes, hbids, hasks]
  · rintro ⟨⟨hbids, hasks⟩, hrest, rfl⟩
    obtain ⟨symbol, bids, asks⟩ := rec
    have hnb := levelCount_toNat hbids
    have hna := levelCount_toNat hasks
    have hb := length_levels bids
    have ha := length_levels asks
    dsimp only at hbids hasks hnb hna
    -- each guard leaves the room for exactly what follows it
    have hcounts : behind + (symbolLen + 1) ≤ (recordBytes ⟨symbol, bids, asks⟩ ++ rest).length := by
      simp only [recordBytes, List.length_append, length_arrayBytes, length_u8Bytes]
      omega
    refine run_guarded_eq_some.mpr ⟨by omega, ?_⟩
    rw [recordBytes]
    dsimp only
    rw [List.append_assoc]
    refine run_bind_eq_some.mpr ⟨symbol, _, hsymbol.run trivial _, ?_⟩
    rw [List.append_assoc]
    refine run_bind_eq_some.mpr ⟨_, _, readU8_accepts.run trivial _, ?_⟩
    rw [hnb, if_neg (by omega), List.append_assoc, List.append_assoc]
    refine run_guarded_eq_some.mpr ⟨by simp only [List.length_append, length_u8Bytes, hb]; omega, ?_⟩
    refine run_bind_eq_some.mpr ⟨bids, _, (readLevels_accepts _).run rfl _, ?_⟩
    refine run_bind_eq_some.mpr ⟨_, _, readU8_accepts.run trivial _, ?_⟩
    rw [hna, if_neg (by omega)]
    refine run_guarded_eq_some.mpr ⟨by rw [List.length_append, ha]; omega, ?_⟩
    exact run_bind_eq_some.mpr ⟨asks, rest, (readLevels_accepts _).run rfl _, rfl⟩

theorem decodeRecord_safe (behind : ℕ) : Safe behind 0 (decodeRecord behind) := by
  apply Safe.guarded
  apply Safe.read (readArray_reads symbolLen)
  intro symbol
  refine Safe.read (k := 0) readU8_reads (fun nb => Safe.ite (.pure _) (Safe.guarded ?_ none))
  apply Safe.read (reads_many readLevel_reads nb.toNat)
  intro bids
  refine Safe.read (k := 0) readU8_reads (fun na => Safe.ite (.pure _) (Safe.guarded ?_ none))
  exact Safe.read (k := 0) (reads_many readLevel_reads na.toNat) (fun asks => .pure _)

theorem decodeRecords_complete {behind : ℕ} {bs rest : List UInt8} (hbs : behind ≤ bs.length) (n : ℕ)
    (acc recs : List BookSnapshotSymbol) : (decodeRecords behind n acc).run bs = some ((recs, true), rest) ↔
      ∃ new, recs = acc ++ new ∧ new.length = n ∧ (∀ rec ∈ new, rec.Bounded) ∧ behind ≤ rest.length ∧
        bs = new.flatMap recordBytes ++ rest := by
  induction n generalizing bs acc with
  | zero =>
    rw [decodeRecords, run_pure_eq_some, Prod.mk_inj]
    constructor
    · rintro ⟨⟨rfl, -⟩, rfl⟩
      exact ⟨[], by simp, rfl, by simp, hbs, rfl⟩
    · rintro ⟨new, rfl, hlen, -, -, rfl⟩
      obtain rfl := List.length_eq_zero_iff.mp hlen
      exact ⟨⟨by simp, rfl⟩, rfl⟩
  | succ n ih =>
    rw [decodeRecords, run_bind_eq_some]
    constructor
    · rintro ⟨_ | rec, mid, hrec, h⟩
      · cases h
      · obtain ⟨hbound, hmid, rfl⟩ := decodeRecord_some.mp hrec
        obtain ⟨new, rfl, rfl, hall, hrest, rfl⟩ := (ih hmid (acc ++ [rec])).mp h
        refine ⟨rec :: new, by simp, rfl, ?_, hrest, by simp⟩
        simpa using ⟨hbound, hall⟩
    · rintro ⟨new, rfl, hlen, hall, hrest, rfl⟩
      obtain ⟨rec, new, rfl⟩ := List.exists_cons_of_length_eq_add_one hlen
      have hmid : behind ≤ (new.flatMap recordBytes ++ rest).length := by
        rw [List.length_append]
        omega
      refine ⟨some rec, new.flatMap recordBytes ++ rest,
        decodeRecord_some.mpr ⟨hall rec (by simp), hmid, by simp⟩, ?_⟩
      exact (ih hmid _).mpr ⟨new, by simp, by simpa using hlen, fun r hr => hall r (by simp [hr]), hrest, rfl⟩

theorem decodeRecords_safe (behind n : ℕ) (acc : List BookSnapshotSymbol) :
    Safe behind 0 (decodeRecords behind n acc) := by
  induction n generalizing acc with
  | zero => exact .pure _
  | succ n ih =>
    apply (decodeRecord_safe behind).bind
    rintro (_ | rec)
    · exact .pure _
    · exact ih _

theorem decodeSnapshotFields_ok {behind : ℕ} {bs rest : List UInt8} {snap : BookSnapshot}
    (hbs : behind + 12 ≤ bs.length) :
    (∃ call, (decodeSnapshotFields behind).run bs = some ((call, snap, true), rest)) ↔
      snap.Bounded ∧ snap.symbols.length < 2 ^ 32 ∧ rest.length = behind ∧
        bs = snapshotFields snap ++ rest := by
  have hfields {sequence count mid}
      (hlen : bs = u64Bytes sequence ++ (u32Bytes count ++ mid)) : behind ≤ mid.length := by
    rw [hlen] at hbs
    simp only [u64Bytes, u32Bytes, List.length_append, length_toBytes] at hbs
    omega
  rw [decodeSnapshotFields]
  constructor
  · rintro ⟨call, h⟩
    obtain ⟨sequence, bs₁, hread₁, hafter₁⟩ := run_bind_eq_some.mp h
    obtain ⟨count, bs₂, hread₂, hafter⟩ := run_bind_eq_some.mp hafter₁
    obtain ⟨before, bs₂', hroom, hafter₂⟩ := run_bind_eq_some.mp hafter
    obtain ⟨-, rfl⟩ := Prod.mk_inj.mp (Option.some.inj hroom)
    obtain ⟨-, hbs₀⟩ := (readU64_accepts _ _ _).mp hread₁
    obtain ⟨-, hbs₁⟩ := (readU32_accepts _ _ _).mp hread₂
    obtain ⟨⟨symbols, complete⟩, bs₃, hread₃, hafter₃⟩ := run_bind_eq_some.mp hafter₂
    obtain ⟨left, bs₄, hread₄, hdone⟩ := run_bind_eq_some.mp hafter₃
    obtain ⟨hleft, rfl⟩ := Prod.mk_inj.mp (Option.some.inj hread₄)
    obtain ⟨hresult, rfl⟩ := run_pure_eq_some.mp hdone
    obtain ⟨-, hsnap⟩ := Prod.mk_inj.mp hresult
    obtain ⟨rfl, hok⟩ := Prod.mk_inj.mp hsnap
    obtain ⟨rfl, hend⟩ := Bool.and_eq_true_iff.mp hok
    have hzero := of_decide_eq_true hend
    rw [hbs₁] at hbs₀
    obtain ⟨new, hnew, hcount, hall, hrest, hbs₂⟩ := (decodeRecords_complete (hfields hbs₀) _ _ _).mp hread₃
    rw [List.nil_append] at hnew
    obtain rfl := hnew
    refine ⟨hall, hcount ▸ count.toNat_lt, by omega, ?_⟩
    rw [hbs₀, hbs₂]
    simp [snapshotFields, hcount]
  · rintro ⟨hall, hcount, hrest, rfl⟩
    have hn : (UInt32.ofNat snap.symbols.length).toNat = snap.symbols.length :=
      UInt32.toNat_ofNat_of_lt' hcount
    rw [snapshotFields, List.append_assoc, List.append_assoc] at hfields ⊢
    let left : ℤ := (snap.symbols.flatMap recordBytes ++ rest).length - behind
    refine ⟨⟨UInt32.ofNat snap.symbols.length, left⟩, ?_⟩
    refine run_bind_eq_some.mpr ⟨snap.sequence, _, readU64_accepts.run trivial _, ?_⟩
    refine run_bind_eq_some.mpr ⟨_, _, readU32_accepts.run trivial _, ?_⟩
    refine run_bind_eq_some.mpr ⟨left, _, rfl, ?_⟩
    refine run_bind_eq_some.mpr ⟨(snap.symbols, true), rest, ?_, ?_⟩
    · exact (decodeRecords_complete (hfields rfl) _ _ _).mpr ⟨snap.symbols, rfl, hn.symm, hall, hrest.ge, rfl⟩
    · refine run_bind_eq_some.mpr ⟨0, rest, ?_, rfl⟩
      rw [run_room, hrest, sub_self]

theorem decodeSnapshotFields_safe (behind : ℕ) : Safe behind 12 (decodeSnapshotFields behind) :=
  Safe.read readU64_reads fun _ => Safe.read (k := 0) readU32_reads fun _ =>
    Safe.room.bind fun _ => (decodeRecords_safe behind _ _).bind fun _ => Safe.room.bind fun _ => .pure _

/-- The length prefix of a frame. -/
def declaredLength (bytes : List UInt8) : ℕ := ofBytes (bytes.take 4)

theorem toNat_ofBytes_four (bytes : List UInt8) :
    (UInt32.ofNat (ofBytes (bytes.take 4))).toNat = ofBytes (bytes.take 4) := by
  apply UInt32.toNat_ofNat_of_lt'
  exact (ofBytes_lt _).trans_le (Nat.pow_le_pow_right (by norm_num) (List.length_take_le 4 bytes))

theorem run_readU32 {bs : List UInt8} (h : 4 ≤ bs.length) :
    readU32.run bs = some (UInt32.ofNat (ofBytes (bs.take 4)), bs.drop 4) := by
  refine (readU32_accepts _ _ (bs.drop 4)).mpr ⟨trivial, ?_⟩
  rw [u32Bytes, toNat_ofBytes_four, toBytes_ofBytes (List.length_take_of_le h), List.take_append_drop]

theorem readAt_readU32 {bytes : List UInt8} {off : ℕ} (h : off + 4 ≤ bytes.length) :
    readAt readU32 bytes off = some (UInt32.ofNat (ofBytes ((bytes.drop off).take 4))) :=
  readAt_run (run_readU32 (by rw [List.length_drop]; omega))

/-- What the decoder does with a frame whose length is right. -/
theorem decodeReserving_eq {bytes : List UInt8} {n : ℕ} (hn : declaredLength bytes = n) (hmin : 20 ≤ n)
    (hroom : 4 + n ≤ bytes.length) : decodeReserving bytes =
      if (bytes.drop 4).take 4 ≠ snapshotMagic then some (none, ⟨0, []⟩, false)
      else if UInt32.ofNat (ofBytes ((bytes.drop n).take 4)) ≠ crc32 ((bytes.drop 4).take (n - 4)) then
        some (none, ⟨0, []⟩, false)
      else (readAt (decodeSnapshotFields (bytes.length - n : ℕ)) bytes 8).map (fun x => (some x.1, x.2)) := by
  have hhead : (UInt32.ofNat (ofBytes ((bytes.drop 0).take 4))).toNat = n := by
    rw [toNat_ofBytes_four]
    exact hn
  have hcrc : 4 + n - 4 = n := by omega
  have hbehind : ((bytes.length - n : ℕ) : ℤ) = (bytes.length : ℤ) - n := by omega
  rw [decodeReserving, if_neg (by omega), readAt_readU32 (by omega), Option.bind_eq_bind, Option.bind_some]
  dsimp only
  rw [hhead, hcrc, if_neg (by omega), if_neg (by omega), readAt_takeBytes (by omega), readAt_readU32 (by omega),
    readAt_takeBytes (by omega), hbehind, Option.map_eq_bind]
  rfl

theorem decodeReserving_short {bytes : List UInt8} (h : bytes.length < 4 ∨ bytes.length < 4 + declaredLength bytes ∨
    declaredLength bytes < 20) : decodeReserving bytes = some (none, ⟨0, []⟩, false) := by
  rw [decodeReserving]
  split_ifs with hfour
  · rfl
  have hhead : (UInt32.ofNat (ofBytes ((bytes.drop 0).take 4))).toNat = declaredLength bytes :=
    toNat_ofBytes_four _
  rw [readAt_readU32 (by omega), Option.bind_eq_bind, Option.bind_some]
  dsimp only
  rw [hhead]
  by_cases hlong : bytes.length < 4 + declaredLength bytes
  · rw [if_pos hlong]
    rfl
  · rw [if_neg hlong, if_pos (by omega)]
    rfl

/-- The result without the call. -/
theorem decodeBookSnapshot_eq {bytes : List UInt8} {n : ℕ} (hn : declaredLength bytes = n) (hmin : 20 ≤ n)
    (hroom : 4 + n ≤ bytes.length) : decodeBookSnapshot bytes =
      if ((bytes.drop 4).take 4) ≠ snapshotMagic then some (⟨0, []⟩, false)
      else if UInt32.ofNat (ofBytes ((bytes.drop n).take 4)) ≠ crc32 ((bytes.drop 4).take (n - 4)) then some (⟨0, []⟩, false)
      else (readAt (decodeSnapshotFields (bytes.length - n : ℕ)) bytes 8).map Prod.snd := by
  rw [decodeBookSnapshot, decodeReserving_eq hn hmin hroom]
  split_ifs
  · rfl
  · rfl
  · rw [Option.map_map]
    rfl

theorem decodeBookSnapshot_short {bytes : List UInt8} (h : bytes.length < 4 ∨ bytes.length < 4 + declaredLength bytes ∨
    declaredLength bytes < 20) : decodeBookSnapshot bytes = some (⟨0, []⟩, false) := by
  rw [decodeBookSnapshot, decodeReserving_short h]
  rfl

theorem length_frameAround (covered : List UInt8) : (frameAround covered).length = covered.length + 8 := by
  simp only [frameAround, u32Bytes, List.length_append, length_toBytes]
  omega

/-- The parts of a buffer that starts with a frame. -/
theorem frameAround_parts {covered : List UInt8} (hlen : covered.length + 4 < 2 ^ 32) (t : List UInt8) :
    declaredLength (frameAround covered ++ t) = covered.length + 4 ∧
      (frameAround covered ++ t).drop 4 = covered ++ (u32Bytes (crc32 covered) ++ t) ∧
      (frameAround covered ++ t).drop (covered.length + 4) = u32Bytes (crc32 covered) ++ t := by
  have hbody : (covered ++ u32Bytes (crc32 covered)).length = covered.length + 4 := by
    rw [List.length_append, u32Bytes, length_toBytes]
  have hsplit : frameAround covered ++ t =
      u32Bytes (UInt32.ofNat (covered.length + 4)) ++ (covered ++ (u32Bytes (crc32 covered) ++ t)) := by
    rw [frameAround, hbody]
    simp only [List.append_assoc]
  have hfour : (u32Bytes (UInt32.ofNat (covered.length + 4))).length = 4 := by rw [u32Bytes, length_toBytes]
  have hdrop : (frameAround covered ++ t).drop 4 = covered ++ (u32Bytes (crc32 covered) ++ t) := by
    rw [hsplit, List.drop_left' hfour]
  refine ⟨?_, hdrop, ?_⟩
  · rw [declaredLength, hsplit, List.take_append_of_le_length hfour.ge,
      List.take_of_length_le hfour.le, u32Bytes,
      ofBytes_toBytes, UInt32.toNat_ofNat_of_lt' hlen]
    exact Nat.mod_eq_of_lt hlen
  · rw [Nat.add_comm, ← List.drop_drop, hdrop, List.drop_left]

theorem length_snapshotFields (snap : BookSnapshot) : 12 ≤ (snapshotFields snap).length := by
  simp only [snapshotFields, u64Bytes, u32Bytes, List.length_append, length_toBytes]
  omega

/-- A record takes ten bytes at least: its symbol and two level counts. -/
theorem length_records (recs : List BookSnapshotSymbol) :
    10 * recs.length ≤ (recs.flatMap recordBytes).length := by
  induction recs with
  | nil => rfl
  | cons rec recs ih =>
    rw [List.flatMap_cons, List.length_append, List.length_cons]
    simp only [recordBytes, u8Bytes, length_arrayBytes, symbolLen, List.length_append, List.length_cons]
    omega

theorem length_coveredBytes (snap : BookSnapshot) :
    (coveredBytes snap).length = 4 + (snapshotFields snap).length := by
  rw [coveredBytes, List.length_append]
  rfl

theorem stored_u32 (v : UInt32) (t : List UInt8) : UInt32.ofNat (ofBytes ((u32Bytes v ++ t).take 4)) = v := by
  rw [List.take_left' (by rw [u32Bytes, length_toBytes]), u32Bytes, ofBytes_toBytes,
    Nat.mod_eq_of_lt (show v.toNat < 256 ^ 4 from v.toNat_lt), UInt32.ofNat_toNat]

/-- A buffer is the frame around its covered bytes if its checksum is right. -/
theorem frameAround_of_parts {bytes covered : List UInt8} {n : ℕ} (hn : declaredLength bytes = n)
    (hmin : 20 ≤ n)
    (hroom : 4 + n ≤ bytes.length) (hcovered : covered = (bytes.drop 4).take (n - 4))
    (hcrc : UInt32.ofNat (ofBytes ((bytes.drop n).take 4)) = crc32 covered) :
    bytes = frameAround covered ++ bytes.drop (4 + n) := by
  have hsize : covered.length + 4 = n := by
    rw [hcovered, List.length_take_of_le (by rw [List.length_drop]; omega)]
    omega
  have hfour : (bytes.take 4).length = 4 := List.length_take_of_le (by omega)
  have hlimit : n < 2 ^ 32 := by
    have hlt := ofBytes_lt (bytes.take 4)
    rw [hfour] at hlt
    exact hn ▸ hlt
  have hhead : u32Bytes (UInt32.ofNat n) = bytes.take 4 := by
    rw [u32Bytes, UInt32.toNat_ofNat_of_lt' hlimit, ← hn, declaredLength, toBytes_ofBytes hfour]
  have hstored : u32Bytes (crc32 covered) = (bytes.drop n).take 4 := by
    rw [← hcrc, u32Bytes, toNat_ofBytes_four, toBytes_ofBytes]
    rw [List.length_take_of_le]
    rw [List.length_drop]
    omega
  have hbody : (covered ++ u32Bytes (crc32 covered)).length = n := by
    rw [List.length_append, u32Bytes, length_toBytes, hsize]
  have hfront : bytes.drop n = (bytes.drop 4).drop (n - 4) := by
    rw [List.drop_drop]
    congr 1
    omega
  have hback : bytes.drop (4 + n) = (bytes.drop n).drop 4 := by rw [List.drop_drop, Nat.add_comm]
  calc bytes = bytes.take 4 ++ ((bytes.drop 4).take (n - 4) ++ bytes.drop n) := by
        rw [hfront, List.take_append_drop, List.take_append_drop]
    _ = bytes.take 4 ++ (covered ++ ((bytes.drop n).take 4 ++ bytes.drop (4 + n))) := by
        rw [← hcovered, hback, List.take_append_drop]
    _ = frameAround covered ++ bytes.drop (4 + n) := by
        rw [frameAround, hbody, hhead, hstored]
        simp only [List.append_assoc]

theorem encode_of_decode {bytes : List UInt8} {snap : BookSnapshot}
    (h : decodeBookSnapshot bytes = some (snap, true)) :
    snap.Bounded ∧ (coveredBytes snap).length + 4 = declaredLength bytes ∧
      bytes = encodeBookSnapshot snap ++ bytes.drop (4 + declaredLength bytes) := by
  have hframe : 4 ≤ bytes.length ∧ 4 + declaredLength bytes ≤ bytes.length ∧ 20 ≤ declaredLength bytes := by
    by_contra hshort
    rw [decodeBookSnapshot_short (by omega)] at h
    cases h
  obtain ⟨hfour, hroom, hmin⟩ := hframe
  obtain ⟨n, hn⟩ : ∃ n, declaredLength bytes = n := ⟨_, rfl⟩
  rw [hn] at hroom hmin ⊢
  rw [decodeBookSnapshot_eq hn hmin hroom] at h
  split_ifs at h with hmagic hcrc
  · cases h
  · cases h
  obtain ⟨⟨call, result⟩, hread, hresult⟩ := Option.map_eq_some_iff.mp h
  obtain ⟨rest, hrun⟩ := readAt_eq_some hread
  dsimp only at hresult
  subst hresult
  have hbehind : bytes.length - n + 12 ≤ (bytes.drop 8).length := by
    rw [List.length_drop]
    omega
  obtain ⟨hbound, -, hrest, hfields⟩ := (decodeSnapshotFields_ok hbehind).mp ⟨call, hrun⟩
  -- the fields end where the stored checksum starts
  have hlen := congrArg List.length hfields
  rw [List.length_append, List.length_drop] at hlen
  have hcovered : coveredBytes snap = (bytes.drop 4).take (n - 4) := by
    have hsplit : n - 4 = 4 + (snapshotFields snap).length := by omega
    rw [coveredBytes, hsplit, List.take_add, not_not.mp hmagic, List.drop_drop, hfields, List.take_left]
  have hsize := length_coveredBytes snap
  exact ⟨hbound, by omega, frameAround_of_parts hn hmin hroom hcovered (hcovered ▸ not_not.mp hcrc)⟩

theorem decode_of_encode {snap : BookSnapshot} (hbound : snap.Bounded)
    (hlimit : (coveredBytes snap).length + 4 < 2 ^ 32)
    (t : List UInt8) : decodeBookSnapshot (encodeBookSnapshot snap ++ t) = some (snap, true) := by
  have hmin := length_snapshotFields snap
  have hcovered := length_coveredBytes snap
  have hsize := length_frameAround (coveredBytes snap)
  rw [encodeBookSnapshot]
  obtain ⟨hn, hdrop, hcrc⟩ := frameAround_parts hlimit t
  rw [decodeBookSnapshot_eq hn (by omega) (by rw [List.length_append]; omega), hdrop, hcrc, stored_u32,
    Nat.add_sub_cancel, List.take_left]
  have hmagic : (coveredBytes snap ++ (u32Bytes (crc32 (coveredBytes snap)) ++ t)).take 4 =
    snapshotMagic := rfl
  rw [hmagic, if_neg (by simp), if_neg (by simp)]
  have hfields : (frameAround (coveredBytes snap) ++ t).drop 8 =
      snapshotFields snap ++ (u32Bytes (crc32 (coveredBytes snap)) ++ t) := by
    rw [show 8 = 4 + 4 from rfl, ← List.drop_drop, hdrop]
    rfl
  have hcount : snap.symbols.length < 2 ^ 32 := by
    have hrecords := length_records snap.symbols
    simp only [snapshotFields, List.length_append] at hcovered
    omega
  have hroom : (frameAround (coveredBytes snap) ++ t).length - ((coveredBytes snap).length + 4) + 12 ≤
      ((frameAround (coveredBytes snap) ++ t).drop 8).length := by
    rw [List.length_drop, List.length_append, hsize]
    omega
  obtain ⟨call, hrun⟩ := (decodeSnapshotFields_ok hroom).mpr ⟨hbound, hcount, by
    simp only [List.length_append, hsize, u32Bytes, length_toBytes]
    omega, hfields⟩
  rw [readAt_run hrun]
  rfl

theorem decodeRecord_local : Local (fun behind => decodeRecord behind) := by
  refine Local.guarded (Local.bind (.accepts (readArray_accepts symbolLen)) fun symbol => ?_) _ _
  refine Local.bind (.accepts readU8_accepts) fun nb => Local.ite (.pure _) (Local.guarded ?_ _ _)
  refine Local.bind (.accepts (readLevels_accepts _)) fun bids => ?_
  refine Local.bind (.accepts readU8_accepts) fun na => Local.ite (.pure _) (Local.guarded ?_ _ _)
  exact Local.bind (.accepts (readLevels_accepts _)) fun asks => .pure _

theorem decodeRecords_local (n : ℕ) (acc : List BookSnapshotSymbol) :
    Local (fun behind => decodeRecords behind n acc) := by
  induction n generalizing acc with
  | zero => exact .pure _
  | succ n ih =>
    apply decodeRecord_local.bind
    rintro (_ | rec)
    · exact .pure _
    · exact ih _

theorem decodeSnapshotFields_local : Local (fun behind => decodeSnapshotFields behind) :=
  Local.bind (.accepts readU64_accepts) fun _ => Local.bind (.accepts readU32_accepts) fun _ =>
    Local.room.bind fun _ => (decodeRecords_local _ _).bind fun _ => Local.room.bind fun _ => .pure _

/-- A part of the frame is a part of its buffer. -/
theorem take_drop_take {bytes : List UInt8} {off k n : ℕ} (h : off + k ≤ n) :
    ((bytes.take n).drop off).take k = (bytes.drop off).take k := by
  rw [List.drop_take, List.take_take, Nat.min_eq_left (by omega)]

/-- The decoder reads nothing outside the buffer and nothing behind its frame. -/
theorem decodeBookSnapshot_inside (bytes : List UInt8) : ∃ r, decodeBookSnapshot bytes = some r ∧
    decodeBookSnapshot (bytes.take (4 + declaredLength bytes)) = some r := by
  obtain ⟨n, hn⟩ : ∃ n, declaredLength bytes = n := ⟨_, rfl⟩
  rw [hn]
  have hn' : declaredLength (bytes.take (4 + n)) = n := by
    rw [declaredLength, List.take_take, Nat.min_eq_left (by omega)]
    exact hn
  by_cases hshort : bytes.length < 4 ∨ bytes.length < 4 + n ∨ n < 20
  · refine ⟨_, decodeBookSnapshot_short (by rwa [hn]), decodeBookSnapshot_short ?_⟩
    rw [hn', List.length_take]
    omega
  · obtain ⟨hroom, hmin⟩ : 4 + n ≤ bytes.length ∧ 20 ≤ n := by omega
    have hlen : (bytes.take (4 + n)).length = 4 + n := List.length_take_of_le hroom
    rw [decodeBookSnapshot_eq hn hmin hroom, decodeBookSnapshot_eq hn' hmin hlen.ge, hlen, Nat.add_sub_cancel,
      take_drop_take (by omega), take_drop_take (by omega), take_drop_take (by omega)]
    -- the fields read the same in the frame alone as in front of the other bytes
    obtain ⟨r, rest, hrun, -⟩ := decodeSnapshotFields_safe 4 ((bytes.take (4 + n)).drop 8)
      (by rw [List.length_drop, hlen]; omega)
    have hwhole := decodeSnapshotFields_local 4 _ _ _ (bytes.drop (4 + n)) hrun
    have hbehind : 4 + (bytes.drop (4 + n)).length = bytes.length - n := by
      rw [List.length_drop]
      omega
    rw [hbehind, ← List.drop_append_of_le_length (by omega), List.take_append_drop] at hwhole
    split_ifs
    · exact ⟨_, rfl, rfl⟩
    · exact ⟨_, rfl, rfl⟩
    · exact ⟨r.2, by rw [readAt_run hwhole]; rfl, by rw [readAt_run hrun]; rfl⟩

theorem captureBookSnapshot_bounded (book : DepthBook) (order : List Symbol) (sequence : UInt64) :
    (captureBookSnapshot book order sequence).Bounded := by
  intro rec hrec
  obtain ⟨sym, -, hsym⟩ := List.mem_filterMap.mp hrec
  obtain ⟨sb, -, rfl⟩ := Option.map_eq_some_iff.mp hsym
  exact ⟨List.length_take_le _ _, List.length_take_le _ _⟩

/-- Decoder and encoder are inverse to each other: on bounded snapshots, captured
ones among them, and on accepted buffers; all reads of the decoder lie in its frame. -/
theorem book_snapshot_bijection :
    (∀ (snap : BookSnapshot) (t : List UInt8), snap.Bounded → (coveredBytes snap).length + 4 < 2 ^ 32 →
      decodeBookSnapshot (encodeBookSnapshot snap ++ t) = some (snap, true)) ∧
    (∀ (book : DepthBook) (order : List Symbol) (sequence : UInt64) (t : List UInt8),
      let snap := captureBookSnapshot book order sequence
      (coveredBytes snap).length + 4 < 2 ^ 32 →
        decodeBookSnapshot (encodeBookSnapshot snap ++ t) = some (snap, true)) ∧
    (∀ (bytes : List UInt8) (snap : BookSnapshot), decodeBookSnapshot bytes = some (snap, true) →
      4 + declaredLength bytes ≤ bytes.length ∧
        encodeBookSnapshot snap = bytes.take (4 + declaredLength bytes)) ∧
    (∀ bytes : List UInt8, ∃ r, decodeBookSnapshot bytes = some r ∧
      decodeBookSnapshot (bytes.take (4 + declaredLength bytes)) = some r) := by
  refine ⟨fun snap t hbound hlimit => decode_of_encode hbound hlimit t, ?_, ?_, decodeBookSnapshot_inside⟩
  · intro book order sequence t snap hlimit
    exact decode_of_encode (captureBookSnapshot_bounded book order sequence) hlimit t
  · intro bytes snap h
    obtain ⟨-, hsize, hbytes⟩ := encode_of_decode h
    have hlen := length_frameAround (coveredBytes snap)
    generalize declaredLength bytes = n at hsize hbytes ⊢
    have hfront : (encodeBookSnapshot snap).length = 4 + n := by
      rw [encodeBookSnapshot]
      omega
    constructor
    · rw [hbytes, List.length_append]
      omega
    · conv_rhs => rw [hbytes]
      rw [List.take_left' hfront]

/-- A snapshot of one symbol in front of another byte. -/
theorem one_symbol_round_trip :
    let snap : BookSnapshot := ⟨7, [⟨makeSymbol [0x41], [⟨100, 5, 1⟩], []⟩]⟩
    let bytes := encodeBookSnapshot snap ++ [9]
    decodeBookSnapshot bytes = some (snap, true) ∧
      encodeBookSnapshot snap = bytes.take (4 + declaredLength bytes) := by
  intro snap bytes
  have h := book_snapshot_bijection.1 snap [9]
    (by simp [BookSnapshot.Bounded, BookSnapshotSymbol.Bounded, snap]) (by decide)
  exact ⟨h, (book_snapshot_bijection.2.2.1 bytes snap h).2⟩

end MdfeedItch
