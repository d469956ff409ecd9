import MdfeedItch.FrameEncoder

/-! # Encoder and decoder are inverse to each other

Every reader of the decoder accepts exactly the bytes that the encoder writes for
the same field, hence every arm of the `switch` the bytes of its message. The one
layout whose fields do not fill its frame is the stock directory. -/
namespace MdfeedItch
open ByteCursor ByteLayout

theorem readU8_accepts : Accepts readU8 (fun _ => True) u8Bytes := by
  have h := (takeWord_accepts 1).map (Q := fun _ => True) UInt8.ofNat UInt8.toNat
    (fun v hv => ⟨trivial, UInt8.toNat_ofNat_of_lt' hv⟩) (fun v _ => ⟨v.toNat_lt, UInt8.ofNat_toNat⟩)
  have hbytes : (fun v : UInt8 => toBytes 1 v.toNat) = u8Bytes := by
    funext v
    simp [toBytes, u8Bytes]
  rwa [hbytes] at h

theorem readU16_accepts : Accepts readU16 (fun _ => True) u16Bytes :=
  (takeWord_accepts 2).map UInt16.ofNat UInt16.toNat (fun _ hv => ⟨trivial, UInt16.toNat_ofNat_of_lt' hv⟩)
    (fun v _ => ⟨v.toNat_lt, UInt16.ofNat_toNat⟩)

theorem readU32_accepts : Accepts readU32 (fun _ => True) u32Bytes :=
  (takeWord_accepts 4).map UInt32.ofNat UInt32.toNat (fun _ hv => ⟨trivial, UInt32.toNat_ofNat_of_lt' hv⟩)
    (fun v _ => ⟨v.toNat_lt, UInt32.ofNat_toNat⟩)

theorem readU64_accepts : Accepts readU64 (fun _ => True) u64Bytes :=
  (takeWord_accepts 8).map UInt64.ofNat UInt64.toNat (fun _ hv => ⟨trivial, UInt64.toNat_ofNat_of_lt' hv⟩)
    (fun v _ => ⟨v.toNat_lt, UInt64.ofNat_toNat⟩)

/-- A timestamp read from six bytes fits in them. -/
theorem readU48_accepts : Accepts readU48 (fun v => v.toNat < 2 ^ 48) u48Bytes := by
  refine (takeWord_accepts 6).map UInt64.ofNat UInt64.toNat (fun v hv => ?_)
    (fun v hv => ⟨hv, UInt64.ofNat_toNat⟩)
  have hsmall : (UInt64.ofNat v).toNat = v := UInt64.toNat_ofNat_of_lt' (hv.trans (by norm_num))
  exact ⟨by rw [hsmall]; exact hv, hsmall⟩

theorem readArray_accepts (n : ℕ) : Accepts (readArray n) (fun _ => True) arrayBytes := by
  refine (takeBytes_accepts n).map _ Vector.toList (fun bs hbs => ⟨trivial, ?_⟩)
    (fun v _ => ⟨Vector.length_toList, ?_⟩)
  · subst hbs
    apply List.ext_getElem
    · simp
    · intro i _ hi
      simp
  · ext i hi
    simp

theorem readSide_accepts : Accepts readSide (fun _ => True) (fun s => u8Bytes s.code) :=
  readU8_accepts.map Side.mk Side.code (fun _ _ => ⟨trivial, rfl⟩) (fun _ _ => ⟨trivial, rfl⟩)

/-- The bytes behind the type byte. -/
def bodyBytes (msg : AnyMessage) : List UInt8 := fieldBytes ((frameFields msg).drop 2)

theorem frameBytes_eq (msg : AnyMessage) :
    frameBytes msg = u16Bytes (UInt16.ofNat msg.type.wireSize) ++ (msg.type.code :: bodyBytes msg) := by
  simp [frameBytes, bodyBytes, frameFields, headerFields, fieldBytes, u8Bytes]

theorem bodyBytes_eq (msg : AnyMessage) : bodyBytes msg = u16Bytes msg.stockLocate ++
    (u16Bytes msg.trackingNumber ++ (u48Bytes msg.ts ++ fieldBytes (bodyFields msg))) := by
  simp [bodyBytes, frameFields, headerFields, fieldBytes]

/-- A decoder of messages that fit a wire timestamp reads what the encoder writes. -/
def Inverts {α : Type} (c : Cursor α) (f : α → AnyMessage) : Prop :=
  Accepts c (fun m => (f m).ts.toNat < 2 ^ 48) (fun m => bodyBytes (f m))

theorem decodeSystemEvent_inverts : Inverts decodeSystemEvent .systemEvent := by
  have h : Accepts decodeSystemEvent _ _ :=
    readU16_accepts.field SystemEventMsg.stockLocate (K := fun _ => True) fun _ =>
    readU16_accepts.field SystemEventMsg.trackingNumber fun _ =>
    readU48_accepts.field SystemEventMsg.ts fun _ =>
    readU8_accepts.field SystemEventMsg.eventCode fun _ => .done (by rintro ⟨⟩; simp; tauto)
  exact h.congr (by simp) (by simp [bodyBytes_eq, bodyFields, fieldBytes])

theorem decodeStockDirectory_inverts : Inverts decodeStockDirectory .stockDirectory := by
  have h : Accepts decodeStockDirectory _ _ :=
    readU16_accepts.field StockDirectoryMsg.stockLocate (K := fun _ => True) fun _ =>
    readU16_accepts.field StockDirectoryMsg.trackingNumber fun _ =>
    readU48_accepts.field StockDirectoryMsg.ts fun _ =>
    (readArray_accepts symbolLen).field StockDirectoryMsg.symbol fun _ =>
    readU8_accepts.field StockDirectoryMsg.marketCategory fun _ =>
    readU8_accepts.field StockDirectoryMsg.financialStatus fun _ =>
    readU32_accepts.field StockDirectoryMsg.roundLotSize fun _ => .done (by rintro ⟨⟩; simp; tauto)
  exact h.congr (by simp) (by simp [bodyBytes_eq, bodyFields, fieldBytes])

theorem decodeAddOrder_inverts : Inverts decodeAddOrder .addOrder := by
  have h : Accepts decodeAddOrder _ _ :=
    readU16_accepts.field AddOrderMsg.stockLocate (K := fun _ => True) fun _ =>
    readU16_accepts.field AddOrderMsg.trackingNumber fun _ =>
    readU48_accepts.field AddOrderMsg.ts fun _ =>
    readU64_accepts.field AddOrderMsg.orderId fun _ =>
    readSide_accepts.field AddOrderMsg.side fun _ =>
    readU32_accepts.field AddOrderMsg.shares fun _ =>
    (readArray_accepts symbolLen).field AddOrderMsg.symbol fun _ =>
    readU32_accepts.field AddOrderMsg.price fun _ => .done (by rintro ⟨⟩; simp; tauto)
  exact h.congr (by simp) (by simp [bodyBytes_eq, bodyFields, addOrderFields, fieldBytes])

theorem decodeAddOrderMPID_inverts : Inverts decodeAddOrderMPID .addOrderMPID := by
  have h : Accepts decodeAddOrderMPID _ _ :=
    decodeAddOrder_inverts.field AddOrderMPIDMsg.base (K := fun _ => True) fun _ =>
    (readArray_accepts 4).field AddOrderMPIDMsg.attribution fun _ => .done (by rintro ⟨⟩; simp; tauto)
  exact h.congr (by simp) (by simp [bodyBytes_eq, bodyFields, addOrderFields, fieldBytes])

theorem decodeOrderExecuted_inverts : Inverts decodeOrderExecuted .orderExecuted := by
  have h : Accepts decodeOrderExecuted _ _ :=
    readU16_accepts.field OrderExecutedMsg.stockLocate (K := fun _ => True) fun _ =>
    readU16_accepts.field OrderExecutedMsg.trackingNumber fun _ =>
    readU48_accepts.field OrderExecutedMsg.ts fun _ =>
    readU64_accepts.field OrderExecutedMsg.orderId fun _ =>
    readU32_accepts.field OrderExecutedMsg.executedShares fun _ =>
    readU64_accepts.field OrderExecutedMsg.matchNumber fun _ => .done (by rintro ⟨⟩; simp; tauto)
  exact h.congr (by simp) (by simp [bodyBytes_eq, bodyFields, orderExecutedFields, fieldBytes])

theorem decodeOrderExecutedWithPrice_inverts : Inverts decodeOrderExecutedWithPrice .orderExecutedWithPrice := by
  have h : Accepts decodeOrderExecutedWithPrice _ _ :=
    decodeOrderExecuted_inverts.field OrderExecutedWithPriceMsg.base (K := fun _ => True) fun _ =>
    readU8_accepts.field OrderExecutedWithPriceMsg.printable fun _ =>
    readU32_accepts.field OrderExecutedWithPriceMsg.executionPrice fun _ => .done (by rintro ⟨⟩; simp; tauto)
  exact h.congr (by simp) (by simp [bodyBytes_eq, bodyFields, orderExecutedFields, fieldBytes])

theorem decodeOrderCancel_inverts : Inverts decodeOrderCancel .orderCancel := by
  have h : Accepts decodeOrderCancel _ _ :=
    readU16_accepts.field OrderCancelMsg.stockLocate (K := fun _ => True) fun _ =>
    readU16_accepts.field OrderCancelMsg.trackingNumber fun _ =>
    readU48_accepts.field OrderCancelMsg.ts fun _ =>
    readU64_accepts.field OrderCancelMsg.orderId fun _ =>
    readU32_accepts.field OrderCancelMsg.canceledShares fun _ => .done (by rintro ⟨⟩; simp; tauto)
  exact h.congr (by simp) (by simp [bodyBytes_eq, bodyFields, fieldBytes])

theorem decodeOrderDelete_inverts : Inverts decodeOrderDelete .orderDelete := by
  have h : Accepts decodeOrderDelete _ _ :=
    readU16_accepts.field OrderDeleteMsg.stockLocate (K := fun _ => True) fun _ =>
    readU16_accepts.field OrderDeleteMsg.trackingNumber fun _ =>
    readU48_accepts.field OrderDeleteMsg.ts fun _ =>
    readU64_accepts.field OrderDeleteMsg.orderId fun _ => .done (by rintro ⟨⟩; simp; tauto)
  exact h.congr (by simp) (by simp [bodyBytes_eq, bodyFields, fieldBytes])

theorem decodeOrderReplace_inverts : Inverts decodeOrderReplace .orderReplace := by
  have h : Accepts decodeOrderReplace _ _ :=
    readU16_accepts.field OrderReplaceMsg.stockLocate (K := fun _ => True) fun _ =>
    readU16_accepts.field OrderReplaceMsg.trackingNumber fun _ =>
    readU48_accepts.field OrderReplaceMsg.ts fun _ =>
    readU64_accepts.field OrderReplaceMsg.originalOrderId fun _ =>
    readU64_accepts.field OrderReplaceMsg.newOrderId fun _ =>
    readU32_accepts.field OrderReplaceMsg.shares fun _ =>
    readU32_accepts.field OrderReplaceMsg.price fun _ => .done (by rintro ⟨⟩; simp; tauto)
  exact h.congr (by simp) (by simp [bodyBytes_eq, bodyFields, fieldBytes])

theorem decodeTrade_inverts : Inverts decodeTrade .trade := by
  have h : Accepts decodeTrade _ _ :=
    readU16_accepts.field TradeMsg.stockLocate (K := fun _ => True) fun _ =>
    readU16_accepts.field TradeMsg.trackingNumber fun _ =>
    readU48_accepts.field TradeMsg.ts fun _ =>
    readU64_accepts.field TradeMsg.orderId fun _ =>
    readSide_accepts.field TradeMsg.side fun _ =>
    readU32_accepts.field TradeMsg.shares fun _ =>
    (readArray_accepts symbolLen).field TradeMsg.symbol fun _ =>
    readU32_accepts.field TradeMsg.price fun _ =>
    readU64_accepts.field TradeMsg.matchNumber fun _ => .done (by rintro ⟨⟩; simp; tauto)
  exact h.congr (by simp) (by simp [bodyBytes_eq, bodyFields, fieldBytes])

/-- Every arm of the `switch` reads back the bytes of the messages of its type, and no others. -/
theorem decodeBody_accepts (t : MessageType) :
    Accepts (decodeBody t) (fun m => m.type = t ∧ m.ts.toNat < 2 ^ 48) bodyBytes := by
  have only : ∀ {α : Type} {f : α → AnyMessage} {c : Cursor α}, Inverts c f →
    (∀ m, m.type = t ↔ ∃ a, f a = m) →
      Accepts (f <$> c) (fun m => m.type = t ∧ m.ts.toNat < 2 ^ 48) bodyBytes := by
    intro α f c hc hf
    refine Accepts.variant hc (fun m => ?_)
    rw [hf]
    constructor
    · rintro ⟨⟨a, rfl⟩, hts⟩
      exact ⟨a, rfl, hts⟩
    · rintro ⟨a, rfl, hts⟩
      exact ⟨⟨a, rfl⟩, hts⟩
  cases t with
  | systemEvent => exact only decodeSystemEvent_inverts (by rintro ⟨⟩ <;> simp)
  | stockDirectory => exact only decodeStockDirectory_inverts (by rintro ⟨⟩ <;> simp)
  | addOrder => exact only decodeAddOrder_inverts (by rintro ⟨⟩ <;> simp)
  | addOrderMPID => exact only decodeAddOrderMPID_inverts (by rintro ⟨⟩ <;> simp)
  | orderExecuted => exact only decodeOrderExecuted_inverts (by rintro ⟨⟩ <;> simp)
  | orderExecutedWithPrice => exact only decodeOrderExecutedWithPrice_inverts (by rintro ⟨⟩ <;> simp)
  | orderCancel => exact only decodeOrderCancel_inverts (by rintro ⟨⟩ <;> simp)
  | orderDelete => exact only decodeOrderDelete_inverts (by rintro ⟨⟩ <;> simp)
  | orderReplace => exact only decodeOrderReplace_inverts (by rintro ⟨⟩ <;> simp)
  | trade => exact only decodeTrade_inverts (by rintro ⟨⟩ <;> simp)

end MdfeedItch
