import MdfeedItch.FlatOrderMap
import MdfeedItch.FrameStream
import MdfeedItch.MessageGenerator

/-! # What one call of the generator does

The five vectors of live orders are the columns of one table. `Changes` says which
message a call can choose for a table and which table it leaves: a new row, or one
row reduced, removed or renamed. -/
namespace MdfeedItch
open Std FiniteMapSums ByteCursor ByteLayout FeedHandler MessageGenerator

/-- One row of the vectors, with the symbol of its locate. -/
structure LiveOrder extends FlatOrder where
  id : OrderId
  loc : StockLocate
  deriving DecidableEq, Repr

/-- The vectors are the columns of a table. -/
structure Tabulates (g : MessageGenerator) (live : List LiveOrder) : Prop where
  orders : g.liveOrders = live.map (fun o => o.id)
  prices : g.livePrices = live.map (fun o => o.price)
  qtys : g.liveQtys = live.map (fun o => o.qty)
  sides : g.liveSides = live.map (fun o => o.side)
  locs : g.liveLocs = live.map (fun o => o.loc)

/-- What a row leaves when shares are taken off it. -/
def LiveOrder.reduced (o : LiveOrder) (shares : Quantity) : List LiveOrder :=
  if o.qty ≤ shares then [] else [{ o with qty := o.qty - shares }]

/-- The choices of a call: message, table and next order id after it. -/
inductive Changes (live : List LiveOrder) (next : OrderId) (loc : StockLocate) (sym : Symbol) :
    AnyMessage → List LiveOrder → OrderId → Prop
  | add (o : RestingOrder) (hqty : o.qty ≠ 0) :
      Changes live next loc sym (.addOrder ⟨loc, 0, next, next, o.side, o.qty, sym, o.price⟩)
        (live ++ [⟨⟨o, sym⟩, next, loc⟩]) (next + 1)
  | cancel {front o back} (shares : Quantity) (hlive : live = front ++ o :: back) (hle : shares ≤ o.qty) :
      Changes live next loc sym (.orderCancel ⟨o.loc, 0, next, o.id, shares⟩)
        (front ++ (o.reduced shares ++ back)) (next + 1)
  | execute {front o back} (shares : Quantity) (hlive : live = front ++ o :: back) (hle : shares ≤ o.qty) :
      Changes live next loc sym (.orderExecuted ⟨o.loc, 0, next, o.id, shares, next + 1⟩)
        (front ++ (o.reduced shares ++ back)) (next + 1)
  | delete {front o back} (hlive : live = front ++ o :: back) :
      Changes live next loc sym (.orderDelete ⟨o.loc, 0, next, o.id⟩) (front ++ back) (next + 1)
  | replace {front o back} (price : Price) (shares : Quantity) (hlive : live = front ++ o :: back)
    (hshares : shares ≠ 0) :
      Changes live next loc sym (.orderReplace ⟨o.loc, 0, next, o.id, next + 1, shares, price⟩)
        (front ++ { o with price := price, qty := shares, id := next + 1 } :: back) (next + 1 + 1)

namespace Tabulates
variable {g : MessageGenerator} {live front back : List LiveOrder} {o : LiveOrder} {oi : ℕ}

/-- The row at an index, in all five vectors. -/
theorem row (h : Tabulates g live) (hlive : live = front ++ o :: back) (hoi : front.length = oi) :
    g.liveOrders[oi]? = some o.id ∧ g.livePrices[oi]? = some o.price ∧ g.liveQtys[oi]? = some o.qty ∧
      g.liveSides[oi]? = some o.side ∧ g.liveLocs[oi]? = some o.loc := by
  rw [h.orders, h.prices, h.qtys, h.sides, h.locs, hlive, ← hoi]
  simp

theorem erase (h : Tabulates g live) (hlive : live = front ++ o :: back) (hoi : front.length = oi) :
    Tabulates (g.eraseLive oi) (front ++ back) := by
  subst hoi
  have hcut {β : Type} (f : LiveOrder → β) :
      ((live.map f).eraseIdx front.length) = (front ++ back).map f := by
    rw [hlive, List.map_append, List.map_cons, List.eraseIdx_append_of_length_le (by simp)]
    simp
  refine ⟨?_, ?_, ?_, ?_, ?_⟩ <;>
    simp only [eraseLive, h.orders, h.prices, h.qtys, h.sides, h.locs, hcut]

theorem column {β : Type} (f : LiveOrder → β) (o' : LiveOrder) (hlive : live = front ++ o :: back)
    (hoi : front.length = oi) :
    (live.map f).set oi (f o') = (front ++ o' :: back).map f := by
  subst hlive hoi
  simp

end Tabulates

/-- An index into the table splits it. -/
theorem exists_row {live : List LiveOrder} {oi : ℕ} (h : oi < live.length) :
    ∃ front o back, live = front ++ o :: back ∧ front.length = oi :=
  ⟨live.take oi, live[oi], live.drop (oi + 1), by simp, List.length_take_of_le (Nat.le_of_lt h)⟩

/-- A choice with what it leaves alone. -/
structure StepsTo (g : MessageGenerator) (live : List LiveOrder) (loc : StockLocate) (sym : Symbol)
    (msg : AnyMessage)
    (g' : MessageGenerator) (live' : List LiveOrder) : Prop where
  changes : Changes live g.nextOrderId loc sym msg live' g'.nextOrderId
  table : Tabulates g' live'
  symbols : g'.symbols = g.symbols
  nextSeq : g'.nextSeq = g.nextSeq
  baseLocate : g'.baseLocate = g.baseLocate

theorem ofNat_uniform {lo hi raw : ℕ} (h : lo ≤ hi) (hhi : hi < 2 ^ 32) :
    lo ≤ (UInt32.ofNat (uniform lo hi raw)).toNat ∧ (UInt32.ofNat (uniform lo hi raw)).toNat ≤ hi := by
  have hbounds := uniform_bounds h raw
  rwa [UInt32.toNat_ofNat_of_lt' (show uniform lo hi raw < 2 ^ 32 by omega)]

theorem drawn_shares_ne_zero (raw : ℕ) : UInt32.ofNat (uniform 100 1000 raw) ≠ 0 := by
  intro hzero
  have hdrawn : 100 ≤ (UInt32.ofNat (uniform 100 1000 raw)).toNat :=
    (ofNat_uniform (by norm_num) (by norm_num)).1
  rw [hzero] at hdrawn
  exact absurd hdrawn (by decide)

/-- A drawn part of a live quantity is not more than it. -/
theorem drawn_part_le {live : Quantity} (hlive : live ≠ 0) (raw : ℕ) :
    UInt32.ofNat (uniform 1 (max 1 live).toNat raw) ≤ live := by
  have hone : 1 ≤ live := by
    rw [UInt32.le_iff_toNat_le]
    have hne : live.toNat ≠ 0 := fun h => hlive (UInt32.toNat_inj.mp h)
    show 1 ≤ live.toNat
    omega
  have hmax : max 1 live = live := if_pos hone
  rw [hmax, UInt32.le_iff_toNat_le]
  exact (ofNat_uniform (UInt32.le_iff_toNat_le.mp hone) live.toNat_lt).2

section Choices
variable {g : MessageGenerator} {live front back : List LiveOrder} {o : LiveOrder} {oi : ℕ}

theorem add_steps (h : Tabulates g live) (c : Draws) (loc : StockLocate) (sym : Symbol) :
    ∃ live', StepsTo g live loc sym (g.add c loc sym).1 (g.add c loc sym).2 live' := by
  let o : RestingOrder := ⟨if uniform 0 1 c.side = 0 then Side.buy else Side.sell,
    UInt32.ofNat (uniform 100000 200000 c.price),
    UInt32.ofNat (uniform 100 1000 c.shares)⟩
  refine ⟨live ++ [⟨⟨o, sym⟩, g.nextOrderId, loc⟩], .add o (drawn_shares_ne_zero c.shares), ?_, rfl, rfl, rfl⟩
  refine ⟨?_, ?_, ?_, ?_, ?_⟩
  all_goals
    simp only [MessageGenerator.add, takeId, h.orders, h.prices, h.qtys, h.sides, h.locs, List.map_append,
      List.map_cons, List.map_nil, o]

/-- A table whose row changed only in its shares. -/
theorem resized_table (h : Tabulates g live) (hlive : live = front ++ o :: back) (hoi : front.length = oi)
    (qty : Quantity) :
    Tabulates { g with liveQtys := g.liveQtys.set oi qty } (front ++ { o with qty := qty } :: back) := by
  have hqty : g.liveQtys.set oi qty = (front ++ { o with qty := qty } :: back).map (fun o => o.qty) := by
    rw [h.qtys]
    exact Tabulates.column (fun o => o.qty) { o with qty := qty } hlive hoi
  refine ⟨?_, ?_, hqty, ?_, ?_⟩
  · simp [h.orders, hlive]
  · simp [h.prices, hlive]
  · simp [h.sides, hlive]
  · simp [h.locs, hlive]

/-- Shares leave a row; the last one takes it along. -/
def withdrawLive (g : MessageGenerator) (oi : ℕ) (live shares : Quantity) : MessageGenerator :=
  if live ≤ shares then g.eraseLive oi else { g with liveQtys := g.liveQtys.set oi (live - shares) }

theorem withdrawLive_table (h : Tabulates g live) (hlive : live = front ++ o :: back)
    (hoi : front.length = oi) (shares : Quantity) :
    Tabulates (withdrawLive g oi o.qty shares) (front ++ (o.reduced shares ++ back)) := by
  rw [withdrawLive, LiveOrder.reduced]
  split_ifs
  · exact h.erase hlive hoi
  · exact resized_table h hlive hoi _

theorem withdrawLive_rest (g : MessageGenerator) (oi : ℕ) (live shares : Quantity) :
    (withdrawLive g oi live shares).nextOrderId = g.nextOrderId ∧
      (withdrawLive g oi live shares).symbols = g.symbols ∧
      (withdrawLive g oi live shares).nextSeq = g.nextSeq ∧
        (withdrawLive g oi live shares).baseLocate = g.baseLocate := by
  unfold withdrawLive
  split_ifs <;> exact ⟨rfl, rfl, rfl, rfl⟩

/-- The assignment before the erasure in the cancel branch has no effect. -/
theorem eraseLive_set (g : MessageGenerator) (oi : ℕ) (qty : Quantity) :
    { g with liveQtys := g.liveQtys.set oi qty }.eraseLive oi = g.eraseLive oi := by
  simp only [eraseLive, List.eraseIdx_set_eq]

variable (h : Tabulates g live) (hlive : live = front ++ o :: back) (hoi : front.length = oi) (c : Draws)
  (loc : StockLocate)
  (sym : Symbol)
include h hlive hoi

/-- A withdrawal of drawn shares, whatever its message is called. -/
theorem withdraw_steps {shares : Quantity} {msg : AnyMessage}
    (hchanges : Changes live g.nextOrderId loc sym msg (front ++ (o.reduced shares ++ back)) (g.nextOrderId + 1)) :
    StepsTo g live loc sym msg (withdrawLive g.takeId.2 oi o.qty shares) (front ++ (o.reduced shares ++ back)) := by
  have htable : Tabulates g.takeId.2 live := ⟨h.orders, h.prices, h.qtys, h.sides, h.locs⟩
  obtain ⟨hnext, hsymbols, hseq, hbase⟩ := withdrawLive_rest g.takeId.2 oi o.qty shares
  exact ⟨hnext ▸ hchanges, withdrawLive_table htable hlive hoi shares, hsymbols, hseq, hbase⟩

theorem cancel_steps (hqty : o.qty ≠ 0) :
    ∃ msg g' live', g.cancel c oi o.id = some (msg, g') ∧ StepsTo g live loc sym msg g' live' := by
  obtain ⟨-, -, hrowQty, -, hrowLoc⟩ := h.row hlive hoi
  obtain ⟨shares, hshares⟩ : ∃ shares, UInt32.ofNat (uniform 1 (max 1 o.qty).toNat c.shares) = shares :=
    ⟨_, rfl⟩
  have hle : shares ≤ o.qty := hshares ▸ drawn_part_le hqty c.shares
  refine ⟨_, _, _, ?_, withdraw_steps h hlive hoi loc sym (.cancel shares hlive hle)⟩
  simp only [MessageGenerator.cancel, hrowLoc, hrowQty, Option.bind_eq_bind, Option.bind_some, hshares,
    eraseLive_set]
  rfl

theorem execute_steps (hqty : o.qty ≠ 0) :
    ∃ msg g' live', g.execute c oi o.id = some (msg, g') ∧ StepsTo g live loc sym msg g' live' := by
  obtain ⟨-, -, hrowQty, -, hrowLoc⟩ := h.row hlive hoi
  obtain ⟨shares, hshares⟩ : ∃ shares, UInt32.ofNat (uniform 1 (max 1 o.qty).toNat c.shares) = shares :=
    ⟨_, rfl⟩
  have hle : shares ≤ o.qty := hshares ▸ drawn_part_le hqty c.shares
  refine ⟨_, _, _, ?_, withdraw_steps h hlive hoi loc sym (.execute shares hlive hle)⟩
  simp only [MessageGenerator.execute, hrowLoc, hrowQty, Option.bind_eq_bind, Option.bind_some, hshares]
  rfl

theorem delete_steps : ∃ msg g' live', g.delete oi o.id = some (msg, g') ∧
    StepsTo g live loc sym msg g' live' := by
  obtain ⟨-, -, -, -, hrowLoc⟩ := h.row hlive hoi
  have htable : Tabulates g.takeId.2 live := ⟨h.orders, h.prices, h.qtys, h.sides, h.locs⟩
  refine ⟨.orderDelete ⟨o.loc, 0, g.nextOrderId, o.id⟩, g.takeId.2.eraseLive oi, _, ?_,
    ⟨.delete hlive, htable.erase hlive hoi, rfl, rfl, rfl⟩⟩
  simp only [MessageGenerator.delete, hrowLoc]
  rfl

theorem replace_steps : ∃ msg g' live', g.replace c oi o.id = some (msg, g') ∧
    StepsTo g live loc sym msg g' live' := by
  obtain ⟨-, -, -, -, hrowLoc⟩ := h.row hlive hoi
  obtain ⟨shares, hshares⟩ : ∃ shares, UInt32.ofNat (uniform 100 1000 c.shares) = shares := ⟨_, rfl⟩
  obtain ⟨price, hprice⟩ : ∃ price, UInt32.ofNat (uniform 100000 200000 c.price) = price := ⟨_, rfl⟩
  have hrow {β : Type} (f : LiveOrder → β) (b : β)
      (hb : b = f { o with price := price, qty := shares, id := g.nextOrderId + 1 }) :
      (live.map f).set oi b =
        (front ++ { o with price := price, qty := shares, id := g.nextOrderId + 1 } :: back).map f := by
    rw [hb]
    exact Tabulates.column f _ hlive hoi
  refine ⟨.orderReplace ⟨o.loc, 0, g.nextOrderId, o.id, g.nextOrderId + 1, shares, price⟩, { g with
      nextOrderId := g.nextOrderId + 1 + 1
      liveOrders := g.liveOrders.set oi (g.nextOrderId + 1)
      livePrices := g.livePrices.set oi price
      liveQtys := g.liveQtys.set oi shares }, _, ?_,
    ⟨.replace price shares hlive (hshares ▸ drawn_shares_ne_zero c.shares), ⟨?_, ?_, ?_, ?_, ?_⟩, rfl, rfl,
      rfl⟩⟩
  · simp only [MessageGenerator.replace, hrowLoc, hshares, hprice]
    rfl
  · rw [h.orders]
    exact hrow _ _ rfl
  · rw [h.prices]
    exact hrow _ _ rfl
  · rw [h.qtys]
    exact hrow _ _ rfl
  · simp [h.sides, hlive]
  · simp [h.locs, hlive]

end Choices

/-- Every call finds its row, whatever it draws. -/
theorem chooseMessage_steps {g : MessageGenerator} {live : List LiveOrder} (h : Tabulates g live)
    (hqty : ∀ o ∈ live, o.qty ≠ 0)
    (c : Draws) (loc : StockLocate) (sym : Symbol) :
    ∃ msg g' live', g.chooseMessage c loc sym = some (msg, g') ∧ StepsTo g live loc sym msg g' live' := by
  unfold chooseMessage
  by_cases hadd : g.liveOrders.isEmpty ∨ uniform 0 99 c.action < 50
  · obtain ⟨live', hsteps⟩ := add_steps h c loc sym
    exact ⟨_, _, live', if_pos hadd, hsteps⟩
  · obtain ⟨hsome, -⟩ := not_or.mp hadd
    have hlen : g.liveOrders.length = live.length := by rw [h.orders, List.length_map]
    have hpos : live.length ≠ 0 := by
      intro hzero
      rw [hzero, List.length_eq_zero_iff] at hlen
      simp [hlen] at hsome
    have hbounds := uniform_bounds (Nat.zero_le (g.liveOrders.length - 1)) c.order
    obtain ⟨front, o, back, hlive, hoi⟩ := exists_row
      (show uniform 0 (g.liveOrders.length - 1) c.order < live.length by omega)
    have hrow := (h.row hlive hoi).1
    have ho := hqty o (by simp [hlive])
    simp only [if_neg hadd, hrow, Option.bind_eq_bind, Option.bind_some]
    split_ifs
    · exact cancel_steps h hlive hoi c loc sym ho
    · exact execute_steps h hlive hoi c loc sym ho
    · exact delete_steps h hlive hoi loc sym
    · exact replace_steps h hlive hoi c loc sym

/-- A row is an old one, or has shares and the place of an old row or of the call. -/
theorem Changes.rows {live live' : List LiveOrder} {next next' : OrderId} {loc : StockLocate} {sym : Symbol}
    {msg : AnyMessage}
    (h : Changes live next loc sym msg live' next') {r : LiveOrder} (hr : r ∈ live') :
    r ∈ live ∨
      r.qty ≠ 0 ∧ ((∃ o ∈ live, r.loc = o.loc ∧ r.symbol = o.symbol) ∨ r.loc = loc ∧ r.symbol = sym) := by
  have hreduced {o : LiveOrder} {shares : Quantity} :
      r ∈ o.reduced shares → r.qty ≠ 0 ∧ r.loc = o.loc ∧ r.symbol = o.symbol := by
    intro hr
    unfold LiveOrder.reduced at hr
    split_ifs at hr with hle
    · cases hr
    · rw [List.mem_singleton.mp hr]
      have hlt : shares.toNat < o.qty.toNat := UInt32.lt_iff_toNat_lt.mp (UInt32.not_le.mp hle)
      have hleft : (o.qty - shares).toNat = o.qty.toNat - shares.toNat :=
        UInt32.toNat_sub_of_le _ _ (UInt32.le_iff_toNat_le.mpr hlt.le)
      refine ⟨fun hzero => ?_, rfl, rfl⟩
      have hnone : (o.qty - shares).toNat = 0 := congrArg UInt32.toNat hzero
      omega
  cases h with
  | add o hshares =>
    rcases List.mem_append.mp hr with hr | hr
    · exact Or.inl hr
    · rw [List.mem_singleton.mp hr]
      exact Or.inr ⟨hshares, Or.inr ⟨rfl, rfl⟩⟩
  | @cancel front o back shares hlive hle | @execute front o back shares hlive hle =>
    rcases List.mem_append.mp hr with hr | hr
    · exact Or.inl (by simp [hlive, hr])
    · rcases List.mem_append.mp hr with hr | hr
      · exact Or.inr ⟨(hreduced hr).1, Or.inl ⟨o, by simp [hlive], (hreduced hr).2⟩⟩
      · exact Or.inl (by simp [hlive, hr])
  | delete hlive =>
    rcases List.mem_append.mp hr with hr | hr
    · exact Or.inl (by simp [hlive, hr])
    · exact Or.inl (by simp [hlive, hr])
  | @replace front o back price shares hlive hshares =>
    rcases List.mem_append.mp hr with hr | hr
    · exact Or.inl (by simp [hlive, hr])
    · rcases List.mem_cons.mp hr with rfl | hr
      · exact Or.inr ⟨hshares, Or.inl ⟨o, by simp [hlive], rfl, rfl⟩⟩
      · exact Or.inl (by simp [hlive, hr])

theorem Changes.positive {live live' : List LiveOrder} {next next' : OrderId} {loc : StockLocate}
    {sym : Symbol} {msg : AnyMessage}
    (h : Changes live next loc sym msg live' next') (hqty : ∀ o ∈ live, o.qty ≠ 0) :
    ∀ o ∈ live', o.qty ≠ 0 := by
  intro r hr
  rcases h.rows hr with hold | ⟨hpos, -⟩
  · exact hqty r hold
  · exact hpos

theorem MessageGenerator.stamp_eq (g : MessageGenerator) (loc : StockLocate) :
    g.stamp loc = (⟨loc, (g.nextSeq[loc]?).getD 1⟩, { g with nextSeq := g.nextSeq.insert loc ((g.nextSeq[loc]?).getD 1 + 1) }) := by
  unfold MessageGenerator.stamp
  cases g.nextSeq[loc]? with
  | none => rfl
  | some seq => rfl

/-- A datagram carries its header and decodes to its message. -/
structure Packs (header : TransportHeader) (msg : AnyMessage) (data : List UInt8) : Prop where
  framed : transportHeaderSize + 2 ≤ data.length
  locate : readLocate data = header.stockLocate
  sequence : readSequence data = header.sequence
  decoded : decodeFrame (data.drop transportHeaderSize) = ⟨.ok, framedSize msg, some msg.onWire⟩

/-- The payload in its three parts. -/
theorem payload_parts (header : TransportHeader) (msg : AnyMessage) :
    payload header msg = u16Bytes header.stockLocate ++ (u64Bytes header.sequence ++
        (encodeFrame msg (List.replicate (framedSize msg) 0)).2) ∧
      (encodeFrame msg (List.replicate (framedSize msg) 0)).2.length = framedSize msg := by
  have hbuf : (List.replicate (framedSize msg) (0 : UInt8)).length = framedSize msg := List.length_replicate
  obtain ⟨hcount, hlen, -⟩ := encodeFrame_exact hbuf
  have hsize : framedSize msg = 2 + msg.type.wireSize := rfl
  have hfull : (encodeFrame msg (List.replicate (framedSize msg) 0)).2.take (framedSize msg) =
      (encodeFrame msg (List.replicate (framedSize msg) 0)).2 := List.take_of_length_le hlen.le
  refine ⟨?_, hlen⟩
  rw [payload, if_neg (by omega), hcount, hfull]

theorem length_payload (header : TransportHeader) (msg : AnyMessage) :
    (payload header msg).length = transportHeaderSize + framedSize msg := by
  obtain ⟨hbytes, hlen⟩ := payload_parts header msg
  rw [hbytes, List.length_append, List.length_append, length_u16Bytes, length_u64Bytes, hlen, transportHeaderSize]
  omega

theorem payload_packs (header : TransportHeader) (msg : AnyMessage) :
    Packs header msg (payload header msg) := by
  have hbuf : (List.replicate (framedSize msg) (0 : UInt8)).length = framedSize msg := List.length_replicate
  have hsize : framedSize msg = 2 + msg.type.wireSize := rfl
  obtain ⟨hbytes, -⟩ := payload_parts header msg
  have hloc : (payload header msg).take 2 = u16Bytes header.stockLocate := by
    rw [hbytes]
    exact List.take_left' (length_u16Bytes _)
  have hbody : (payload header msg).drop 2 =
      u64Bytes header.sequence ++ (encodeFrame msg (List.replicate (framedSize msg) 0)).2 := by
    rw [hbytes]
    exact List.drop_left' (length_u16Bytes _)
  have hframe : (payload header msg).drop transportHeaderSize =
    (encodeFrame msg (List.replicate (framedSize msg) 0)).2 := by
    rw [transportHeaderSize, ← List.drop_drop, hbody]
    exact List.drop_left' (length_u64Bytes _)
  refine ⟨?_, ?_, ?_, ?_⟩
  · rw [length_payload]
    omega
  · have hvalue : header.stockLocate.toNat % 256 ^ 2 = header.stockLocate.toNat :=
      Nat.mod_eq_of_lt header.stockLocate.toNat_lt
    rw [readLocate, hloc, u16Bytes, ofBytes_toBytes, hvalue, UInt16.ofNat_toNat]
  · have hvalue : header.sequence.toNat % 256 ^ 8 = header.sequence.toNat :=
      Nat.mod_eq_of_lt header.sequence.toNat_lt
    rw [readSequence, hbody, List.take_left' (length_u64Bytes _), u64Bytes, ofBytes_toBytes, hvalue,
      UInt64.ofNat_toNat]
  · rw [hframe]
    simpa using decodeFrame_onWire msg hbuf []

/-- One call: the symbol that it picks, the message that it chooses and what they leave. -/
structure Calls (g : MessageGenerator) (live : List LiveOrder) (c : Draws) (sym : Symbol) (msg : AnyMessage)
    (e : Emission)
    (g' : MessageGenerator) (live' : List LiveOrder) : Prop where
  picked : g.symbols[g.pickSymbol c]? = some sym
  chosen : (g.chooseMessage c (g.locateAt (g.pickSymbol c)) sym).map Prod.fst = some msg
  changes : Changes live g.nextOrderId (g.locateAt (g.pickSymbol c)) sym msg live' g'.nextOrderId
  table : Tabulates g' live'
  header : e.header = ⟨g.locateAt (g.pickSymbol c), (g.nextSeq[g.locateAt (g.pickSymbol c)]?).getD 1⟩
  packs : Packs e.header msg e.out
  symbols : g'.symbols = g.symbols
  baseLocate : g'.baseLocate = g.baseLocate
  nextSeq : g'.nextSeq = g.nextSeq.insert e.header.stockLocate (e.header.sequence + 1)

/-- The datagram carries the sequence that its locate comes to next. -/
theorem Calls.stamped {g g' : MessageGenerator} {live live' : List LiveOrder} {c : Draws} {sym : Symbol}
    {msg : AnyMessage}
    {e : Emission} (h : Calls g live c sym msg e g' live') :
    readSequence e.out = (g.nextSeq[e.header.stockLocate]?).getD 1 := by
  rw [h.packs.sequence, h.header]

theorem next_calls {g : MessageGenerator} {live : List LiveOrder} (h : Tabulates g live)
    (hqty : ∀ o ∈ live, o.qty ≠ 0)
    (hsymbols : g.symbols ≠ []) (c : Draws) :
    ∃ sym msg e g' live', g.next c = some (e, g') ∧ Calls g live c sym msg e g' live' := by
  have hpos := List.length_pos_iff.mpr hsymbols
  have hpick : g.pickSymbol c < g.symbols.length := by
    have hbounds := uniform_bounds (Nat.zero_le (g.symbols.length - 1)) c.symbol
    rw [pickSymbol, if_neg (by simp [hsymbols])]
    omega
  obtain ⟨sym, hsym⟩ : ∃ sym, g.symbols[g.pickSymbol c]? = some sym := ⟨_, List.getElem?_eq_getElem hpick⟩
  obtain ⟨msg, g', live', hchosen, hsteps⟩ := chooseMessage_steps h hqty c (g.locateAt (g.pickSymbol c)) sym
  have hstamp := g'.stamp_eq (g.locateAt (g.pickSymbol c))
  rw [hsteps.nextSeq] at hstamp
  have hnext : g.next c = some (⟨(g'.stamp (g.locateAt (g.pickSymbol c))).1,
    payload (g'.stamp (g.locateAt (g.pickSymbol c))).1 msg⟩,
      (g'.stamp (g.locateAt (g.pickSymbol c))).2) := by
    simp only [MessageGenerator.next, hsym, hchosen, Option.bind_eq_bind, Option.bind_some]
    rfl
  rw [hstamp] at hnext
  refine ⟨sym, msg, _, _, live', hnext, hsym, ?_, hsteps.changes, ?_, rfl, payload_packs _ msg,
    hsteps.symbols, hsteps.baseLocate, rfl⟩
  · rw [hchosen]
    rfl
  · exact ⟨hsteps.table.orders, hsteps.table.prices, hsteps.table.qtys, hsteps.table.sides, hsteps.table.locs⟩

/-- An emission is the payload of some message. -/
theorem MessageGenerator.next_out {g g' : MessageGenerator} {c : Draws} {e : Emission} (h : g.next c = some (e, g')) :
    ∃ msg, e.out = payload e.header msg := by
  unfold MessageGenerator.next at h
  simp only [Option.bind_eq_bind, Option.bind_eq_some_iff] at h
  obtain ⟨sym, -, ⟨msg, g₁⟩, -, he⟩ := h
  cases he
  exact ⟨msg, rfl⟩

/-- The locate of an emission is that of the symbol the call picks. -/
theorem MessageGenerator.next_locate {g g' : MessageGenerator} {c : Draws} {e : Emission}
    (h : g.next c = some (e, g')) :
    ∃ si < g.symbols.length, e.header.stockLocate = g.locateAt si := by
  unfold MessageGenerator.next at h
  simp only [Option.bind_eq_bind, Option.bind_eq_some_iff] at h
  obtain ⟨sym, hsym, ⟨msg, g₁⟩, -, he⟩ := h
  refine ⟨g.pickSymbol c, (List.getElem?_eq_some_iff.mp hsym).1, ?_⟩
  rw [MessageGenerator.stamp_eq] at he
  cases he
  rfl

theorem MessageGenerator.run_out {g g' : MessageGenerator} {cs : List Draws} {es : List Emission}
    (h : g.run cs = some (es, g')) : ∀ e ∈ es, ∃ msg, e.out = payload e.header msg := by
  induction cs generalizing g es with
  | nil =>
    cases h
    exact fun e he => absurd he List.not_mem_nil
  | cons c cs ih =>
    simp only [run, Option.bind_eq_bind, Option.bind_eq_some_iff] at h
    obtain ⟨⟨e, g₁⟩, hnext, ⟨es', g₂⟩, hrun, hes⟩ := h
    cases hes
    exact List.forall_mem_cons.mpr ⟨next_out hnext, ih hrun⟩

theorem symbols_ne_nil {numSymbols : ℕ} (h : 1 ≤ numSymbols) :
    (MessageGenerator.new numSymbols).symbols ≠ [] := by
  rw [MessageGenerator.new, ne_eq, List.map_eq_nil_iff, List.take_eq_nil_iff]
  intro hnil
  rcases hnil with hzero | hnames
  · omega
  · cases hnames

/-- The last call of a run acts on the generator that the others leave. -/
theorem MessageGenerator.run_concat (g : MessageGenerator) (cs : List Draws) (c : Draws) :
    g.run (cs ++ [c]) = (g.run cs).bind (fun r => (r.2.next c).map (fun n => (r.1 ++ [n.1], n.2))) := by
  induction cs generalizing g with
  | nil =>
    cases hnext : g.next c with
    | none => simp [run, hnext]
    | some n => simp [run, hnext]
  | cons d cs ih =>
    cases hnext : g.next d with
    | none => simp [run, hnext]
    | some n =>
      cases hrun : n.2.run cs with
      | none => simp [run, hnext, ih, hrun]
      | some r =>
        cases hlast : r.2.next c with
        | none => simp [run, hnext, ih, hrun, hlast]
        | some l => simp [run, hnext, ih, hrun, hlast]

end MdfeedItch
