import MdfeedItch.SnapshotDepth

/-! # A rebuilt book carries the levels of its snapshot

`apply_snapshot` replaces every level by as many orders as the level counts,
under ids from `firstSynthetic` on. As long as the ids do not run out, the shares
and the number of orders at a price are those quoted there, so a visible ladder
comes back as it was. -/
namespace MdfeedItch
open Std FiniteMapSums FeedHandler

def PriceLevel.Backed (lvl : PriceLevel) : Prop :=
  0 < lvl.orderCount.toNat ∧ lvl.orderCount.toNat ≤ lvl.totalQty.toNat

theorem PriceLevel.Backed.split_toNat {lvl : PriceLevel} (h : lvl.Backed) {n : ℕ} (hn : lvl.orderCount.toNat = n + 1) :
    let per := (lvl.totalQty / lvl.orderCount).toNat
    0 < per ∧ per + per * n ≤ lvl.totalQty.toNat ∧
      lvl.split.map UInt32.toNat = (lvl.totalQty.toNat - per * n) :: List.replicate n per := by
  intro per
  obtain ⟨hpos, hle⟩ := h
  have hone : 1 ≤ lvl.orderCount := UInt32.le_iff_toNat_le.mpr hpos
  have hcnt : max 1 lvl.orderCount = lvl.orderCount := if_pos hone
  have hlt := lvl.totalQty.toNat_lt
  have hper : per = lvl.totalQty.toNat / (n + 1) := (UInt32.toNat_div _ _).trans (by rw [hn])
  have hcover : per * (n + 1) = per + per * n := by rw [Nat.mul_add_one, Nat.add_comm]
  have hdiv : per * (n + 1) ≤ lvl.totalQty.toNat := hper ▸ Nat.div_mul_le_self _ _
  have hprod : (lvl.totalQty / lvl.orderCount * lvl.orderCount).toNat = per * (n + 1) := by
    rw [UInt32.toNat_mul, hn]
    exact Nat.mod_eq_of_lt (hdiv.trans_lt hlt)
  have hrem : (lvl.totalQty - lvl.totalQty / lvl.orderCount * lvl.orderCount).toNat = lvl.totalQty.toNat - per * (n + 1) := by
    rw [UInt32.toNat_sub_of_le, hprod]
    rwa [UInt32.le_iff_toNat_le, hprod]
  refine ⟨?_, by omega, ?_⟩
  · rw [hper]
    exact Nat.div_pos (by omega) (by omega)
  · simp only [PriceLevel.split, hcnt, hn, List.range_succ_eq_map, List.map_cons, List.map_map]
    congr 1
    · rw [if_pos trivial, UInt32.toNat_add, hrem, Nat.mod_eq_of_lt (by omega)]
      omega
    · simp [List.eq_replicate_iff, per]

/-- The split has one part an order, none of them empty, and loses no share. -/
theorem PriceLevel.Backed.split {lvl : PriceLevel} (h : lvl.Backed) : lvl.split.length = lvl.orderCount.toNat ∧
    (∀ q ∈ lvl.split, q ≠ 0) ∧ (lvl.split.map UInt32.toNat).sum = lvl.totalQty.toNat := by
  obtain ⟨n, hn⟩ := Nat.exists_eq_add_of_le' h.1
  obtain ⟨hpos, hle, hparts⟩ := h.split_toNat hn
  refine ⟨?_, fun q hq hzero => ?_, ?_⟩
  · simpa [hn] using congrArg List.length hparts
  · have hmem : (0 : ℕ) ∈ lvl.split.map UInt32.toNat := List.mem_map.mpr ⟨q, hq, by rw [hzero]; rfl⟩
    rw [hparts, List.mem_cons, List.mem_replicate] at hmem
    omega
  · have hsum : (List.replicate n (lvl.totalQty / lvl.orderCount).toNat).sum = n * (lvl.totalQty / lvl.orderCount).toNat :=
      List.sum_replicate n _
    rw [hparts, List.sum_cons, hsum, Nat.mul_comm n]
    omega

structure Stocked (s : SymbolBook × OrderId) (n : ℕ) : Prop where
  next : s.2.toNat = firstSynthetic.toNat + n
  taken : ∀ (x : OrderId) (o : OrderState), s.1.orders[x]? = some o → firstSynthetic ≤ x ∧ x < s.2

/-- What `fill` adds to the sums of a table: shares and orders, price by price. -/
structure Filled (old new : OrderTable) (qty count : Bool → Price → ℕ) : Prop where
  qty : ∀ buy p, levelQty new buy p = levelQty old buy p + qty buy p
  count : ∀ buy p, levelCount new buy p = levelCount old buy p + count buy p

theorem Filled.trans {t t' t'' : OrderTable} {q q' c c' : Bool → Price → ℕ} (h : Filled t t' q c)
    (h' : Filled t' t'' q' c') : Filled t t'' (fun b p => q b p + q' b p) (fun b p => c b p + c' b p) := by
  refine ⟨fun buy p => ?_, fun buy p => ?_⟩
  · rw [h'.qty, h.qty, Nat.add_assoc]
  · rw [h'.count, h.count, Nat.add_assoc]

def onLevel (side : Side) (price : Price) (n : ℕ) (buy : Bool) (p : Price) : ℕ :=
  if side.isBuy = buy ∧ price = p then n else 0

theorem onLevel_add (side : Side) (price : Price) (m n : ℕ) (buy : Bool) (p : Price) :
    onLevel side price m buy p + onLevel side price n buy p = onLevel side price (m + n) buy p := by
  unfold onLevel
  split_ifs <;> rfl

theorem addSynthetic_fills {s : SymbolBook × OrderId} {n : ℕ} (h : Stocked s n) (hroom : n < 2 ^ 63) (side : Side)
    (price : Price) {q : Quantity} (hq : q ≠ 0) :
    Stocked (addSynthetic side price s q) (n + 1) ∧
      Filled s.1.orders (addSynthetic side price s q).1.orders (onLevel side price q.toNat) (onLevel side price 1) := by
  have hfirst : firstSynthetic.toNat = 2 ^ 60 := rfl
  have hnext : (s.2 + 1).toNat = s.2.toNat + 1 := toNat_succ (UInt64.lt_iff_toNat_lt.mpr (by
    rw [h.next, hfirst]
    have : maxSequence.toNat = 2 ^ 64 - 1 := rfl
    omega))
  have hfree : s.1.orders[s.2]? = none := by
    cases hs : s.1.orders[s.2]? with
    | none => rfl
    | some o => exact absurd (h.taken s.2 o hs).2 (UInt64.lt_irrefl _)
  have horders : (addSynthetic side price s q).1.orders = s.1.orders.insert s.2 ⟨⟨side, price, q⟩, 0⟩ := by
    rw [addSynthetic, if_neg hq, SymbolBook.addOrder_orders, OrderTable.place]
    simp [hq, hfree]
  have hid : (addSynthetic side price s q).2 = s.2 + 1 := by rw [addSynthetic, if_neg hq]
  refine ⟨⟨?_, fun x o hx => ?_⟩, ⟨fun buy p => ?_, fun buy p => ?_⟩⟩
  · rw [hid, hnext, h.next, Nat.add_assoc]
  · rw [horders, lookup_insert] at hx
    rw [hid, UInt64.le_iff_toNat_le, UInt64.lt_iff_toNat_lt, hnext]
    split_ifs at hx with he
    · rw [he, h.next]
      omega
    · obtain ⟨hle, hlt⟩ := h.taken x o hx
      rw [UInt64.le_iff_toNat_le] at hle
      rw [UInt64.lt_iff_toNat_lt] at hlt
      omega
  · have hsum := sumOver_insert s.1.orders (fun o => o.qtyOn buy p) s.2 ⟨⟨side, price, q⟩, 0⟩
    rwa [weightAt_none hfree, Nat.add_zero, ← horders] at hsum
  · have hsum := sumOver_insert s.1.orders (fun o => o.countOn buy p) s.2 ⟨⟨side, price, q⟩, 0⟩
    rwa [weightAt_none hfree, Nat.add_zero, ← horders] at hsum

theorem addParts_fills {s : SymbolBook × OrderId} {n : ℕ} (h : Stocked s n) (side : Side) (price : Price)
    (parts : List Quantity) (hparts : ∀ q ∈ parts, q ≠ 0) (hroom : n + parts.length < 2 ^ 63) :
    Stocked (parts.foldl (addSynthetic side price) s) (n + parts.length) ∧
      Filled s.1.orders (parts.foldl (addSynthetic side price) s).1.orders
        (onLevel side price (parts.map UInt32.toNat).sum) (onLevel side price parts.length) := by
  induction parts generalizing s n with
  | nil => exact ⟨h, ⟨fun buy p => by simp [onLevel], fun buy p => by simp [onLevel]⟩⟩
  | cons q parts ih =>
    rw [List.length_cons] at hroom
    obtain ⟨hone, hfill⟩ := addSynthetic_fills h (by omega) side price (hparts q (by simp))
    obtain ⟨hall, hfill'⟩ := ih hone (fun q' hq' => hparts q' (by simp [hq'])) (by omega)
    rw [List.foldl_cons, List.length_cons, List.map_cons, List.sum_cons, Nat.add_comm parts.length, ← Nat.add_assoc]
    refine ⟨hall, ?_⟩
    have hboth := hfill.trans hfill'
    simpa only [onLevel_add] using hboth

/-- What the levels of one side quote at a price, for any of their fields. -/
def quoted (side : Side) (levels : List PriceLevel) (f : PriceLevel → ℕ) (buy : Bool) (p : Price) : ℕ :=
  (levels.map (fun lvl => onLevel side lvl.price (f lvl) buy p)).sum

theorem addLevels_fills {s : SymbolBook × OrderId} {n : ℕ} (h : Stocked s n) (side : Side) (levels : List PriceLevel)
    (hlevels : ∀ lvl ∈ levels, lvl.Backed) (hroom : n + (levels.map (fun lvl => lvl.orderCount.toNat)).sum < 2 ^ 63) :
    Stocked (addLevels side s levels) (n + (levels.map (fun lvl => lvl.orderCount.toNat)).sum) ∧
      Filled s.1.orders (addLevels side s levels).1.orders
        (quoted side levels (fun lvl => lvl.totalQty.toNat)) (quoted side levels (fun lvl => lvl.orderCount.toNat)) := by
  induction levels generalizing s n with
  | nil => exact ⟨h, ⟨fun buy p => rfl, fun buy p => rfl⟩⟩
  | cons lvl levels ih =>
    obtain ⟨hlen, hne, hsum⟩ := (hlevels lvl (by simp)).split
    rw [List.map_cons, List.sum_cons, ← Nat.add_assoc] at hroom ⊢
    obtain ⟨hone, hfill⟩ := addParts_fills h side lvl.price lvl.split hne (by omega)
    rw [hlen] at hone hfill
    rw [hsum] at hfill
    obtain ⟨hall, hfill'⟩ := ih hone (fun lvl' hlvl' => hlevels lvl' (by simp [hlvl'])) hroom
    refine ⟨hall, ?_⟩
    have hboth := hfill.trans hfill'
    exact ⟨hboth.qty, hboth.count⟩

theorem rebuild_fills (snap : SnapshotResponse) (hbids : ∀ lvl ∈ snap.bids, lvl.Backed) (hasks : ∀ lvl ∈ snap.asks, lvl.Backed)
    (hroom : (snap.bids.map (fun lvl => lvl.orderCount.toNat)).sum +
      (snap.asks.map (fun lvl => lvl.orderCount.toNat)).sum < 2 ^ 63) :
    (∀ x o, snap.rebuild.orders[x]? = some o → firstSynthetic ≤ x) ∧
      (∀ buy p, levelQty snap.rebuild.orders buy p = quoted Side.buy snap.bids (fun lvl => lvl.totalQty.toNat) buy p +
        quoted Side.sell snap.asks (fun lvl => lvl.totalQty.toNat) buy p) ∧
      ∀ buy p, levelCount snap.rebuild.orders buy p = quoted Side.buy snap.bids (fun lvl => lvl.orderCount.toNat) buy p +
        quoted Side.sell snap.asks (fun lvl => lvl.orderCount.toNat) buy p := by
  have hempty : ∀ depth, Stocked (SymbolBook.new depth, firstSynthetic) 0 := fun depth => ⟨rfl, by simp [SymbolBook.new]⟩
  obtain ⟨hb, hfillb⟩ := addLevels_fills (hempty _) Side.buy snap.bids hbids (by omega)
  obtain ⟨ha, hfilla⟩ := addLevels_fills hb Side.sell snap.asks hasks (by omega)
  have hboth := hfillb.trans hfilla
  refine ⟨fun x o hx => (ha.taken x o hx).1, fun buy p => ?_, fun buy p => ?_⟩
  · refine (hboth.qty buy p).trans ?_
    simp [SymbolBook.new, levelQty]
  · refine (hboth.count buy p).trans ?_
    simp [SymbolBook.new, levelCount]

theorem quoted_ladder (side : Side) {prices : List Price} (hnodup : prices.Nodup) (qty count : Price → ℕ)
    (f : PriceLevel → ℕ) (n : Price → ℕ) (hf : ∀ p, f (levelFor qty count p) = n p)
    (hoff : ∀ p, p ∉ prices → n p = 0) (buy : Bool) (p : Price) :
    quoted side (prices.map (levelFor qty count)) f buy p = if side.isBuy = buy then n p else 0 := by
  have hterms : (prices.map (levelFor qty count)).map (fun lvl => onLevel side lvl.price (f lvl) buy p) =
      prices.map (fun x => onLevel side x (n x) buy p) := by
    rw [List.map_map]
    exact List.map_congr_left (fun x _ => congrArg (onLevel side x · buy p) (hf x))
  have hsingle := List.sum_map_eq_nsmul_single (l := prices) p (fun x => onLevel side x (n x) buy p)
    (fun x hx _ => if_neg (fun hboth => hx hboth.2))
  rw [quoted, hterms, hsingle, List.Nodup.count hnodup]
  by_cases hp : p ∈ prices
  · simp [hp, onLevel]
  · simp [hp, hoff p hp]

/-- A book whose depth covers its live prices shows a level for each of them. -/
theorem SymbolBook.Aggregated.wholeSide {b : SymbolBook} (h : b.Aggregated) {buy : Bool}
    (hdepth : (livePrices b.orders buy).card ≤ b.depth) :
    ∃ prices : List Price, prices.Pairwise (Better buy) ∧ (∀ p, p ∈ prices ↔ 0 < levelCount b.orders buy p) ∧
      b.top buy = prices.map (levelFor (levelQty b.orders buy) (levelCount b.orders buy)) := by
  obtain ⟨prices, hsort, hmem, htop, _⟩ := h.carries.side buy
  have hcard := card_livePrices hsort (fun p => (hmem p).trans (mem_livePrices b.orders buy p).symm)
  rw [List.take_of_length_le (hcard ▸ hdepth)] at htop
  exact ⟨prices, hsort, hmem, htop⟩

theorem SymbolBook.Aggregated.top_eq {b b' : SymbolBook} (h : b.Aggregated) (h' : b'.Aggregated)
    (hqty : levelQty b'.orders = levelQty b.orders) (hcount : levelCount b'.orders = levelCount b.orders) {buy : Bool}
    (hdepth : (livePrices b.orders buy).card ≤ b.depth) (hdepth' : (livePrices b.orders buy).card ≤ b'.depth) :
    b'.top buy = b.top buy := by
  have hlive : livePrices b'.orders buy = livePrices b.orders buy := by
    ext p
    rw [mem_livePrices, mem_livePrices, hcount]
  obtain ⟨prices, hsort, hmem, htop⟩ := h.wholeSide hdepth
  obtain ⟨prices', hsort', hmem', htop'⟩ := h'.wholeSide (hlive ▸ hdepth')
  rw [hqty, hcount] at htop'
  rw [hcount] at hmem'
  rw [htop', htop, hsort'.eq_of_mem_iff hsort (fun p => (hmem' p).trans (hmem p).symm)]

theorem length_keys_le {t : OrderTable} (hids : ∀ x o, t[x]? = some o → x < firstSynthetic) : t.keys.length ≤ 2 ^ 60 := by
  have hnodup : (t.keys.map UInt64.toNat).Nodup :=
    ExtTreeMap.nodup_keys.map (fun _ _ h => UInt64.toNat_inj.mp h)
  have hsub : (t.keys.map UInt64.toNat).toFinset ⊆ Finset.range (2 ^ 60) := by
    intro n hn
    obtain ⟨x, hx, rfl⟩ := List.mem_map.mp (List.mem_toFinset.mp hn)
    obtain ⟨o, ho⟩ := Option.isSome_iff_exists.mp (ExtTreeMap.mem_iff_isSome_getElem?.mp (ExtTreeMap.mem_keys.mp hx))
    exact Finset.mem_range.mpr (UInt64.lt_iff_toNat_lt.mp (hids x o ho))
  have hcard := Finset.card_le_card hsub
  rwa [List.toFinset_card_of_nodup hnodup, List.length_map, Finset.card_range] at hcard

/-- The orders at different prices of the two sides are different orders. -/
theorem sum_levelCount_le (t : OrderTable) {bids asks : List Price} (hbids : bids.Nodup) (hasks : asks.Nodup) :
    (bids.map (levelCount t true)).sum + (asks.map (levelCount t false)).sum ≤ t.keys.length := by
  have hone : ∀ buy {prices : List Price}, prices.Nodup → ∀ o : OrderState,
      (prices.map (fun p => o.countOn buy p)).sum ≤ if o.side.isBuy = buy then 1 else 0 := by
    intro buy prices hnodup o
    have hsingle := List.sum_map_eq_nsmul_single (l := prices) o.price (fun p => o.countOn buy p)
      (fun p hp _ => (RestingOrder.on_other (Or.inr hp)).2)
    rw [hsingle, List.Nodup.count hnodup]
    simp only [RestingOrder.countOn]
    split_ifs <;> simp_all
  have hsum : ∀ buy (prices : List Price), (prices.map (levelCount t buy)).sum =
      sumOver t (fun o => (prices.map (fun p => o.countOn buy p)).sum) := fun buy prices =>
    sumOver_sum t prices (fun p o => o.countOn buy p)
  rw [hsum, hsum, sumOver, sumOver, ← List.sum_map_add]
  refine sumOver_le_length t (fun o => (bids.map (fun p => o.countOn true p)).sum + (asks.map (fun p => o.countOn false p)).sum) ?_
  intro o
  have hb := hone true hbids o
  have ha := hone false hasks o
  cases hside : o.side.isBuy with
  | true =>
    rw [hside, if_pos rfl] at hb
    rw [hside, if_neg (by decide)] at ha
    omega
  | false =>
    rw [hside, if_neg (by decide)] at hb
    rw [hside, if_pos rfl] at ha
    omega

/-- Rebuilt from the ladders of a book that shows all its levels, a book has the same sums. -/
theorem rebuild_same {b : SymbolBook} (h : b.Aggregated) (hqty : ∀ buy p, levelQty b.orders buy p < 2 ^ 32)
    (hdepth : ∀ buy, (livePrices b.orders buy).card ≤ b.depth)
    (hids : ∀ x o, b.orders[x]? = some o → x < firstSynthetic) {snap : SnapshotResponse}
    (hbids : snap.bids = b.topBids) (hasks : snap.asks = b.topAsks) :
    (∀ x o, snap.rebuild.orders[x]? = some o → firstSynthetic ≤ x) ∧
      levelQty snap.rebuild.orders = levelQty b.orders ∧ levelCount snap.rebuild.orders = levelCount b.orders := by
  have hcount : ∀ buy p, levelCount b.orders buy p < 2 ^ 32 := CountsFit.of_small h.qtyPos hqty
  have hq : ∀ buy p, (levelFor (levelQty b.orders buy) (levelCount b.orders buy) p).totalQty.toNat = levelQty b.orders buy p :=
    fun buy p => UInt32.toNat_ofNat_of_lt' (hqty buy p)
  have hc : ∀ buy p, (levelFor (levelQty b.orders buy) (levelCount b.orders buy) p).orderCount.toNat = levelCount b.orders buy p :=
    fun buy p => UInt32.toNat_ofNat_of_lt' (hcount buy p)
  have side : ∀ buy, ∃ prices : List Price, prices.Nodup ∧ (∀ p, p ∉ prices → levelQty b.orders buy p = 0 ∧ levelCount b.orders buy p = 0) ∧
      b.top buy = prices.map (levelFor (levelQty b.orders buy) (levelCount b.orders buy)) ∧ ∀ lvl ∈ b.top buy, lvl.Backed := by
    intro buy
    obtain ⟨prices, hsort, hmem, htop⟩ := h.wholeSide (hdepth buy)
    refine ⟨prices, Better.nodup hsort, fun p hp => ?_, htop, fun lvl hlvl => ?_⟩
    · have hzero : levelCount b.orders buy p = 0 := Nat.eq_zero_of_not_pos (fun hpos => hp ((hmem p).mpr hpos))
      exact ⟨levelQty_eq_zero hzero, hzero⟩
    · rw [htop] at hlvl
      obtain ⟨p, hp, rfl⟩ := List.mem_map.mp hlvl
      rw [PriceLevel.Backed, hq, hc]
      exact ⟨(hmem p).mp hp, levelCount_le_levelQty h.qtyPos buy p⟩
  obtain ⟨bids, hbnodup, hboff, hbtop, hbback⟩ := side true
  obtain ⟨asks, hanodup, haoff, hatop, haback⟩ := side false
  have hbids' : snap.bids = b.top true := hbids
  have hasks' : snap.asks = b.top false := hasks
  have hbcount : (snap.bids.map (fun lvl => lvl.orderCount.toNat)).sum = (bids.map (levelCount b.orders true)).sum := by
    rw [hbids', hbtop, List.map_map]
    exact congrArg List.sum (List.map_congr_left (fun p _ => hc true p))
  have hacount : (snap.asks.map (fun lvl => lvl.orderCount.toNat)).sum = (asks.map (levelCount b.orders false)).sum := by
    rw [hasks', hatop, List.map_map]
    exact congrArg List.sum (List.map_congr_left (fun p _ => hc false p))
  have hroom := (sum_levelCount_le b.orders hbnodup hanodup).trans (length_keys_le hids)
  obtain ⟨hfrom, hqtys, hcounts⟩ := rebuild_fills snap (hbids' ▸ hbback) (hasks' ▸ haback) (by omega)
  rw [hbids', hasks', hbtop, hatop] at hqtys hcounts
  refine ⟨hfrom, ?_, ?_⟩
  · funext buy p
    rw [hqtys, quoted_ladder Side.buy hbnodup _ _ _ _ (hq true) (fun p hp => (hboff p hp).1),
      quoted_ladder Side.sell hanodup _ _ _ _ (hq false) (fun p hp => (haoff p hp).1)]
    cases buy <;> simp [Side.isBuy, Side.buy, Side.sell]
  · funext buy p
    rw [hcounts, quoted_ladder Side.buy hbnodup _ _ _ _ (hc true) (fun p hp => (hboff p hp).2),
      quoted_ladder Side.sell hanodup _ _ _ _ (hc false) (fun p hp => (haoff p hp).2)]
    cases buy <;> simp [Side.isBuy, Side.buy, Side.sell]

end MdfeedItch
