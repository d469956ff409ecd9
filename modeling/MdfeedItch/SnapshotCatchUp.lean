import MdfeedItch.SnapshotLadder
import MdfeedItch.SymbolStream

/-! # A rebuilt book follows the stream that its snapshot was taken from

From the point of a snapshot on the rebuilt book and the reference book hold the
same later orders; where the reference still holds the orders of the snapshot,
the rebuilt book holds their stand-ins. While those orders rest untouched, both
books have the same sums. -/
namespace MdfeedItch
open Std FiniteMapSums FeedHandler

/-- The live orders of the reference book and of a book rebuilt from `base` with
the stand-ins `fill`, id by id. -/
structure Twin (base fill reference rebuilt : OrderTable) : Prop where
  later : ∀ x : OrderId, x < firstSynthetic → base[x]? = none → rebuilt[x]? = reference[x]?
  gone : ∀ x : OrderId, x < firstSynthetic → (base[x]?).isSome → rebuilt[x]? = none
  standIn : ∀ x : OrderId, firstSynthetic ≤ x → rebuilt[x]? = fill[x]? ∧ reference[x]? = none

/-- Every order of a table rests in the other one, on the same side and at the
same price, with the same shares. -/
def Untouched (base t : OrderTable) : Prop :=
  ∀ (x : OrderId) (o : OrderState), base[x]? = some o → ∃ o', t[x]? = some o' ∧ o'.toRestingOrder = o.toRestingOrder

instance (base t : OrderTable) : Decidable (Untouched base t) :=
  decidable_of_iff (∀ e ∈ base.toList, (t[e.1]?).map OrderState.toRestingOrder = some e.2.toRestingOrder) <| by
    simp only [Untouched, Option.map_eq_some_iff]
    exact ⟨fun h x o ho => h (x, o) (ExtTreeMap.mem_toList_iff_getElem?_eq_some.mpr ho),
      fun h e he => h e.1 e.2 (ExtTreeMap.mem_toList_iff_getElem?_eq_some.mp he)⟩

variable {base fill t t' : OrderTable}

/-- With the orders of the snapshot untouched both tables have the same sums. -/
theorem Twin.sums (h : Twin base fill t t') (hbase : ∀ (x : OrderId) (o : OrderState), base[x]? = some o → x < firstSynthetic)
    (hfill : ∀ (x : OrderId) (o : OrderState), fill[x]? = some o → firstSynthetic ≤ x) (hqty : levelQty fill = levelQty base)
    (hcount : levelCount fill = levelCount base) (hu : Untouched base t) :
    levelQty t' = levelQty t ∧ levelCount t' = levelCount t := by
  have hbalance : ∀ f : RestingOrder → ℕ, sumOver t (fun o => f o.toRestingOrder) + sumOver fill (fun o => f o.toRestingOrder) =
      sumOver base (fun o => f o.toRestingOrder) + sumOver t' (fun o => f o.toRestingOrder) := by
    intro f
    refine sumOver_balance t fill base t' _ (fun x => ?_)
    by_cases hx : firstSynthetic ≤ x
    · obtain ⟨hsame, hnone⟩ := h.standIn x hx
      have hb : base[x]? = none := by
        by_contra hsome
        obtain ⟨o, ho⟩ := Option.ne_none_iff_exists'.mp hsome
        exact UInt64.not_le.mpr (hbase x o ho) hx
      simp [weightAt, hsame, hnone, hb]
    · have hlt := UInt64.not_le.mp hx
      have hf : fill[x]? = none := by
        by_contra hsome
        obtain ⟨o, ho⟩ := Option.ne_none_iff_exists'.mp hsome
        exact hx (hfill x o ho)
      cases hb : base[x]? with
      | none => simp [weightAt, hf, hb, h.later x hlt hb]
      | some o =>
        obtain ⟨o', ho', hrest⟩ := hu x o hb
        simp [weightAt, hf, hb, ho', hrest, h.gone x hlt (by simp [hb])]
  constructor
  · funext buy p
    have hsum := hbalance (RestingOrder.qtyOn buy p)
    have hbuy := congrFun₂ hqty buy p
    simp only [levelQty] at hbuy ⊢
    omega
  · funext buy p
    have hsum := hbalance (RestingOrder.countOn buy p)
    have hbuy := congrFun₂ hcount buy p
    simp only [levelCount] at hbuy ⊢
    omega

/-- Both tables take an action alike, unless it replaces an order of the snapshot. -/
theorem Twin.step (h : Twin base fill t t') {a : BookAction}
    (hids : ∀ x, a.names = some x ∨ a.introduces = some x → x < firstSynthetic)
    (hnew : ∀ x : OrderId, a.introduces = some x → base[x]? = none)
    (hkept : ∀ x : OrderId, (base[x]?).isSome → ((t.step a.op)[x]?).isSome) : Twin base fill (t.step a.op) (t'.step a.op) := by
  have hoff : ∀ x : OrderId, firstSynthetic ≤ x → a.names ≠ some x ∧ a.introduces ≠ some x := fun x hx =>
    ⟨fun hn => UInt64.not_le.mpr (hids x (Or.inl hn)) hx, fun hi => UInt64.not_le.mpr (hids x (Or.inr hi)) hx⟩
  have hintro : ∀ y, a.introduces = some y → t'[y]? = t[y]? := fun y hy => h.later y (hids y (Or.inr hy)) (hnew y hy)
  have hstand : ∀ x : OrderId, firstSynthetic ≤ x → (t'.step a.op)[x]? = fill[x]? ∧ (t.step a.op)[x]? = none := by
    intro x hx
    obtain ⟨hn, hi⟩ := hoff x hx
    rw [OrderTable.step_off hn hi, OrderTable.step_off hn hi]
    exact h.standIn x hx
  by_cases hold : ∃ x, a.names = some x ∧ (base[x]?).isSome
  · -- the rebuilt table does not know the order, the reference may only change it in place
    obtain ⟨x, hn, hx⟩ := hold
    have hlt := hids x (Or.inl hn)
    rw [OrderTable.step_absent hn (h.gone x hlt hx)] at hstand ⊢
    refine ⟨fun y hy hb => ?_, h.gone, hstand⟩
    have hyn : a.names ≠ some y := by
      intro hy'
      rw [Option.some.inj (hn.symm.trans hy'), hb] at hx
      cases hx
    have hyi : a.introduces ≠ some y := by
      intro hy'
      have hne : x ≠ y := by
        rintro rfl
        exact hyn hn
      have hlive := hkept x hx
      rw [OrderTable.step_replaced hn hy' hne] at hlive
      cases hlive
    rw [OrderTable.step_off hyn hyi]
    exact h.later y hy hb
  · have hnames : ∀ y, a.names = some y → t'[y]? = t[y]? := by
      intro y hy
      refine h.later y (hids y (Or.inl hy)) ?_
      by_contra hsome
      exact hold ⟨y, hy, Option.isSome_iff_ne_none.mpr hsome⟩
    refine ⟨fun x hx hb => OrderTable.step_congr hnames hintro (h.later x hx hb), fun x hx hb => ?_, hstand⟩
    rw [OrderTable.step_off (fun hn => hold ⟨x, hn, hb⟩) (fun hi => ?_)]
    · exact h.gone x hx hb
    · rw [hnew x hi] at hb
      cases hb

/-- The books after further messages. -/
def DepthBook.resume (d : DepthBook) (msgs : List AnyMessage) : DepthBook := msgs.foldl (fun d m => (d.apply m).book) d

theorem DepthBook.resume_concat (d : DepthBook) (msgs : List AnyMessage) (m : AnyMessage) :
    d.resume (msgs ++ [m]) = ((d.resume msgs).apply m).book := by simp [resume]

section CatchUp
variable {depth : ℕ} {sym : Symbol} {pre rest : List AnyMessage} {d : DepthBook} {snap : SnapshotResponse}

theorem DepthBook.Serves.resume (h : d.Serves (symbolKey sym)) (hm : ∀ m ∈ rest, m.Concerns sym) :
    (d.resume rest).Serves (symbolKey sym) := by
  induction rest using List.reverseRecOn with
  | nil => exact h
  | append_singleton rest m ih =>
    rw [resume_concat]
    exact ((ih (fun m' hm' => hm m' (by simp [hm']))).apply (hm m (by simp)) rfl).1

/-- Orders that rest untouched later on do so already now. -/
theorem Untouched.earlier {m : AnyMessage} (h : SymbolStream depth sym (pre ++ rest ++ [m]))
    (hu : Untouched (referenceBook depth sym pre).orders (referenceBook depth sym (pre ++ rest ++ [m])).orders) :
    Untouched (referenceBook depth sym pre).orders (referenceBook depth sym (pre ++ rest)).orders := by
  intro x o ho
  have hrest := h.of_prefix (List.prefix_append (pre ++ rest) [m])
  have hpre := hrest.of_prefix (List.prefix_append pre rest)
  have hx := hpre.reference.introduced x o ho
  obtain ⟨o'', ho'', hsame⟩ := hu x o ho
  obtain ⟨o', ho', hside', hprice', hqty'⟩ := h.fades [m] (by rw [List.filterMap_append]; exact List.mem_append_left _ hx) o'' ho''
  obtain ⟨o1, ho1, hside, hprice, hqty⟩ := hrest.fades rest hx o' ho'
  obtain rfl : o1 = o := Option.some.inj (ho1.symm.trans ho)
  -- the shares can only have gone down in between, and they end where they began
  have hend : o''.qty = o1.qty := congrArg RestingOrder.qty hsame
  have heq : o'.qty = o1.qty := UInt32.le_antisymm hqty (hend ▸ hqty')
  exact ⟨o', ho', RestingOrder.ext hside hprice heq⟩

/-- The snapshot is the visible state of the reference book after `pre`. -/
structure Quotes (depth : ℕ) (sym : Symbol) (pre : List AnyMessage) (snap : SnapshotResponse) : Prop where
  symbol : snap.symbol = sym
  bids : snap.bids = (referenceBook depth sym pre).topBids
  asks : snap.asks = (referenceBook depth sym pre).topAsks

theorem Quotes.rebuild (hq : Quotes depth sym pre snap) (h : SymbolStream depth sym pre) :
    (∀ x o, snap.rebuild.orders[x]? = some o → firstSynthetic ≤ x) ∧
      levelQty snap.rebuild.orders = levelQty (referenceBook depth sym pre).orders ∧
      levelCount snap.rebuild.orders = levelCount (referenceBook depth sym pre).orders := by
  have href := h.reference
  refine rebuild_same href.aggregated (h.sums pre (List.prefix_refl _) _) (fun buy => ?_) (fun x o => h.ids_lt) hq.bids hq.asks
  rw [href.depth_eq]
  exact h.levels pre (List.prefix_refl _) buy

/-- The state of a handler's books that go on from an installed snapshot. -/
structure CaughtUp (depth : ℕ) (sym : Symbol) (pre rest : List AnyMessage) (snap : SnapshotResponse) (d : DepthBook) : Prop where
  serves : d.Serves (symbolKey sym)
  aggregated : (d.bookAt (symbolKey sym)).Aggregated
  depth_eq : (d.bookAt (symbolKey sym)).depth = snap.size
  twin : Twin (referenceBook depth sym pre).orders snap.rebuild.orders (referenceBook depth sym (pre ++ rest)).orders
    (d.bookAt (symbolKey sym)).orders

theorem CaughtUp.sums (h : CaughtUp depth sym pre rest snap d) (hs : SymbolStream depth sym pre)
    (hq : Quotes depth sym pre snap)
    (hu : Untouched (referenceBook depth sym pre).orders (referenceBook depth sym (pre ++ rest)).orders) :
    levelQty (d.bookAt (symbolKey sym)).orders = levelQty (referenceBook depth sym (pre ++ rest)).orders ∧
      levelCount (d.bookAt (symbolKey sym)).orders = levelCount (referenceBook depth sym (pre ++ rest)).orders := by
  obtain ⟨hfrom, hqty, hcount⟩ := hq.rebuild hs
  exact h.twin.sums (fun x o => hs.ids_lt) hfrom hqty hcount hu

theorem CaughtUp.of_install (hd : d.Serves (symbolKey sym)) (hs : SymbolStream depth sym pre) (hq : Quotes depth sym pre snap) :
    CaughtUp depth sym pre [] snap (d.install snap) := by
  obtain ⟨hfrom, -, -⟩ := hq.rebuild hs
  obtain ⟨hagg, hsize⟩ := rebuild_kept snap
  have hkey : symbolKey snap.symbol = symbolKey sym := congrArg symbolKey hq.symbol
  have hbook : (d.install snap).bookAt (symbolKey sym) = snap.rebuild := by rw [install_bookAt, if_pos hkey]
  have hnone : ∀ x : OrderId, x < firstSynthetic → snap.rebuild.orders[x]? = none := by
    intro x hx
    by_contra hsome
    obtain ⟨o, ho⟩ := Option.ne_none_iff_exists'.mp hsome
    exact UInt64.not_le.mpr hx (hfrom x o ho)
  refine ⟨hd.install hkey hfrom, hbook ▸ hagg, hbook ▸ hsize, ⟨fun x hx hb => ?_, fun x hx _ => ?_, fun x hx => ⟨?_, ?_⟩⟩⟩
  · rw [hbook, hnone x hx, List.append_nil, hb]
  · rw [hbook, hnone x hx]
  · rw [hbook]
  · rw [List.append_nil]
    by_contra hsome
    obtain ⟨o, ho⟩ := Option.ne_none_iff_exists'.mp hsome
    exact UInt64.not_le.mpr (hs.ids_lt ho) hx

theorem CaughtUp.apply {m : AnyMessage} (h : CaughtUp depth sym pre rest snap d) (hs : SymbolStream depth sym (pre ++ rest ++ [m]))
    (hq : Quotes depth sym pre snap)
    (hu : Untouched (referenceBook depth sym pre).orders (referenceBook depth sym (pre ++ rest ++ [m])).orders) :
    CaughtUp depth sym pre (rest ++ [m]) snap (d.apply m).book := by
  have hrest := hs.of_prefix (List.prefix_append (pre ++ rest) [m])
  have hpre := hrest.of_prefix (List.prefix_append pre rest)
  have hsub : pre ++ rest <+: pre ++ rest ++ [m] := List.prefix_append (pre ++ rest) [m]
  have hm : m.Concerns sym := hs.concerns m (by simp)
  obtain ⟨hserves, hbook⟩ := h.serves.apply hm rfl
  obtain ⟨-, href⟩ := hs.exec_concat hrest.reference.serves
  have hsmall : ∀ buy p, levelQty (d.bookAt (symbolKey sym)).orders buy p < 2 ^ 32 := by
    rw [(h.sums hpre hq (hu.earlier hs)).1]
    exact hrest.sums (pre ++ rest) (List.prefix_refl _) (symbolKey sym)
  cases ha : m.action with
  | none =>
    rw [ha, Option.elim_none] at hbook href
    refine ⟨hserves, hbook ▸ h.aggregated, hbook ▸ h.depth_eq, ?_⟩
    rw [hbook, ← List.append_assoc, href]
    exact h.twin
  | some a =>
    rw [ha, Option.elim_some] at hbook href
    have horders : (d.bookAt (symbolKey sym)).orders.QtyPos := h.aggregated.qtyPos
    refine ⟨hserves, ?_, ?_, ?_⟩
    · rw [hbook]
      exact h.aggregated.exec a.op (CountsFit.of_small horders hsmall) (KeepsLevels.of_small (horders.withdraw a.op) hsmall)
    · rw [hbook, SymbolBook.exec_depth, h.depth_eq]
    · have hafter : (referenceBook depth sym (pre ++ rest ++ [m])).orders = (referenceBook depth sym (pre ++ rest)).orders.step a.op := by
        rw [href, SymbolBook.exec_orders hrest.reference.aggregated.qtyPos]
      rw [hbook, SymbolBook.exec_orders horders, ← List.append_assoc, hafter]
      refine h.twin.step (hm.ids ha) (fun x hi => ?_) (fun x hx => ?_)
      · by_contra hsome
        obtain ⟨o, ho⟩ := Option.ne_none_iff_exists'.mp hsome
        refine hs.introduces_new ha hi ?_
        rw [List.filterMap_append]
        exact List.mem_append_left _ (hpre.reference.introduced x o ho)
      · obtain ⟨o, ho⟩ := Option.isSome_iff_exists.mp hx
        obtain ⟨o', ho', -⟩ := hu x o ho
        rw [← hafter, ho']
        rfl

/-- Installed at one point of the stream and resumed from there, the books stay twins. -/
theorem CaughtUp.resume (hd : d.Serves (symbolKey sym)) (hs : SymbolStream depth sym (pre ++ rest))
    (hq : Quotes depth sym pre snap)
    (hu : Untouched (referenceBook depth sym pre).orders (referenceBook depth sym (pre ++ rest)).orders) :
    CaughtUp depth sym pre rest snap ((d.install snap).resume rest) := by
  induction rest using List.reverseRecOn with
  | nil => exact CaughtUp.of_install hd (hs.of_prefix (List.prefix_append pre [])) hq
  | append_singleton rest m ih =>
    rw [← List.append_assoc] at hs hu
    rw [DepthBook.resume_concat]
    exact (ih (hs.of_prefix (List.prefix_append (pre ++ rest) [m])) (hu.earlier hs)).apply hs hq hu

/-- A side that has not outgrown the snapshot shows what the reference shows. -/
theorem CaughtUp.top_eq (h : CaughtUp depth sym pre rest snap d) (hs : SymbolStream depth sym (pre ++ rest))
    (hq : Quotes depth sym pre snap)
    (hu : Untouched (referenceBook depth sym pre).orders (referenceBook depth sym (pre ++ rest)).orders) {buy : Bool}
    (hroom : (livePrices (referenceBook depth sym (pre ++ rest)).orders buy).card ≤ snap.size) :
    (d.bookAt (symbolKey sym)).top buy = (referenceBook depth sym (pre ++ rest)).top buy := by
  have href := hs.reference
  obtain ⟨hqty, hcount⟩ := h.sums (hs.of_prefix (List.prefix_append pre rest)) hq hu
  refine href.aggregated.top_eq h.aggregated hqty hcount ?_ (h.depth_eq ▸ hroom)
  rw [href.depth_eq]
  exact hs.levels (pre ++ rest) (List.prefix_refl _) buy

end CatchUp

end MdfeedItch
