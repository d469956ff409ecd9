import MdfeedItch.SnapshotDepth

/-! # A stream of messages about one symbol

What a message does to a book of its symbol, id by id, and the stream's own
promises: order ids are used once and lie below the synthetic ones, price levels
fit in the depth and sums in 32 bits. `Serves` is what a depth book needs to
follow such a stream, with or without stand-in orders in the symbol's book. -/
namespace MdfeedItch
open Std FiniteMapSums FeedHandler

namespace BookAction

/-- The call that an action makes on the book of its order. -/
def op : BookAction → BookOp
  | .add m => .add m.orderId m.side m.price m.shares m.ts
  | .reduce id shares ts => .reduce id shares ts
  | .delete id ts => .delete id ts
  | .replace m => .replace m.originalOrderId m.newOrderId m.price m.shares m.ts

/-- The id under which an action may enter an order. -/
def introduces : BookAction → Option OrderId
  | .add m => some m.orderId
  | .replace m => some m.newOrderId
  | _ => none

/-- The symbol that an action names itself. -/
def symbol : BookAction → Option Symbol
  | .add m => some m.symbol
  | _ => none

end BookAction

namespace OrderTable

theorem lookup_place (t : OrderTable) (id x : OrderId) (o : OrderState) :
    (t.place id o)[x]? = if x = id ∧ o.qty ≠ 0 ∧ t[id]? = none then some o else t[x]? := by
  unfold place
  cases hid : t[id]? with
  | some o' => simp
  | none =>
    by_cases hq : o.qty = 0
    · simp [hq]
    · simp [hq, lookup_insert]

theorem lookup_reduce (t : OrderTable) (id x : OrderId) (delta : Quantity) (ts : Timestamp) :
    (t.step (.reduce id delta ts))[x]? = if x = id then
      (t[id]?).bind (fun o => if o.qty ≤ delta ∨ o.qty - delta = 0 then none else some ⟨⟨o.side, o.price, o.qty - delta⟩, ts⟩)
      else t[x]? := by
  simp only [step, resize]
  cases hid : t[id]? with
  | none =>
    by_cases hx : x = id
    · rw [hx, hid]
      simp
    · simp [hx]
  | some o =>
    by_cases hle : o.qty ≤ delta
    · simp [hle, lookup_erase]
    · by_cases hz : o.qty - delta = 0
      · simp [hle, hz, lookup_erase]
      · simp [hle, hz, lookup_insert]

theorem lookup_replace (t : OrderTable) (id newId x : OrderId) (price : Price) (qty : Quantity) (ts : Timestamp) :
    (t.step (.replace id newId price qty ts))[x]? = (t[id]?).elim (t[x]?) (fun o =>
      if x = newId ∧ qty ≠ 0 ∧ (newId = id ∨ t[newId]? = none) then some ⟨⟨o.side, price, qty⟩, ts⟩
      else if x = id then none else t[x]?) := by
  simp only [step]
  cases hid : t[id]? with
  | none => rfl
  | some o =>
    simp only [lookup_place, lookup_erase, Option.elim_some]
    grind

variable {t t' : OrderTable} {a : BookAction} {x : OrderId}

/-- A call touches only the order it names and the one it introduces. -/
theorem step_off (hn : a.names ≠ some x) (hi : a.introduces ≠ some x) : (t.step a.op)[x]? = t[x]? := by
  cases a with
  | add m =>
    have hx : x ≠ m.orderId := fun he => hi (congrArg some he.symm)
    exact (t.lookup_place m.orderId x _).trans (if_neg (fun h => hx h.1))
  | reduce id shares ts =>
    have hx : x ≠ id := fun he => hn (congrArg some he.symm)
    exact (t.lookup_reduce id x shares ts).trans (if_neg hx)
  | delete id ts =>
    have hx : x ≠ id := fun he => hn (congrArg some he.symm)
    exact (lookup_erase t id x).trans (if_neg hx)
  | replace m =>
    have hx : x ≠ m.originalOrderId := fun he => hn (congrArg some he.symm)
    have hx' : x ≠ m.newOrderId := fun he => hi (congrArg some he.symm)
    refine (t.lookup_replace _ _ x _ _ _).trans ?_
    cases t[m.originalOrderId]? <;> simp [hx, hx']

/-- What it does to an id is decided by the orders under these ids. -/
theorem step_congr (hn : ∀ y, a.names = some y → t[y]? = t'[y]?) (hi : ∀ y, a.introduces = some y → t[y]? = t'[y]?)
    (hx : t[x]? = t'[x]?) : (t.step a.op)[x]? = (t'.step a.op)[x]? := by
  cases a with
  | add m =>
    refine (t.lookup_place m.orderId x _).trans ((t'.lookup_place m.orderId x _).trans ?_).symm
    rw [hx, hi m.orderId rfl]
  | reduce id shares ts =>
    refine (t.lookup_reduce id x shares ts).trans ((t'.lookup_reduce id x shares ts).trans ?_).symm
    rw [hx, hn id rfl]
  | delete id ts =>
    refine (lookup_erase t id x).trans ((lookup_erase t' id x).trans ?_).symm
    rw [hx]
  | replace m =>
    refine (t.lookup_replace _ _ x _ _ _).trans ((t'.lookup_replace _ _ x _ _ _).trans ?_).symm
    rw [hx, hn m.originalOrderId rfl, hi m.newOrderId rfl]

/-- An action that names an order which is not live does nothing. -/
theorem step_absent (hn : a.names = some x) (hx : t[x]? = none) : t.step a.op = t := by
  cases a with
  | add m => cases hn
  | reduce id shares ts =>
    cases hn
    simp [BookAction.op, step, hx]
  | delete id ts =>
    cases hn
    exact erase_of_none hx
  | replace m =>
    cases hn
    simp [BookAction.op, step, hx]

/-- A Replace takes the order it names away. -/
theorem step_replaced {y : OrderId} (hn : a.names = some x) (hi : a.introduces = some y) (hne : x ≠ y) :
    (t.step a.op)[x]? = none := by
  cases a with
  | add m => cases hn
  | reduce id shares ts => cases hi
  | delete id ts => cases hi
  | replace m =>
    cases hn
    cases hi
    refine (t.lookup_replace _ _ m.originalOrderId _ _ _).trans ?_
    cases t[m.originalOrderId]? <;> simp [hne]

/-- An order that is live afterwards was live before, at the same price and with no fewer shares. -/
def Fades (t t' : OrderTable) (x : OrderId) : Prop :=
  ∀ o', t'[x]? = some o' → ∃ o, t[x]? = some o ∧ o'.side = o.side ∧ o'.price = o.price ∧ o'.qty ≤ o.qty

theorem Fades.of_eq (h : t'[x]? = t[x]?) : Fades t t' x := fun o' ho' =>
  ⟨o', h ▸ ho', rfl, rfl, UInt32.le_refl _⟩

theorem Fades.trans {t'' : OrderTable} (h : Fades t t' x) (h' : Fades t' t'' x) : Fades t t'' x := by
  intro o'' ho''
  obtain ⟨o', ho', hside', hprice', hqty'⟩ := h' o'' ho''
  obtain ⟨o, ho, hside, hprice, hqty⟩ := h o' ho'
  exact ⟨o, ho, hside'.trans hside, hprice'.trans hprice, UInt32.le_trans hqty' hqty⟩

/-- Orders only fade as long as their id is not introduced again. -/
theorem step_fades (hi : a.introduces ≠ some x) : Fades t (t.step a.op) x := by
  by_cases hn : a.names = some x
  · cases a with
    | add m => cases hn
    | reduce id shares ts =>
      cases hn
      intro o' ho'
      have hlookup := (t.lookup_reduce x x shares ts).symm.trans ho'
      rw [if_pos rfl, Option.bind_eq_some_iff] at hlookup
      obtain ⟨o, ho, hcut⟩ := hlookup
      split_ifs at hcut with hleft
      cases hcut
      refine ⟨o, ho, rfl, rfl, ?_⟩
      have hle : shares ≤ o.qty := UInt32.le_of_lt (UInt32.not_le.mp (fun h => hleft (Or.inl h)))
      rw [UInt32.le_iff_toNat_le, UInt32.toNat_sub_of_le _ _ hle]
      exact Nat.sub_le _ _
    | delete id ts =>
      cases hn
      intro o' ho'
      have hlookup := (lookup_erase t x x).symm.trans ho'
      rw [if_pos rfl] at hlookup
      cases hlookup
    | replace m =>
      have hne : x ≠ m.newOrderId := fun he => hi (congrArg some he.symm)
      intro o' ho'
      rw [step_replaced hn rfl hne] at ho'
      cases ho'
  · exact Fades.of_eq (step_off hn hi)

end OrderTable

/-- Every index entry leads to one key, and the orders there with ids of the
stream have one. Stand-in orders need none. -/
structure DepthBook.Serves (d : DepthBook) (key : SymbolKey) : Prop where
  keyed : d.WellKeyed
  only : ∀ (x : OrderId) (k : SymbolKey), d.orderToSymbol[x]? = some k → k = key
  indexed : ∀ x : OrderId, x < firstSynthetic → (d.bookAt key).hasOrder x → d.orderToSymbol[x]? = some key
  qtyPos : (d.bookAt key).orders.QtyPos

/-- The message adds orders of this symbol only, and its order ids are below the synthetic ones. -/
def AnyMessage.Concerns (m : AnyMessage) (sym : Symbol) : Prop :=
  ∀ a ∈ m.action, (∀ s ∈ a.symbol, s = sym) ∧ (∀ x ∈ a.names, x < firstSynthetic) ∧ ∀ x ∈ a.introduces, x < firstSynthetic

instance (m : AnyMessage) (sym : Symbol) : Decidable (m.Concerns sym) :=
  decidable_of_iff (m.action.all (fun a => a.symbol.all (fun s => decide (s = sym)) &&
    (a.names.all (fun x => decide (x < firstSynthetic)) && a.introduces.all (fun x => decide (x < firstSynthetic)))) = true) <| by
      simp [AnyMessage.Concerns, Option.all_eq_true]

theorem AnyMessage.Concerns.ids {m : AnyMessage} {sym : Symbol} (h : m.Concerns sym) {a : BookAction} (ha : m.action = some a)
    (x : OrderId) (hx : a.names = some x ∨ a.introduces = some x) : x < firstSynthetic :=
  hx.elim ((h a ha).2.1 x) ((h a ha).2.2 x)

namespace DepthBook.Serves

variable {d d' : DepthBook} {key : SymbolKey} {a : BookAction}

theorem of_new (depth : ℕ) (key : SymbolKey) : (DepthBook.new depth).Serves key := by
  refine ⟨new_wellKeyed depth, fun x k hx => ?_, fun x _ hx => ?_, fun x o hx => ?_⟩
  · simp [DepthBook.new] at hx
  · simp [DepthBook.new, bookAt, SymbolBook.hasOrder, SymbolBook.new] at hx
  · simp [DepthBook.new, bookAt, SymbolBook.new] at hx

/-- Whatever the index says, the action takes effect where its order is. -/
theorem exec (h : d.Serves key) (hf : d.Follows a d') (hsym : ∀ m, a = .add m → symbolKey m.symbol = key)
    (hids : ∀ x, a.names = some x → x < firstSynthetic) : d'.bookAt key = (d.bookAt key).exec a.op := by
  have hdead : ∀ x, a.names = some x → d.orderToSymbol[x]? ≠ some key → (d.bookAt key).hasOrder x = false := by
    intro x hx hindex
    by_contra hlive
    exact hindex (h.indexed x (hids x hx) (by simpa using hlive))
  rw [hf.books, bookAfter]
  cases a with
  | add m => simp [callAt, hsym m rfl, BookAction.op]
  | reduce id shares ts =>
    by_cases hindex : d.orderToSymbol[id]? = some key
    · simp [callAt, hindex, BookAction.op]
    · simp [callAt, hindex, BookAction.op, (SymbolBook.exec_absent (hdead id rfl hindex)).1]
  | delete id ts =>
    by_cases hindex : d.orderToSymbol[id]? = some key
    · simp [callAt, hindex, BookAction.op]
    · simp [callAt, hindex, BookAction.op, (SymbolBook.exec_absent (hdead id rfl hindex)).2.1]
  | replace m =>
    by_cases hindex : d.orderToSymbol[m.originalOrderId]? = some key
    · simp [callAt, hindex, BookAction.op]
    · simp [callAt, hindex, BookAction.op, (SymbolBook.exec_absent (hdead _ rfl hindex)).2.2]

theorem orders (h : d.Serves key) (hf : d.Follows a d') (hsym : ∀ m, a = .add m → symbolKey m.symbol = key)
    (hids : ∀ x, a.names = some x → x < firstSynthetic) :
    (d'.bookAt key).orders = (d.bookAt key).orders.step a.op := by
  rw [h.exec hf hsym hids, SymbolBook.exec_orders h.qtyPos]

/-- After an Execute, Cancel or Delete every order left has its index entry. -/
theorem indexed_after_withdrawal (h : d.Serves key) (hf : d.Follows a d') (hids : ∀ x, a.names = some x → x < firstSynthetic)
    (hkind : (∃ id shares ts, a = .reduce id shares ts) ∨ ∃ id ts, a = .delete id ts) {x : OrderId}
    (hx : x < firstSynthetic) (hlive : (d'.bookAt key).hasOrder x) : d'.orderToSymbol[x]? = some key := by
  have hnone : a.introduces = none := by
    rcases hkind with ⟨id, shares, ts, rfl⟩ | ⟨id, ts, rfl⟩ <;> rfl
  have hadd : ∀ m, a = .add m → symbolKey m.symbol = key := by
    rintro m rfl
    cases hnone
  have hbefore : (d.bookAt key).hasOrder x := by
    rw [SymbolBook.hasOrder, h.orders hf hadd hids, Option.isSome_iff_exists] at hlive
    obtain ⟨o', ho'⟩ := hlive
    obtain ⟨o, ho, -⟩ := OrderTable.step_fades (by rw [hnone]; simp) o' ho'
    simp [SymbolBook.hasOrder, ho]
  have hindex := h.indexed x hx hbefore
  rw [hf.index]
  -- the entry goes only with the order, and the order is still there
  rcases hkind with ⟨id, shares, ts, rfl⟩ | ⟨id, ts, rfl⟩
  all_goals
    cases hid : d.orderToSymbol[id]? with
    | none => simpa [indexAfter, hid] using hindex
    | some k =>
      obtain rfl := h.only id k hid
      rw [hf.books] at hlive
      simp only [indexAfter, hid]
      rw [if_neg, hindex]
      rintro ⟨rfl, -, hgone⟩
      exact hgone hlive

theorem indexed_after_replace {m : OrderReplaceMsg} (h : d.Serves key) (hf : d.Follows (.replace m) d')
    (hids : m.originalOrderId < firstSynthetic) {x : OrderId} (hx : x < firstSynthetic)
    (hlive : (d'.bookAt key).hasOrder x) : d'.orderToSymbol[x]? = some key := by
  have horders := h.orders hf (fun _ hm => by cases hm) (fun _ hy => by cases hy; exact hids)
  rw [SymbolBook.hasOrder, horders] at hlive
  rw [hf.index]
  cases hold : (d.bookAt key).orders[m.originalOrderId]? with
  | none =>
    rw [OrderTable.step_absent rfl hold] at hlive
    have hdead : (d.bookAt key).hasOrder m.originalOrderId = false := SymbolBook.hasOrder_eq_false.mpr hold
    have hindex := h.indexed x hx hlive
    cases hid : d.orderToSymbol[m.originalOrderId]? with
    | none => simpa [indexAfter, hid] using hindex
    | some k =>
      obtain rfl := h.only _ k hid
      simpa [indexAfter, hid, hdead] using hindex
  | some o =>
    have hthere : (d.bookAt key).hasOrder m.originalOrderId := by simp [SymbolBook.hasOrder, hold]
    have hid := h.indexed _ hids hthere
    simp only [indexAfter, hid, hthere, if_true]
    split_ifs with hnew hgone
    · rfl
    · rw [OrderTable.step_replaced (a := .replace m) (congrArg some hgone.symm) rfl hnew] at hlive
      cases hlive
    · rw [OrderTable.step_off (a := .replace m) (fun hn => hgone (Option.some.inj hn).symm) (fun hi => hnew (Option.some.inj hi).symm)] at hlive
      exact h.indexed x hx hlive

theorem follows (h : d.Serves key) (hf : d.Follows a d') (hsym : ∀ m, a = .add m → symbolKey m.symbol = key)
    (hids : ∀ x, a.names = some x → x < firstSynthetic) : d'.Serves key := by
  have horders := h.orders hf hsym hids
  refine ⟨hf.keyed, fun x k hx => ?_, fun x hx hlive => ?_, ?_⟩
  · rw [hf.index] at hx
    rcases indexAfter_origin hx with hold | ⟨m, ha, rfl⟩ | ⟨m, -, hold⟩
    · exact h.only x k hold
    · exact hsym m ha
    · exact h.only _ k hold
  · cases a with
    | add m =>
      rw [hf.index, indexAfter]
      split_ifs with hid
      · rw [hsym m rfl]
      · rw [SymbolBook.hasOrder, horders, OrderTable.step_off (a := .add m) (by simp [BookAction.names])
          (fun hi => hid (Option.some.inj hi).symm)] at hlive
        exact h.indexed x hx hlive
    | reduce id shares ts => exact h.indexed_after_withdrawal hf hids (Or.inl ⟨id, shares, ts, rfl⟩) hx hlive
    | delete id ts => exact h.indexed_after_withdrawal hf hids (Or.inr ⟨id, ts, rfl⟩) hx hlive
    | replace m => exact h.indexed_after_replace hf (hids _ rfl) hx hlive
  · rw [horders]
    exact h.qtyPos.step a.op

/-- One message, whichever it is. -/
theorem apply (h : d.Serves key) {m : AnyMessage} {sym : Symbol} (hm : m.Concerns sym) (hkey : symbolKey sym = key) :
    (d.apply m).book.Serves key ∧
      (d.apply m).book.bookAt key = m.action.elim (d.bookAt key) (fun a => (d.bookAt key).exec a.op) := by
  have hf := apply_follows h.keyed m
  cases ha : m.action with
  | none =>
    rw [ha] at hf
    rw [hf]
    exact ⟨h, rfl⟩
  | some a =>
    rw [ha] at hf
    have hsym : ∀ b, a = .add b → symbolKey b.symbol = key := by
      rintro b rfl
      rw [(hm _ ha).1 b.symbol rfl, hkey]
    have hids : ∀ x, a.names = some x → x < firstSynthetic := fun x hx => hm.ids ha x (Or.inl hx)
    exact ⟨h.follows hf hsym hids, h.exec hf hsym hids⟩

/-- Installing a snapshot leaves the index as it is, old entries included. -/
theorem install (h : d.Serves key) {snap : SnapshotResponse} (hkey : symbolKey snap.symbol = key)
    (hfrom : ∀ x o, snap.rebuild.orders[x]? = some o → firstSynthetic ≤ x) : (d.install snap).Serves key := by
  have hindex := install_orderToSymbol d snap
  have hbook : (d.install snap).bookAt key = snap.rebuild := by rw [install_bookAt, if_pos hkey]
  refine ⟨(install_wellKeyed h.keyed snap).1, fun x k hx => ?_, fun x hx hlive => ?_, ?_⟩
  · rw [hindex] at hx
    exact h.only x k hx
  · rw [hbook] at hlive
    obtain ⟨o, ho⟩ := Option.isSome_iff_exists.mp hlive
    exact absurd (hfrom x o ho) (UInt64.not_le.mpr hx)
  · rw [hbook]
    exact (rebuild_kept snap).1.qtyPos

end DepthBook.Serves

/-- The message's part in a stream that uses every order id once. -/
def AnyMessage.introduces (m : AnyMessage) : Option OrderId := m.action.bind BookAction.introduces

/-- A stream about one symbol whose reference book of the given depth shows all its levels. -/
structure SymbolStream (depth : ℕ) (sym : Symbol) (msgs : List AnyMessage) : Prop where
  concerns : ∀ m ∈ msgs, m.Concerns sym
  fresh : (msgs.filterMap AnyMessage.introduces).Nodup
  levels : ∀ pre, pre <+: msgs → ∀ buy,
    (livePrices ((DepthBook.applyAll depth pre).bookAt (symbolKey sym)).orders buy).card ≤ depth
  sums : ∀ pre, pre <+: msgs → LevelSumsFit (DepthBook.applyAll depth pre)

/-- The symbol's book after a stream. -/
def referenceBook (depth : ℕ) (sym : Symbol) (msgs : List AnyMessage) : SymbolBook :=
  (DepthBook.applyAll depth msgs).bookAt (symbolKey sym)

section Stream
variable {depth : ℕ} {sym : Symbol} {msgs pre : List AnyMessage} {m : AnyMessage}

theorem SymbolStream.of_prefix (h : SymbolStream depth sym msgs) (hpre : pre <+: msgs) : SymbolStream depth sym pre := by
  refine ⟨fun m hm => h.concerns m (hpre.subset hm), ?_, fun p hp => h.levels p (hp.trans hpre),
    fun p hp => h.sums p (hp.trans hpre)⟩
  exact h.fresh.sublist (hpre.sublist.filterMap AnyMessage.introduces)

/-- The reference book carries the sums of its orders, and the stream has introduced each of them. -/
structure Reference (depth : ℕ) (sym : Symbol) (msgs : List AnyMessage) : Prop where
  serves : (DepthBook.applyAll depth msgs).Serves (symbolKey sym)
  aggregated : (referenceBook depth sym msgs).Aggregated
  depth_eq : (referenceBook depth sym msgs).depth = depth
  introduced : ∀ x o, (referenceBook depth sym msgs).orders[x]? = some o → x ∈ msgs.filterMap AnyMessage.introduces

theorem SymbolStream.exec_concat (h : SymbolStream depth sym (msgs ++ [m]))
    (hserves : (DepthBook.applyAll depth msgs).Serves (symbolKey sym)) :
    (DepthBook.applyAll depth (msgs ++ [m])).Serves (symbolKey sym) ∧ referenceBook depth sym (msgs ++ [m]) =
      m.action.elim (referenceBook depth sym msgs) (fun a => (referenceBook depth sym msgs).exec a.op) := by
  rw [referenceBook, DepthBook.applyAll_concat]
  exact hserves.apply (h.concerns m (by simp)) rfl

theorem SymbolStream.reference (h : SymbolStream depth sym msgs) : Reference depth sym msgs := by
  induction msgs using List.reverseRecOn with
  | nil =>
    refine ⟨DepthBook.Serves.of_new depth _, ?_, ?_, fun x o hx => ?_⟩
    · simpa [referenceBook, DepthBook.applyAll, DepthBook.new, DepthBook.bookAt] using SymbolBook.new_aggregated depth
    · simp [referenceBook, DepthBook.applyAll, DepthBook.new, DepthBook.bookAt, SymbolBook.new]
    · simp [referenceBook, DepthBook.applyAll, DepthBook.new, DepthBook.bookAt, SymbolBook.new] at hx
  | append_singleton msgs m ih =>
    have hsub : msgs <+: msgs ++ [m] := List.prefix_append msgs [m]
    obtain ⟨hserves, hagg, hdepth, hintro⟩ := ih (h.of_prefix hsub)
    obtain ⟨hserves', hbook⟩ := h.exec_concat hserves
    have hsums := h.sums msgs hsub (symbolKey sym)
    have hmem : ∀ x, x ∈ msgs.filterMap AnyMessage.introduces ∨ m.introduces = some x →
        x ∈ (msgs ++ [m]).filterMap AnyMessage.introduces := by
      intro x hx
      rw [List.filterMap_append, List.mem_append]
      refine hx.imp_right (fun hm => ?_)
      exact List.mem_filterMap.mpr ⟨m, by simp, hm⟩
    cases ha : m.action with
    | none =>
      rw [ha, Option.elim_none] at hbook
      rw [← hbook] at hagg hdepth hintro
      exact ⟨hserves', hagg, hdepth, fun x o hx => hmem x (Or.inl (hintro x o hx))⟩
    | some a =>
      rw [ha, Option.elim_some] at hbook
      refine ⟨hserves', ?_, ?_, fun x o hx => hmem x ?_⟩
      · rw [hbook]
        exact hagg.exec a.op (CountsFit.of_small hagg.qtyPos hsums) (KeepsLevels.of_small (hagg.qtyPos.withdraw a.op) hsums)
      · rw [hbook, SymbolBook.exec_depth, hdepth]
      · rw [hbook, SymbolBook.exec_orders hagg.qtyPos] at hx
        by_cases hi : a.introduces = some x
        · exact Or.inr (by rw [AnyMessage.introduces, ha, Option.bind_some, hi])
        · obtain ⟨o', ho', -⟩ := OrderTable.step_fades hi o hx
          exact Or.inl (hintro x o' ho')

/-- Ids of orders in the reference book are below the synthetic ones. -/
theorem SymbolStream.ids_lt (h : SymbolStream depth sym msgs) {x : OrderId} {o : OrderState}
    (hx : (referenceBook depth sym msgs).orders[x]? = some o) : x < firstSynthetic := by
  obtain ⟨m, hm, hi⟩ := List.mem_filterMap.mp (h.reference.introduced x o hx)
  obtain ⟨a, ha, hi⟩ := Option.bind_eq_some_iff.mp hi
  exact (h.concerns m hm).ids ha x (Or.inr hi)

/-- A message introduces no id that an earlier one did. -/
theorem SymbolStream.introduces_new (h : SymbolStream depth sym (msgs ++ [m])) {a : BookAction} (ha : m.action = some a)
    {x : OrderId} (hi : a.introduces = some x) : x ∉ msgs.filterMap AnyMessage.introduces := by
  intro hx
  have hfresh := h.fresh
  rw [List.filterMap_append, List.nodup_append] at hfresh
  have hm : m.introduces = some x := by rw [AnyMessage.introduces, ha, Option.bind_some, hi]
  exact hfresh.2.2 x hx x (List.mem_filterMap.mpr ⟨m, by simp, hm⟩) rfl

/-- An order only fades from one point of the stream to a later one. -/
theorem SymbolStream.fades (rest : List AnyMessage) (h : SymbolStream depth sym (pre ++ rest)) {x : OrderId}
    (hx : x ∈ pre.filterMap AnyMessage.introduces) :
    OrderTable.Fades (referenceBook depth sym pre).orders (referenceBook depth sym (pre ++ rest)).orders x := by
  induction rest using List.reverseRecOn with
  | nil =>
    rw [List.append_nil]
    exact OrderTable.Fades.of_eq rfl
  | append_singleton rest m ih =>
    rw [← List.append_assoc] at h ⊢
    have hrest := h.of_prefix (List.prefix_append (pre ++ rest) [m])
    refine (ih hrest).trans ?_
    rw [(h.exec_concat hrest.reference.serves).2]
    cases ha : m.action with
    | none => exact OrderTable.Fades.of_eq rfl
    | some a =>
      rw [Option.elim_some, SymbolBook.exec_orders hrest.reference.aggregated.qtyPos]
      refine OrderTable.step_fades (fun hi => h.introduces_new ha hi ?_)
      rw [List.filterMap_append]
      exact List.mem_append_left _ hx

end Stream

end MdfeedItch
