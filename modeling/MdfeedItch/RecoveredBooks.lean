import MdfeedItch.Reconciliation
import MdfeedItch.RecoveringStreams
import MdfeedItch.RecoveryConvergence

/-! # The books of a recovering handler

When the streams of the locates are about symbols and orders of their own, the
publisher's books and the handler's split into one part a locate, and each part of
the handler's is the state of a replica of the locate's log. What the replica shows
is then known: the publisher's levels at its position, unless the orders of its last
snapshot have changed since. -/
namespace MdfeedItch
open Std FiniteMapSums FeedHandler LogReplication

/-- A served feed whose locates have symbols and orders of their own, each small
enough for the depth of the books. -/
structure RecoverableFeed (depth : ℕ) (symByLoc : ExtTreeMap StockLocate Symbol) (published : List (List UInt8)) : Prop
    extends Served symByLoc published where
  streams : ∀ (loc : StockLocate) (sym : Symbol), symByLoc[loc]? = some sym → SymbolStream depth sym (messagesOn loc published)
  symbols : ∀ {loc loc' : StockLocate} {sym : Symbol}, symByLoc[loc]? = some sym → symByLoc[loc']? = some sym → loc = loc'
  orderIds : ∀ {loc loc' : StockLocate}, loc ≠ loc' → ∀ m ∈ messagesOn loc published, ∀ m' ∈ messagesOn loc' published,
    List.Disjoint m.orderIds m'.orderIds

namespace RecoverableFeed
variable {depth : ℕ} {symByLoc : ExtTreeMap StockLocate Symbol} {published : List (List UInt8)}

/-- A locate owns its symbol and the orders of its messages. -/
def ownership (h : RecoverableFeed depth symByLoc published) : Ownership where
  keys loc k := ∃ sym, symByLoc[loc]? = some sym ∧ symbolKey sym = k
  ids loc x := ∃ m ∈ messagesOn loc published, x ∈ m.orderIds
  keys_unique := by
    rintro loc loc' k ⟨sym, hsym, rfl⟩ ⟨sym', hsym', hkey⟩
    rw [symbolKey_injective hkey] at hsym'
    exact h.symbols hsym hsym'
  ids_unique := by
    rintro loc loc' x ⟨m, hm, hx⟩ ⟨m', hm', hx'⟩
    by_contra hne
    exact h.orderIds hne m hm m' hm' hx hx'

theorem keeps (h : RecoverableFeed depth symByLoc published) {loc : StockLocate} {sym : Symbol}
    (hsym : symByLoc[loc]? = some sym) {m : AnyMessage} (hm : m ∈ messagesOn loc published) {a : BookAction}
    (ha : m.action = some a) : h.ownership.Keeps loc a := by
  refine Ownership.keeps_of_mentions (fun b hb => ?_) (fun x hx => ⟨m, hm, hx⟩) ha
  have hown := ((h.streams loc sym hsym).concerns m hm _ ha).1
  exact ⟨sym, hsym, congrArg symbolKey (hown b.symbol (by rw [hb]; rfl)).symm⟩

end RecoverableFeed

/-! ## One locate's part -/

/-- The snapshot of a locate that was installed last. -/
def lastInstalledOn (loc : StockLocate) (t : List Effect) : Option SnapshotResponse :=
  lastInstalled (t.filter (fun x => x.locate = loc))

theorem lastInstalledOn_append_elsewhere {loc : StockLocate} (t : List Effect) {fx : List Effect}
    (hfx : ∀ x ∈ fx, x.locate ≠ loc) : lastInstalledOn loc (t ++ fx) = lastInstalledOn loc t := by
  have hnil : fx.filter (fun x => x.locate = loc) = [] :=
    List.filter_eq_nil_iff.mpr (fun x hx hloc => hfx x hx (of_decide_eq_true hloc))
  rw [lastInstalledOn, List.filter_append, hnil, List.append_nil, lastInstalledOn]

/-- The snapshot that an effect installs. -/
def Effect.snapshot : Effect → Option SnapshotResponse
  | .installed snap => some snap
  | _ => none

theorem lastInstalledOn_concat {loc : StockLocate} (t : List Effect) {x : Effect} (hx : x.locate = loc) :
    lastInstalledOn loc (t ++ [x]) = x.snapshot.or (lastInstalledOn loc t) := by
  have hone : [x].filter (fun x => x.locate = loc) = [x] := by simp [hx]
  rw [lastInstalledOn, List.filter_append, hone, lastInstalled_concat]
  cases x <;> rfl

/-- The replica's application of a message, and its restart from a snapshot of a log. -/
def applyMessage (d : DepthBook) (m : AnyMessage) : DepthBook := (d.apply m).book

def restoreSnapshot (depth : ℕ) (loc : StockLocate) (sym : Symbol) (log : List AnyMessage) (d : DepthBook) : DepthBook :=
  d.install (referenceSnapshot depth loc sym log log.length)

/-- The snapshot that a replica's state goes back to. -/
def originSnapshot (depth : ℕ) (loc : StockLocate) (sym : Symbol) (r : Replica AnyMessage DepthBook) :
    Option SnapshotResponse :=
  match r.origin with
  | .scratch _ => none
  | .snapshot k => some (referenceSnapshot depth loc sym r.log k)

/-- A locate's part of the publisher's books is that of its own stream, and its part
of the handler's is the state of the replica. -/
structure Reproduces (o : Ownership) (depth : ℕ) (loc : StockLocate) (sym : Symbol) (s : RecoverySystem) (t : List Effect)
    (r : Replica AnyMessage DepthBook) : Prop where
  handlerSorted : o.Sorted s.handler.book
  shadowSorted : o.Sorted s.shadow.book
  books : o.SameBooks (some loc) s.handler.book r.state
  source : o.SameBooks (some loc) s.shadow.book (DepthBook.applyAll depth r.log)
  installed : lastInstalledOn loc t = originSnapshot depth loc sym r

/-- What a legal state of the replica is, and on which logs it stays so. -/
def LegalBooks (o : Ownership) (sym : Symbol) (d : DepthBook) : Prop := o.Sorted d ∧ d.Serves (symbolKey sym)

def OwnedStream (o : Ownership) (depth : ℕ) (loc : StockLocate) (sym : Symbol) (log : List AnyMessage) : Prop :=
  SymbolStream depth sym log ∧ ∀ m ∈ log, ∀ a, m.action = some a → o.Keeps loc a

section Part
variable {o : Ownership} {depth : ℕ} {loc : StockLocate} {sym : Symbol} {s : RecoverySystem} {t : List Effect}
  {r : Replica AnyMessage DepthBook} {log : List AnyMessage}

theorem keeps_books (o : Ownership) (depth : ℕ) (loc : StockLocate) (sym : Symbol) :
    Keeps applyMessage (restoreSnapshot depth loc sym) (LegalBooks o sym) (OwnedStream o depth loc sym) := by
  refine ⟨fun hpre h => ⟨SymbolStream.of_prefix h.1 hpre, fun m hm => h.2 m (hpre.subset hm)⟩, fun {l m d} hgood hm hd => ?_,
    fun {l d} hgood hd => ?_⟩
  · exact ⟨hd.1.apply (fun a ha => hgood.2 m hm a ha), (hd.2.apply (hgood.1.concerns m hm) rfl).1⟩
  · have hq := referenceSnapshot_quotes depth loc sym l l.length
    rw [List.take_length] at hq
    exact ⟨hd.1.install _, hd.2.install rfl (hq.rebuild hgood.1).1⟩

theorem sorted_applyAll (hlog : OwnedStream o depth loc sym log) : o.Sorted (DepthBook.applyAll depth log) := by
  induction log using List.reverseRecOn with
  | nil => exact Ownership.Sorted.new o depth
  | append_singleton log m ih =>
    have hpre : log <+: log ++ [m] := List.prefix_append log [m]
    rw [DepthBook.applyAll_concat]
    exact (ih ((keeps_books o depth loc sym).before hpre hlog)).apply (fun a ha => hlog.2 m (by simp) a ha)

/-- A snapshot of an earlier point does not change when the log grows. -/
theorem referenceSnapshot_append (log more : List AnyMessage) {k : ℕ} (hk : k ≤ log.length) :
    referenceSnapshot depth loc sym (log ++ more) k = referenceSnapshot depth loc sym log k := by
  rw [referenceSnapshot, List.take_append_of_le_length hk, referenceSnapshot]

/-- The provider answers with the snapshot of the whole log. -/
theorem Reproduces.provider_eq {symByLoc : ExtTreeMap StockLocate Symbol} (h : Reproduces o depth loc sym s t r)
    (ht : Tallies symByLoc loc s r) (hsym : symByLoc[loc]? = some sym) (hkey : o.keys loc (symbolKey sym)) (e : SequenceNumber) :
    s.shadow.provider ⟨loc, e⟩ = referenceSnapshot depth loc sym r.log r.log.length := by
  obtain ⟨hbids, hasks⟩ := (DepthBook.applyAll depth r.log).snapshot_sides sym
  rw [Shadow.provider_tracked (ht.symbols ▸ hsym), ht.lastSeq, h.source.bookAt hkey, referenceSnapshot, List.take_length,
    hbids, hasks]
  rfl

theorem originSnapshot_append (hf : r.Follows applyMessage (restoreSnapshot depth loc sym) (DepthBook.new depth) (LegalBooks o sym))
    (m : AnyMessage) : originSnapshot depth loc sym { r with log := r.log ++ [m] } = originSnapshot depth loc sym r := by
  have hpoint := hf.point.trans hf.bound
  unfold originSnapshot
  cases ho : r.origin with
  | scratch k => rfl
  | snapshot k =>
    rw [ho] at hpoint
    exact congrArg some (referenceSnapshot_append r.log [m] hpoint)

end Part

/-! ## Steps -/

section Steps
variable {depth : ℕ} {symByLoc : ExtTreeMap StockLocate Symbol} {final : List (List UInt8)}
  {loc : StockLocate} {sym : Symbol} {s : RecoverySystem} {t : List Effect} {r : Replica AnyMessage DepthBook} {data : List UInt8}
  (hfeed : RecoverableFeed depth symByLoc final)
include hfeed

theorem RecoverableFeed.owned {published : List (List UInt8)} (hpre : published <+: final) (hsym : symByLoc[loc]? = some sym) :
    OwnedStream hfeed.ownership depth loc sym (messagesOn loc published) := by
  have hlog : messagesOn loc published <+: messagesOn loc final := (hpre.filter _).filterMap _
  exact ⟨SymbolStream.of_prefix (hfeed.streams loc sym hsym) hlog, fun m hm a ha => hfeed.keeps hsym (hlog.subset hm) ha⟩

/-- A published message, of whichever locate, belongs to it. -/
theorem RecoverableFeed.message_keeps {published : List (List UInt8)} (hpre : published <+: final) (hd : data ∈ published) :
    ∃ m, payloadMessage data = some m ∧ ∀ a, m.action = some a → hfeed.ownership.Keeps (readLocate data) a := by
  have hmem := hpre.subset hd
  obtain ⟨m, hm⟩ := Option.isSome_iff_exists.mp (hfeed.decodes data hmem)
  obtain ⟨sym, hsym⟩ := Option.isSome_iff_exists.mp (hfeed.tracked data hmem)
  refine ⟨m, hm, fun a ha => hfeed.keeps hsym ?_ ha⟩
  exact List.mem_filterMap.mpr ⟨data, List.mem_filter.mpr ⟨hmem, by simp⟩, hm⟩

theorem Reproduces.publish (h : Reproduces hfeed.ownership depth loc sym s t r) (ht : Tallies symByLoc loc s r)
    (hf : r.Follows applyMessage (restoreSnapshot depth loc sym) (DepthBook.new depth) (LegalBooks hfeed.ownership sym))
    (hpre : s.published ++ [data] <+: final) (hsym : symByLoc[loc]? = some sym) :
    Reproduces hfeed.ownership depth loc sym (s.step (.publish data)).1 (t ++ (s.step (.publish data)).2)
      ((s.event loc (.publish data)).elim r (r.step applyMessage (restoreSnapshot depth loc sym))) := by
  obtain ⟨m, hm, hkeeps⟩ := hfeed.message_keeps hpre (List.mem_append_right _ (List.mem_singleton_self data))
  have hshadow : (s.shadow.update data).book = (s.shadow.book.apply m).book := by rw [Shadow.update, hm]
  have hsorted : hfeed.ownership.Sorted (s.shadow.update data).book := by
    rw [hshadow]
    exact h.shadowSorted.apply hkeeps
  have htrace : lastInstalledOn loc (t ++ (s.step (.publish data)).2) = lastInstalledOn loc t :=
    congrArg (lastInstalledOn loc) (List.append_nil t)
  by_cases hl : readLocate data = loc
  · subst hl
    have hevent : s.event (readLocate data) (.publish data) = some (.append m) := by
      rw [RecoverySystem.event, if_pos rfl, hm]
      rfl
    have hlog := hfeed.owned ((List.prefix_append s.published [data]).trans hpre) hsym
    rw [← ht.log] at hlog
    rw [hevent]
    refine ⟨h.handlerSorted, hsorted, h.books, ?_, ?_⟩
    · change hfeed.ownership.SameBooks _ (s.shadow.update data).book (DepthBook.applyAll depth (r.log ++ [m]))
      rw [hshadow, DepthBook.applyAll_concat]
      exact Ownership.apply_here h.shadowSorted (sorted_applyAll hlog) hkeeps h.source
    · rw [htrace, h.installed]
      exact (originSnapshot_append hf m).symm
  · have hevent : s.event loc (.publish data) = none := if_neg hl
    rw [hevent]
    refine ⟨h.handlerSorted, hsorted, h.books, ?_, htrace.trans h.installed⟩
    change hfeed.ownership.SameBooks _ (s.shadow.update data).book (DepthBook.applyAll depth r.log)
    rw [hshadow]
    refine (Ownership.SameBooks.equivalence _ _).trans (Ownership.apply_elsewhere h.shadowSorted hkeeps ?_) h.source
    exact fun heq => hl (Option.some.inj heq)

/-- A snapshot of the provider belongs to the locate it was asked for. -/
theorem RecoverableFeed.provider_keepsTo (hsymbols : s.shadow.symByLoc = symByLoc) (hsym : symByLoc[loc]? = some sym)
    (e : SequenceNumber) : (Effect.installed (s.shadow.provider ⟨loc, e⟩)).KeepsTo hfeed.ownership loc := by
  refine ⟨Shadow.provider_locate _ _, sym, hsym, ?_⟩
  rw [Shadow.provider, hsymbols, hsym]
  dsimp only
  split <;> rfl

/-- The effects of a published datagram belong to its locate. -/
theorem RecoverableFeed.hand_keepsTo (hsymbols : s.shadow.symByLoc = symByLoc) (hpre : s.published <+: final)
    (hd : data ∈ s.published) (answered : Bool) :
    ∀ x ∈ (s.hand data answered).2, x.KeepsTo hfeed.ownership (readLocate data) := by
  obtain ⟨m, hm, hkeeps⟩ := hfeed.message_keeps hpre hd
  obtain ⟨sym, hsym⟩ := Option.isSome_iff_exists.mp (hfeed.tracked data (hpre.subset hd))
  refine s.handler.deliver_keepsTo (d := s.delivery data answered) ⟨rfl, fun m' a hm' ha => ?_⟩ (fun e snap hsnap => ?_)
  · rw [Option.some.inj (hm'.symm.trans hm)] at ha
    exact hkeeps a ha
  · have hanswer : (if answered then some (s.shadow.provider ⟨readLocate data, e⟩) else none) = some snap := hsnap
    split_ifs at hanswer
    rw [← Option.some.inj hanswer]
    exact hfeed.provider_keepsTo hsymbols hsym e

/-- A datagram of the locate does to the handler's books what it does to the replica. -/
theorem Reproduces.heard (h : Reproduces hfeed.ownership depth (readLocate data) sym s t r)
    (ht : Tallies symByLoc (readLocate data) s r)
    (hf : r.Follows applyMessage (restoreSnapshot depth (readLocate data) sym) (DepthBook.new depth) (LegalBooks hfeed.ownership sym))
    (hpre : s.published <+: final) (hsym : symByLoc[readLocate data]? = some sym) (hd : data ∈ s.published)
    {answered : Bool} {fx : List Effect} (hhears : Hears s data answered r.expected fx) :
    let r' := r.step applyMessage (restoreSnapshot depth (readLocate data) sym) (.hear (readSequence data).toNat answered)
    hfeed.ownership.SameBooks (some (readLocate data)) (fx.foldl Effect.onBook s.handler.book) r'.state ∧
      lastInstalledOn (readLocate data) (t ++ fx) = originSnapshot depth (readLocate data) sym r' := by
  intro r'
  obtain ⟨m, hm, hkeeps⟩ := hfeed.message_keeps hpre hd
  -- the entry that the replica applies is the message of the datagram
  have hentry : r.log[(readSequence data).toNat - 1]? = some m := by
    rw [ht.log, ((hfeed.toServed.of_prefix hpre).entry hd).2.2, hm]
  have haccept : hfeed.ownership.SameBooks (some (readLocate data))
      (Effect.onBook s.handler.book (s.delivery data answered).accepted) (r.accept applyMessage (readSequence data).toNat).state := by
    have hmessage : (decodeFrame (data.drop transportHeaderSize)).message = some m := hm
    change hfeed.ownership.SameBooks _ (s.handler.book.receive (data.drop transportHeaderSize)) _
    rw [DepthBook.receive, hmessage, Replica.accept, hentry]
    exact Ownership.apply_here h.handlerSorted hf.legal.1 hkeeps h.books
  have haccepted : lastInstalledOn (readLocate data) (t ++ [(s.delivery data answered).accepted]) =
      lastInstalledOn (readLocate data) t := lastInstalledOn_concat t rfl
  generalize hexp : r.expected = expected at hhears
  cases hhears with
  | first =>
    rw [show r' = _ from Replica.step_first hexp]
    refine ⟨haccept, haccepted.trans (h.installed.trans ?_)⟩
    rw [originSnapshot, hf.unheard hexp]
    rfl
  | stale hlt =>
    rw [show r' = _ from Replica.step_stale hexp hlt, List.append_nil]
    exact ⟨h.books, h.installed⟩
  | next =>
    rw [show r' = _ from Replica.step_next hexp]
    exact ⟨haccept, haccepted.trans h.installed⟩
  | unanswered hgap hans =>
    subst hans
    rw [show r' = _ from Replica.step_unanswered hexp hgap]
    exact ⟨h.books, (@lastInstalledOn_concat (readLocate data) t (missing _ _ _) rfl).trans h.installed⟩
  | refreshed hgap hans =>
    subst hans
    rw [show r' = _ from Replica.step_answered hexp hgap,
      h.provider_eq ht hsym ⟨sym, hsym, rfl⟩ 0, List.append_cons]
    exact ⟨Ownership.install_here h.handlerSorted hf.legal.1 _ h.books,
      @lastInstalledOn_concat (readLocate data) _ (.installed _) rfl⟩

theorem Reproduces.hand (h : Reproduces hfeed.ownership depth loc sym s t r) (ht : Tallies symByLoc loc s r)
    (hf : r.Follows applyMessage (restoreSnapshot depth loc sym) (DepthBook.new depth) (LegalBooks hfeed.ownership sym))
    (hpre : s.published <+: final) (hsym : symByLoc[loc]? = some sym) {i : ℕ} (hi : s.published[i]? = some data)
    (answered : Bool) :
    Reproduces hfeed.ownership depth loc sym (s.hand data answered).1 (t ++ (s.hand data answered).2)
      ((s.event loc (.deliver i answered)).elim r (r.step applyMessage (restoreSnapshot depth loc sym))) := by
  have hd := List.mem_of_getElem? hi
  have hown := hfeed.hand_keepsTo ht.symbols hpre hd answered
  have hbook : (s.hand data answered).1.handler.book = (s.hand data answered).2.foldl Effect.onBook s.handler.book :=
    (s.handler.deliver_replays (s.delivery data answered)).book
  have hsorted : hfeed.ownership.Sorted (s.hand data answered).1.handler.book :=
    hbook ▸ Effect.keepsTo_sorted hown h.handlerSorted
  by_cases hl : readLocate data = loc
  · subst hl
    have hevent : s.event (readLocate data) (.deliver i answered) = some (.hear (readSequence data).toNat answered) := by
      simp only [RecoverySystem.event, hi, if_true]
    have hhears := ht.hears (hfeed.toServed.of_prefix hpre) hf.expects hf.bound hd answered
    obtain ⟨hbooks, hinstalled⟩ := h.heard hfeed ht hf hpre hsym hd hhears
    rw [hevent]
    refine ⟨hsorted, h.shadowSorted, hbook ▸ hbooks, ?_, hinstalled⟩
    rw [Option.elim_some, Replica.log_step, List.append_nil]
    exact h.source
  · have hevent : s.event loc (.deliver i answered) = none := by simp only [RecoverySystem.event, hi, if_neg hl]
    have hne : some (readLocate data) ≠ some loc := fun heq => hl (Option.some.inj heq)
    rw [hevent]
    refine ⟨hsorted, h.shadowSorted, ?_, h.source, ?_⟩
    · rw [hbook]
      exact (Ownership.SameBooks.equivalence _ _).trans (Effect.keepsTo_elsewhere hown h.handlerSorted hne) h.books
    · rw [lastInstalledOn_append_elsewhere t (fun x hx hloc => hl ((hown x hx).locate_eq.symm.trans hloc))]
      exact h.installed

theorem Reproduces.resync (h : Reproduces hfeed.ownership depth loc sym s t r) (ht : Tallies symByLoc loc s r)
    (hf : r.Follows applyMessage (restoreSnapshot depth loc sym) (DepthBook.new depth) (LegalBooks hfeed.ownership sym))
    (hsym : symByLoc[loc]? = some sym) {l : StockLocate} (hl : (symByLoc[l]?).isSome) :
    Reproduces hfeed.ownership depth loc sym (s.step (.resync l)).1 (t ++ (s.step (.resync l)).2)
      ((s.event loc (.resync l)).elim r (r.step applyMessage (restoreSnapshot depth loc sym))) := by
  obtain ⟨sym', hsym'⟩ := Option.isSome_iff_exists.mp hl
  have hkeeps := hfeed.provider_keepsTo ht.symbols hsym' 0
  have hsorted : hfeed.ownership.Sorted (s.handler.book.install (s.shadow.provider ⟨l, 0⟩)) := h.handlerSorted.install _
  by_cases heq : l = loc
  · subst heq
    have hevent : s.event l (.resync l) = some .refresh := if_pos rfl
    have hprovider := h.provider_eq ht hsym ⟨sym, hsym, rfl⟩ 0
    rw [hevent]
    refine ⟨hsorted, h.shadowSorted, ?_, h.source, ?_⟩
    · change hfeed.ownership.SameBooks _ (s.handler.book.install (s.shadow.provider ⟨l, 0⟩)) (r.state.install _)
      rw [hprovider]
      exact Ownership.install_here h.handlerSorted hf.legal.1 _ h.books
    · change lastInstalledOn l (t ++ [.installed (s.shadow.provider ⟨l, 0⟩)]) = _
      rw [hprovider]
      exact @lastInstalledOn_concat l t (.installed _) rfl
  · have hevent : s.event loc (.resync l) = none := if_neg heq
    have hne : some l ≠ some loc := fun h => heq (Option.some.inj h)
    rw [hevent]
    refine ⟨hsorted, h.shadowSorted, ?_, h.source, ?_⟩
    · exact (Ownership.SameBooks.equivalence _ _).trans (Ownership.install_elsewhere h.handlerSorted hkeeps.2 hne) h.books
    · refine (lastInstalledOn_append_elsewhere t (fun x hx hloc => heq ?_)).trans h.installed
      rw [List.mem_singleton.mp hx] at hloc
      exact (Shadow.provider_locate _ _).symm.trans hloc

/-- A directory datagram tells the books nothing. -/
theorem Reproduces.directory (h : Reproduces hfeed.ownership depth loc sym s t r) (hseq : readSequence data = 0)
    (hidle : ∀ m, payloadMessage data = some m → m.action = none) :
    Reproduces hfeed.ownership depth loc sym (s.step (.directory data)).1 (t ++ (s.step (.directory data)).2) r := by
  have hkeeps : (s.delivery data true).accepted.KeepsTo hfeed.ownership (readLocate data) := by
    refine ⟨rfl, fun m a hm ha => ?_⟩
    rw [hidle m hm] at ha
    cases ha
  have hbook := (s.handler.deliver_replays (s.delivery data true)).book
  have hemits := s.handler.deliver_emits (s.delivery data true)
  have hzero : (s.delivery data true).seq = 0 := hseq
  -- nothing happens, or the frame goes to the decoder
  have hfx : (s.handler.deliver (s.delivery data true)).2 = [] ∨
      (s.handler.deliver (s.delivery data true)).2 = [(s.delivery data true).accepted] := by
    generalize (s.handler.deliver (s.delivery data true)).2 = fx at hemits ⊢
    cases hemits with
    | silent _ => exact Or.inl rfl
    | bootstrap _ _ => exact Or.inr rfl
    | next _ hne _ | unfilled _ hne _ _ _ _ | covered _ hne _ _ _ _ | recovered _ hne _ _ _ _ | skipped _ hne _ _ _ _ =>
      exact absurd hzero hne
  have hreceive : s.handler.book.receive (data.drop transportHeaderSize) = s.handler.book := by
    unfold DepthBook.receive
    cases hm : (decodeFrame (data.drop transportHeaderSize)).message with
    | none => rfl
    | some m =>
      have hfollows := DepthBook.apply_follows h.handlerSorted.keyed m
      rwa [hidle m hm] at hfollows
  have hsame : (s.step (.directory data)).1.handler.book = s.handler.book := by
    change (s.handler.deliver (s.delivery data true)).1.book = _
    rw [hbook]
    rcases hfx with hfx | hfx
    · rw [hfx]
      rfl
    · rw [hfx]
      exact hreceive
  refine ⟨hsame ▸ h.handlerSorted, h.shadowSorted, hsame ▸ h.books, h.source, ?_⟩
  change lastInstalledOn loc (t ++ (s.handler.deliver (s.delivery data true)).2) = _
  rcases hfx with hfx | hfx
  · rw [hfx, List.append_nil]
    exact h.installed
  · rw [hfx]
    by_cases hl : readLocate data = loc
    · exact (@lastInstalledOn_concat loc t (s.delivery data true).accepted hl).trans h.installed
    · refine (lastInstalledOn_append_elsewhere t (fun x hx hloc => hl ?_)).trans h.installed
      rwa [List.mem_singleton.mp hx] at hloc

theorem Reproduces.step (h : Reproduces hfeed.ownership depth loc sym s t r) (ht : Tallies symByLoc loc s r)
    (hf : r.Follows applyMessage (restoreSnapshot depth loc sym) (DepthBook.new depth) (LegalBooks hfeed.ownership sym))
    (hsym : symByLoc[loc]? = some sym) {a : RecoveryAction} (hpre : (s.step a).1.published <+: final)
    (hdir : ∀ data, a = .directory data → readSequence data = 0 ∧ ∀ m, payloadMessage data = some m → m.action = none)
    (hresync : ∀ l, a = .resync l → (symByLoc[l]?).isSome) :
    Reproduces hfeed.ownership depth loc sym (s.step a).1 (t ++ (s.step a).2)
      ((s.event loc a).elim r (r.step applyMessage (restoreSnapshot depth loc sym))) := by
  cases a with
  | publish data => exact h.publish hfeed ht hf hpre hsym
  | directory data =>
    obtain ⟨hseq, hidle⟩ := hdir data rfl
    exact h.directory hfeed hseq hidle
  | deliver i answered =>
    cases hi : s.published[i]? with
    | none =>
      simp only [RecoverySystem.step, RecoverySystem.event, hi, List.append_nil]
      exact h
    | some data =>
      have hbefore := (s.published_step (.deliver i answered)).trans hpre
      have hhand := h.hand hfeed ht hf hbefore hsym hi answered
      simp only [RecoverySystem.step, hi]
      exact hhand
  | resync l => exact h.resync hfeed ht hf hsym (hresync l rfl)

end Steps

/-! ## What is visible -/

section Visible
variable {o : Ownership} {depth : ℕ} {loc : StockLocate} {sym : Symbol} {msgs : List AnyMessage} {s : RecoverySystem}
  {t : List Effect} {r : Replica AnyMessage DepthBook}

/-- The handler shows what the publisher showed at the handler's position. -/
theorem Reproduces.top_eq (h : Reproduces o depth loc sym s t r) (hkey : o.keys loc (symbolKey sym))
    (hf : r.Follows applyMessage (restoreSnapshot depth loc sym) (DepthBook.new depth) (LegalBooks o sym))
    (hs : SymbolStream depth sym r.log) (hmax : r.log.length < maxSequence.toNat)
    (hfree : r.origin = .scratch 0 ∨ ∃ k, r.origin = .snapshot k ∧
      Undisturbed depth sym (r.log.take r.position) (referenceSnapshot depth loc sym r.log k)) (buy : Bool) :
    (s.handler.book.bookAt (symbolKey sym)).top buy = (referenceBook depth sym (r.log.take r.position)).top buy := by
  have hbook : s.handler.book.bookAt (symbolKey sym) = r.state.bookAt (symbolKey sym) := h.books.bookAt hkey
  rw [hbook]
  rcases hfree with hstart | ⟨k, horigin, hu, hroom⟩
  · rw [hf.scratch 0 hstart]
    rfl
  · obtain ⟨base, hbase, hstate⟩ := hf.snapshot k horigin
    have hle : k ≤ r.position := by
      have hpoint := hf.point
      rwa [horigin] at hpoint
    have hlen := hle.trans hf.bound
    have htake : (r.log.take r.position).take k = r.log.take k := by rw [List.take_take, Nat.min_eq_left hle]
    have hsplit : r.log.take k ++ (r.log.take r.position).drop k = r.log.take r.position := by
      rw [← htake, List.take_append_drop]
    have hsnap : referenceSnapshot depth loc sym (r.log.take k) (r.log.take k).length = referenceSnapshot depth loc sym r.log k := by
      rw [referenceSnapshot, List.take_length, List.length_take_of_le hlen, referenceSnapshot]
    have hpoint : (referenceSnapshot depth loc sym r.log k).lastAppliedSeq.toNat = k := (toNat_point hlen hmax).1
    rw [hpoint, htake] at hu
    have hpre : SymbolStream depth sym (r.log.take k ++ (r.log.take r.position).drop k) := by
      rw [hsplit]
      exact hs.of_prefix (List.take_prefix _ _)
    have hq := referenceSnapshot_quotes depth loc sym r.log k
    have hcaught := CaughtUp.resume hbase.2 hpre hq (hsplit.symm ▸ hu)
    have heq := @CaughtUp.top_eq _ _ _ _ _ _ hcaught hpre hq (hsplit.symm ▸ hu) buy (by rw [hsplit]; exact hroom buy)
    rw [hsplit] at heq
    rw [hstate, restoreSnapshot, hsnap]
    exact heq

end Visible

/-! ## Runs -/

section Runs
variable {depth : ℕ} {skip : Bool} {symByLoc : ExtTreeMap StockLocate Symbol} {started : List StockLocate}
  {acts : List RecoveryAction}

/-- The steps that the test takes: directory datagrams have no number and no effect on
books, and snapshots are asked for locates that have a symbol. -/
structure Rehearsed (symByLoc : ExtTreeMap StockLocate Symbol) (acts : List RecoveryAction) : Prop where
  directories : ∀ data, .directory data ∈ acts →
    readSequence data = 0 ∧ ∀ m, payloadMessage data = some m → m.action = none
  resyncs : ∀ loc, .resync loc ∈ acts → (symByLoc[loc]?).isSome

/-- A locate of the system after a run, together with its replica. -/
structure Refined (o : Ownership) (depth : ℕ) (symByLoc : ExtTreeMap StockLocate Symbol) (started : List StockLocate)
    (loc : StockLocate) (sym : Symbol) (s : RecoverySystem) (t : List Effect) (r : Replica AnyMessage DepthBook) : Prop where
  tallies : Tallies symByLoc loc s r
  follows : r.Follows applyMessage (restoreSnapshot depth loc sym) (DepthBook.new depth) (LegalBooks o sym)
  reproduces : Reproduces o depth loc sym s t r
  opened : loc ∈ started → r.Opened

theorem Refined.step {final : List (List UInt8)} (hfeed : RecoverableFeed depth symByLoc final) {loc : StockLocate} {sym : Symbol}
    {s : RecoverySystem} {t : List Effect} {r : Replica AnyMessage DepthBook}
    (h : Refined hfeed.ownership depth symByLoc started loc sym s t r) (hsym : symByLoc[loc]? = some sym) {a : RecoveryAction}
    (ha : Rehearsed symByLoc [a]) (hpre : (s.step a).1.published <+: final) :
    Refined hfeed.ownership depth symByLoc started loc sym (s.step a).1 (t ++ (s.step a).2)
      ((s.event loc a).elim r (r.step applyMessage (restoreSnapshot depth loc sym))) := by
  have hdir : ∀ data, a = .directory data → readSequence data = 0 ∧ ∀ m, payloadMessage data = some m → m.action = none :=
    fun data hd => ha.directories data (List.mem_singleton.mpr hd.symm)
  have hadm : s.Admits symByLoc a := ⟨hfeed.toServed.of_prefix hpre, fun data hd => (hdir data hd).1⟩
  have hlog := hfeed.owned ((s.published_step a).trans hpre) hsym
  refine ⟨h.tallies.step h.follows hadm, h.tallies.follows_step h.follows (keeps_books _ depth loc sym) hadm hlog,
    h.reproduces.step hfeed h.tallies h.follows hsym hpre hdir (fun l hl => ha.resyncs l (List.mem_singleton.mpr hl.symm)), fun hmem => ?_⟩
  cases s.event loc a with
  | none => exact h.opened hmem
  | some e => exact (h.opened hmem).step e

/-- Every run of the system is, locate by locate, a run of the replica. -/
theorem recovery_refines (hfeed : RecoverableFeed depth symByLoc ((RecoverySystem.new depth skip symByLoc started).run acts).1.published)
    (hacts : Rehearsed symByLoc acts) {loc : StockLocate} {sym : Symbol} (hsym : symByLoc[loc]? = some sym) :
    let start := RecoverySystem.new depth skip symByLoc started
    Refined hfeed.ownership depth symByLoc started loc sym (start.run acts).1 (start.run acts).2
      (start.replicaAfter loc applyMessage (restoreSnapshot depth loc sym) (initialReplica started loc (DepthBook.new depth)) acts) := by
  intro start
  refine TraceRuns.run_simulates RecoverySystem.step (fun s a => (s.event loc a).toList)
    (R := Refined hfeed.ownership depth symByLoc started loc sym)
    (P := fun s a => (s.step a).1.published <+: (start.run acts).1.published ∧ a ∈ acts) ?_ ?_ acts (fun pre a hpre => ?_)
  · rintro s t r a ⟨hpre, hmem⟩ h
    have hstep := h.step hfeed hsym ⟨fun data hd => hacts.directories data (List.mem_singleton.mp hd ▸ hmem),
      fun l hl => hacts.resyncs l (List.mem_singleton.mp hl ▸ hmem)⟩ hpre
    cases he : s.event loc a with
    | none => rwa [he] at hstep
    | some e => rwa [he] at hstep
  · have hlegal : LegalBooks hfeed.ownership sym (DepthBook.new depth) :=
      ⟨Ownership.Sorted.new _ depth, DepthBook.Serves.of_new depth _⟩
    have hrefl := (Ownership.SameBooks.equivalence hfeed.ownership (some loc)).refl (DepthBook.new depth)
    refine ⟨Tallies.initial depth skip symByLoc started loc _, initialReplica_follows started loc hlegal,
      ⟨Ownership.Sorted.new _ depth, Ownership.Sorted.new _ depth, hrefl, hrefl, rfl⟩, fun hmem => ⟨?_, fun n hn => ?_⟩⟩
    · rw [initialReplica, if_pos hmem]
      rfl
    · cases hn
      rfl
  · have hgrows := published_run start hpre
    rw [RecoverySystem.run_concat] at hgrows
    exact ⟨hgrows, hpre.subset (by simp)⟩

theorem Refined.small {o : Ownership} {loc : StockLocate} {sym : Symbol} {s : RecoverySystem} {t : List Effect}
    {r : Replica AnyMessage DepthBook} (h : Refined o depth symByLoc started loc sym s t r)
    (hserved : Served symByLoc s.published) : r.log.length < maxSequence.toNat := by
  rw [h.tallies.log, hserved.length_messagesOn]
  exact hserved.small loc

/-- The publisher shows a locate's symbol as the locate's own stream leaves it. -/
theorem Refined.shadow_shows {o : Ownership} {loc : StockLocate} {sym : Symbol} {s : RecoverySystem} {t : List Effect}
    {r : Replica AnyMessage DepthBook} (h : Refined o depth symByLoc started loc sym s t r) (hkey : o.keys loc (symbolKey sym)) :
    SameLevels sym s.shadow.book (DepthBook.applyAll depth r.log) :=
  SameLevels.of_top (fun buy => congrArg (fun b : SymbolBook => b.top buy) (h.reproduces.source.bookAt hkey))

/-- Whatever is lost, repeated, reordered or unanswered on the locates of a feed, and
whenever snapshots are taken: the handler shows what the publisher showed after as many
messages of the locate as the handler is past, provided nothing has touched the orders
of the last snapshot; without a snapshot, provided the stream was started. -/
theorem recovering_feed_shows (hfeed : RecoverableFeed depth symByLoc ((RecoverySystem.new depth skip symByLoc started).run acts).1.published)
    (hacts : Rehearsed symByLoc acts) {loc : StockLocate} {sym : Symbol} (hsym : symByLoc[loc]? = some sym) :
    let final := (RecoverySystem.new depth skip symByLoc started).run acts
    let msgs := messagesOn loc final.1.published
    ∃ c ≤ msgs.length,
      (final.1.handler.gap.expected_[loc]? = some (UInt64.ofNat (c + 1)) ∨ c = 0 ∧ final.1.handler.gap.expected_[loc]? = none) ∧
      SameLevels sym final.1.shadow.book (DepthBook.applyAll depth msgs) ∧
      ((lastInstalledOn loc final.2 = none → loc ∈ started) →
        (∀ snap, lastInstalledOn loc final.2 = some snap → Undisturbed depth sym (msgs.take c) snap) →
        SameLevels sym final.1.handler.book (DepthBook.applyAll depth (msgs.take c))) := by
  intro final msgs
  have hkey : hfeed.ownership.keys loc (symbolKey sym) := ⟨sym, hsym, rfl⟩
  have hrefined := recovery_refines hfeed hacts hsym
  dsimp only at hrefined
  generalize (RecoverySystem.new depth skip symByLoc started).replicaAfter loc _ _ _ acts = r at hrefined
  have hlog : r.log = msgs := hrefined.tallies.log
  have hexp := hrefined.tallies.expected
  refine ⟨r.position, hlog ▸ hrefined.follows.bound, ?_, hlog ▸ hrefined.shadow_shows hkey, fun hstarted hfree => ?_⟩
  · cases he : r.expected with
    | none => exact Or.inr ⟨Replica.position_of_unheard he, hexp.trans (by rw [he]; rfl)⟩
    | some e =>
      rw [← hrefined.follows.expected_eq he]
      exact Or.inl (hexp.trans (by rw [he]; rfl))
  · refine SameLevels.of_top (fun buy => ?_)
    rw [← hlog]
    refine hrefined.reproduces.top_eq hkey hrefined.follows (hlog ▸ hfeed.streams loc sym hsym)
      (hrefined.small hfeed.toServed) ?_ buy
    have hinstalled := hrefined.reproduces.installed
    unfold originSnapshot at hinstalled
    cases horigin : r.origin with
    | scratch n =>
      rw [horigin] at hinstalled
      have hzero := (hrefined.opened (hstarted hinstalled)).2 n horigin
      exact Or.inl (congrArg Origin.scratch hzero)
    | snapshot k =>
      rw [horigin] at hinstalled
      have hundisturbed := hfree _ hinstalled
      rw [← hlog] at hundisturbed
      exact Or.inr ⟨k, rfl, hundisturbed⟩

end Runs

section Example

/-- Three orders on locate 1 and one on locate 2. -/
private def fourOrders : List (List UInt8) :=
  [addDatagram 1 7, orderDatagram 2 1 20 66, addDatagram 2 8, addDatagram 3 9]

private def twoSymbols : ExtTreeMap StockLocate Symbol := sampleLocates.insert 2 #v[66, 32, 32, 32, 32, 32, 32, 32]

private theorem twoSymbols_cases {loc : StockLocate} {sym : Symbol} (h : twoSymbols[loc]? = some sym) :
    (loc = 1 ∧ sym = sampleSymbol) ∨ loc = 2 ∧ sym = #v[66, 32, 32, 32, 32, 32, 32, 32] := by
  rw [twoSymbols, sampleLocates, lookup_insert, lookup_insert] at h
  split_ifs at h with htwo hone
  · exact Or.inr ⟨htwo, (Option.some.inj h).symm⟩
  · exact Or.inl ⟨hone, (Option.some.inj h).symm⟩
  · simp at h

/-- A short stream, checked by evaluating its prefixes. -/
private theorem symbolStream_of_takes {depth : ℕ} {sym : Symbol} {msgs : List AnyMessage}
    (hconcerns : ∀ m ∈ msgs, m.Concerns sym) (hfresh : (msgs.filterMap AnyMessage.introduces).Nodup)
    (hlevels : ∀ n, n ≤ msgs.length → ∀ buy, (livePrices (referenceBook depth sym (msgs.take n)).orders buy).card ≤ depth)
    (hsums : ∀ n, n ≤ msgs.length → ∀ e ∈ (DepthBook.applyAll depth (msgs.take n)).books.toList,
      sumOver e.2.orders (fun o => o.qty.toNat) < 2 ^ 32) : SymbolStream depth sym msgs :=
  ⟨hconcerns, hfresh, TraceRuns.forall_prefix_iff.mpr hlevels,
    TraceRuns.forall_prefix_iff.mpr (fun n hn => LevelSumsFit.of_total (hsums n hn))⟩

private theorem fourOrders_recoverable : RecoverableFeed 10 twoSymbols fourOrders := by
  have hnone : ∀ loc : StockLocate, loc ≠ 1 → loc ≠ 2 → messagesOn loc fourOrders = [] := by
    intro loc hone htwo
    have hnil : onLocate loc fourOrders = [] := by
      refine List.filter_eq_nil_iff.mpr (fun data hd hloc => ?_)
      have hlocates : ∀ data ∈ fourOrders, readLocate data = 1 ∨ readLocate data = 2 := by decide
      rcases hlocates data hd with h | h
      · exact hone ((of_decide_eq_true hloc).symm.trans h)
      · exact htwo ((of_decide_eq_true hloc).symm.trans h)
    rw [messagesOn, hnil]
    rfl
  have htest : ∀ loc : StockLocate, loc = 1 ∨ loc = 2 → (messagesOn loc fourOrders).all (fun m =>
      m.orderIds.all (fun x => loc = if x = 20 then 2 else 1)) = true := by
    rintro loc (rfl | rfl)
    · decide
    · decide
  have hids : ∀ loc, ∀ m ∈ messagesOn loc fourOrders, ∀ x ∈ m.orderIds, loc = if x = 20 then 2 else 1 := by
    intro loc m hm x hx
    by_cases hl : loc = 1 ∨ loc = 2
    · exact of_decide_eq_true (List.all_eq_true.mp (List.all_eq_true.mp (htest loc hl) m hm) x hx)
    · rw [hnone loc (fun h => hl (Or.inl h)) (fun h => hl (Or.inr h))] at hm
      cases hm
  refine ⟨⟨@NumberedFeed.of_locates _ [1, 2] (by decide) (by decide) (by decide) (by decide) (by decide), by decide⟩,
    fun loc sym hsym => ?_, fun {loc loc' sym} h h' => ?_, fun {loc loc'} hne m hm m' hm' x hx hx' => ?_⟩
  · rcases twoSymbols_cases hsym with ⟨rfl, rfl⟩ | ⟨rfl, rfl⟩
    · exact symbolStream_of_takes (by decide) (by decide) (by decide) (by decide)
    · exact symbolStream_of_takes (by decide) (by decide) (by decide) (by decide)
  · rcases twoSymbols_cases h with ⟨rfl, rfl⟩ | ⟨rfl, rfl⟩
    · rcases twoSymbols_cases h' with ⟨rfl, -⟩ | ⟨-, hbad⟩
      · rfl
      · exact absurd hbad (by decide)
    · rcases twoSymbols_cases h' with ⟨-, hbad⟩ | ⟨rfl, -⟩
      · exact absurd hbad (by decide)
      · rfl
  · exact hne ((hids loc m hm x hx).trans (hids loc' m' hm' x hx').symm)

/-- The second order of locate 1 is lost; a gap brings it back. -/
private def oneLost : List RecoveryAction :=
  [.publish (addDatagram 1 7), .publish (orderDatagram 2 1 20 66), .deliver 0 true, .publish (addDatagram 2 8),
    .deliver 1 true, .publish (addDatagram 3 9), .deliver 3 true]

private theorem oneLost_rehearsed : Rehearsed twoSymbols oneLost := ⟨by simp [oneLost], by simp [oneLost]⟩

/-- After the gap both sides show the three orders of locate 1. -/
theorem lost_order_of_one_locate :
    let final := (RecoverySystem.new 10 false twoSymbols [1, 2]).run oneLost
    SameLevels sampleSymbol final.1.handler.book final.1.shadow.book ∧
      (final.1.handler.book.snapshot sampleSymbol).bids = [⟨50, 300, 3⟩] := by
  intro final
  have hpublished : final.1.published = fourOrders := by decide
  have hmsgs : (messagesOn 1 final.1.published).length = 3 := by decide
  have hfour : final.1.handler.gap.expected_[(1 : StockLocate)]? = some 4 := by decide
  have hlast : lastInstalledOn 1 final.2 = some (referenceSnapshot 10 1 sampleSymbol (messagesOn 1 fourOrders) 3) := by decide
  have hundisturbed : Undisturbed 10 sampleSymbol (messagesOn 1 fourOrders)
      (referenceSnapshot 10 1 sampleSymbol (messagesOn 1 fourOrders) 3) := by decide
  have hsym : twoSymbols[(1 : StockLocate)]? = some sampleSymbol := by decide
  obtain ⟨c, hle, hexp, hshadow, hshows⟩ := recovering_feed_shows (hpublished.symm ▸ fourOrders_recoverable) oneLost_rehearsed hsym
  have hc : c = 3 := by
    rcases hexp with hsome | ⟨-, hnone⟩
    · have hsame := congrArg UInt64.toNat (Option.some.inj (hsome.symm.trans hfour))
      rw [hmsgs] at hle
      rw [UInt64.toNat_ofNat_of_lt' (by omega : c + 1 < 2 ^ 64)] at hsame
      exact Nat.succ.inj hsame
    · exact absurd (hnone.symm.trans hfour) (by simp)
  have hall : (messagesOn 1 final.1.published).take c = messagesOn 1 final.1.published :=
    List.take_of_length_le (by rw [hmsgs, hc])
  have hhandler := hshows (fun hnone => absurd (hlast.symm.trans hnone) (by simp)) (fun snap hsnap => ?_)
  · rw [hall] at hhandler
    exact ⟨⟨hhandler.1.trans hshadow.1.symm, hhandler.2.trans hshadow.2.symm⟩, by decide⟩
  · rw [hall, hpublished, ← Option.some.inj (hlast.symm.trans hsnap)]
    exact hundisturbed

end Example

end MdfeedItch
