import MdfeedItch.GeneratorSteps

/-! # The locate in the transport header

The header carries the locate of the symbol that a call picks, the message the
locate of the order that it names. They are the same exactly in the calls that add
an order or take one of the symbol's own. -/
namespace MdfeedItch
open FeedHandler MessageGenerator

namespace MessageGenerator

/-- The place of the order that a call takes, unless it adds one. -/
def pickOrder (g : MessageGenerator) (c : Draws) : ℕ := uniform 0 (g.liveOrders.length - 1) c.order

/-- The call adds an order, or takes one on the locate of the symbol that it picks. -/
def OnOwnStream (g : MessageGenerator) (c : Draws) : Prop :=
  g.liveOrders = [] ∨ uniform 0 99 c.action < 50 ∨
    g.liveLocs[g.pickOrder c]? = some (g.locateAt (g.pickSymbol c))

instance (g : MessageGenerator) (c : Draws) : Decidable (g.OnOwnStream c) :=
  inferInstanceAs (Decidable (_ ∨ _ ∨ _))

section Branches
variable {g g' : MessageGenerator} {c : Draws} {oi : ℕ} {oid : OrderId} {msg : AnyMessage}

theorem cancel_locate (h : g.cancel c oi oid = some (msg, g')) : g.liveLocs[oi]? = some msg.stockLocate := by
  rw [MessageGenerator.cancel] at h
  obtain ⟨loc, hloc, h⟩ := Option.bind_eq_some_iff.mp h
  obtain ⟨live, -, h⟩ := Option.bind_eq_some_iff.mp h
  cases h
  exact hloc

theorem execute_locate (h : g.execute c oi oid = some (msg, g')) :
    g.liveLocs[oi]? = some msg.stockLocate := by
  rw [MessageGenerator.execute] at h
  obtain ⟨loc, hloc, h⟩ := Option.bind_eq_some_iff.mp h
  obtain ⟨live, -, h⟩ := Option.bind_eq_some_iff.mp h
  cases h
  exact hloc

theorem delete_locate (h : g.delete oi oid = some (msg, g')) : g.liveLocs[oi]? = some msg.stockLocate := by
  rw [MessageGenerator.delete] at h
  obtain ⟨loc, hloc, h⟩ := Option.bind_eq_some_iff.mp h
  cases h
  exact hloc

theorem replace_locate (h : g.replace c oi oid = some (msg, g')) :
    g.liveLocs[oi]? = some msg.stockLocate := by
  rw [MessageGenerator.replace] at h
  obtain ⟨loc, hloc, h⟩ := Option.bind_eq_some_iff.mp h
  cases h
  exact hloc

/-- The locate of the chosen message. -/
theorem chooseMessage_locate {loc : StockLocate} {sym : Symbol}
    (h : g.chooseMessage c loc sym = some (msg, g')) :
    some msg.stockLocate = if g.liveOrders = [] ∨ uniform 0 99 c.action < 50 then some loc
      else g.liveLocs[g.pickOrder c]? := by
  unfold chooseMessage at h
  simp only [List.isEmpty_iff] at h
  by_cases hadd : g.liveOrders = [] ∨ uniform 0 99 c.action < 50
  · rw [if_pos hadd, Option.some_inj] at h
    rw [if_pos hadd]
    cases h
    rfl
  · rw [if_neg hadd] at h
    rw [if_neg hadd]
    obtain ⟨oid, -, h⟩ := Option.bind_eq_some_iff.mp h
    split_ifs at h
    · exact (cancel_locate h).symm
    · exact (execute_locate h).symm
    · exact (delete_locate h).symm
    · exact (replace_locate h).symm

end Branches

end MessageGenerator

/-- The header of a datagram names the stream of the message inside it. -/
def Emission.NamesStream (e : Emission) : Prop :=
  ∃ m, (decodeFrame (e.out.drop transportHeaderSize)).message = some m ∧ m.stockLocate = readLocate e.out

theorem AnyMessage.stockLocate_onWire (m : AnyMessage) :
    m.onWire.stockLocate = m.stockLocate := by cases m <;> rfl

theorem Calls.namesStream_iff {g g' : MessageGenerator} {live live' : List LiveOrder} {c : Draws}
    {sym : Symbol} {msg : AnyMessage} {e : Emission} (h : Calls g live c sym msg e g' live') :
    e.NamesStream ↔ g.OnOwnStream c := by
  obtain ⟨⟨chosen, g₁⟩, hchosen, hmsg⟩ := Option.map_eq_some_iff.mp h.chosen
  have hmsg : chosen = msg := hmsg
  subst hmsg
  have hheader : readLocate e.out = g.locateAt (g.pickSymbol c) := by rw [h.packs.locate, h.header]
  have hlocate := chooseMessage_locate hchosen
  have hnames : e.NamesStream ↔ chosen.stockLocate = g.locateAt (g.pickSymbol c) := by
    rw [Emission.NamesStream, h.packs.decoded, hheader, ← chosen.stockLocate_onWire]
    constructor
    · rintro ⟨m, hm, hsame⟩
      cases hm
      exact hsame
    · intro hsame
      exact ⟨_, rfl, hsame⟩
  rw [hnames, ← Option.some_inj, hlocate, OnOwnStream, ← or_assoc]
  split_ifs with hadd
  · simp [hadd]
  · simp [hadd]

/-- The headers of a run, with the table that the generator keeps. -/
theorem run_names_streams (numSymbols : ℕ) (hsymbols : 1 ≤ numSymbols) (cs : List Draws) :
    ∃ es g live, (MessageGenerator.new numSymbols).run cs = some (es, g) ∧ Tabulates g live ∧
      (∀ o ∈ live, o.qty ≠ 0) ∧
      g.symbols = (MessageGenerator.new numSymbols).symbols ∧ ((∀ e ∈ es, e.NamesStream) ↔
        ∀ pre c, pre ++ [c] <+: cs → ∀ r, (MessageGenerator.new numSymbols).run pre = some r →
          r.2.OnOwnStream c) := by
  induction cs using List.reverseRecOn with
  | nil =>
    refine ⟨[], MessageGenerator.new numSymbols, [], rfl, ⟨rfl, rfl, rfl, rfl, rfl⟩, fun o ho => ?_, rfl, ?_⟩
    · cases ho
    · simp
  | append_singleton cs c ih =>
    obtain ⟨es, g, live, hrun, htable, hqty, hsame, hnames⟩ := ih
    have hsome : g.symbols ≠ [] := by
      rw [hsame]
      exact symbols_ne_nil hsymbols
    obtain ⟨sym, msg, e, g', live', hnext, hcalls⟩ := next_calls htable hqty hsome c
    refine ⟨es ++ [e], g', live', ?_, hcalls.table, hcalls.changes.positive hqty,
      hcalls.symbols.trans hsame, ?_⟩
    · rw [MessageGenerator.run_concat, hrun, Option.bind_some, hnext]
      rfl
    · rw [TraceRuns.forall_step_concat, ← hnames, hrun]
      simp only [List.forall_mem_append, List.forall_mem_singleton, hcalls.namesStream_iff, Option.some_inj,
        forall_eq']

/-- In any run every header names the stream of its message exactly when every call that takes an order takes
one of the symbol that it picks. -/
theorem headers_name_streams_iff (numSymbols : ℕ) (hsymbols : 1 ≤ numSymbols) (cs : List Draws) :
    ∃ es g, (MessageGenerator.new numSymbols).run cs = some (es, g) ∧
      ((∀ e ∈ es, e.NamesStream) ↔
        ∀ pre c, pre ++ [c] <+: cs → ∀ r, (MessageGenerator.new numSymbols).run pre = some r →
          r.2.OnOwnStream c) := by
  obtain ⟨es, g, live, hrun, -, -, -, hnames⟩ := run_names_streams numSymbols hsymbols cs
  exact ⟨es, g, hrun, hnames⟩

/-- Two symbols, and each call after the first takes the order that is already there. -/
theorem own_orders_name_streams :
    let cs : List Draws := [⟨1, 0, 0, 0, 0, 0⟩, ⟨1, 50, 0, 0, 8, 0⟩, ⟨1, 95, 0, 0, 0, 0⟩]
    ∃ es g, (MessageGenerator.new 2).run cs = some (es, g) ∧ ∀ e ∈ es, e.NamesStream := by
  intro cs
  have hown : ∀ n : Fin 3, ((MessageGenerator.new 2).run (cs.take n)).all
    (fun r => r.2.OnOwnStream cs[n]) = true := by decide
  obtain ⟨es, g, hrun, hnames⟩ := headers_name_streams_iff 2 (by decide) cs
  refine ⟨es, g, hrun, hnames.mpr (TraceRuns.forall_step_iff.mpr fun n hn r hr => ?_)⟩
  have hcall := hown ⟨n, hn⟩
  rw [Option.all_eq_true] at hcall
  exact of_decide_eq_true (hcall r hr)

/-- An order on the first symbol is deleted in a call that picks the second one. -/
theorem header_names_other_stream : ¬ ∀ (numSymbols : ℕ) (cs : List Draws)
    (es : List Emission) (g : MessageGenerator),
    1 ≤ numSymbols → (MessageGenerator.new numSymbols).run cs = some (es, g) → ∀ e ∈ es, e.NamesStream := by
  intro hall
  have hnames := hall 2 [⟨0, 0, 0, 0, 0, 0⟩, ⟨1, 85, 0, 0, 0, 0⟩] _ _ (by decide) rfl _
    (List.mem_cons_of_mem _ (List.mem_singleton_self _))
  obtain ⟨m, hm, hsame⟩ := hnames
  cases hm
  exact absurd hsame (by decide)

end MdfeedItch
