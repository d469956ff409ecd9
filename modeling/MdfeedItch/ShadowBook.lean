import MdfeedItch.DepthBookRouting
import MdfeedItch.LevelArithmetic
import MdfeedItch.TraceRuns

/-! # A book of one symbol agrees with its shadow

The shadow of a `SymbolBook` is the reference map `OrderTable.stepAll` of the calls that
it got. As long as the shares at every price of one side fit in 32 bits, the orders, the
results of the calls and the visible levels are those of the map. -/
namespace MdfeedItch
open Std FiniteMapSums

/-- The order that a call looks up; `add_order` looks up none. -/
def BookOp.target : BookOp → Option OrderId
  | .add .. => none
  | .modify id .. => some id
  | .reduce id .. => some id
  | .delete id _ => some id
  | .replace oldId .. => some oldId

namespace SymbolBook
open OrderTable

def returns (b : SymbolBook) : BookOp → Option Bool
  | .add .. => none
  | .modify id newQty ts => some (b.modifyOrder id newQty ts).1
  | .reduce id delta ts => some (b.reduceOrder id delta ts).1
  | .delete id ts => some (b.deleteOrder id ts).1
  | .replace oldId newId newPrice newQty ts => some (b.replaceOrder oldId newId newPrice newQty ts).1

theorem replaceOrder_fst (b : SymbolBook) (oldId newId : OrderId) (newPrice : Price) (newQty : Quantity)
    (ts : Timestamp) : (b.replaceOrder oldId newId newPrice newQty ts).1 = b.hasOrder oldId := by
  unfold replaceOrder hasOrder
  split <;> simp [*]

theorem returns_eq (b : SymbolBook) (op : BookOp) : b.returns op = op.target.map b.hasOrder := by
  cases op with
  | add id side price qty ts => rfl
  | modify id newQty ts => exact congrArg some (modifyOrder_fst b id newQty ts)
  | reduce id delta ts => exact congrArg some (reduceOrder_fst b id delta ts)
  | delete id ts => exact congrArg some (deleteOrder_fst b id ts)
  | replace oldId newId newPrice newQty ts =>
    exact congrArg some (replaceOrder_fst b oldId newId newPrice newQty ts)

/-- After any calls whose shares fit, the orders and the levels are those of the shadow,
and every call has returned whether its order was live there. -/
theorem shadow_agrees (depth : ℕ) (ops : List BookOp)
    (hsums : ∀ pre, pre <+: ops → ∀ buy p, levelQty (stepAll pre) buy p < 2 ^ 32) :
    (execAll depth ops).orders = stepAll ops ∧
      (∀ pre op, pre ++ [op] <+: ops →
        (execAll depth pre).returns op = op.target.map (fun id => (stepAll pre)[id]?.isSome)) ∧
      ∀ buy, ShowsBest buy depth (levelQty (stepAll ops) buy) (levelCount (stepAll ops) buy)
        ((execAll depth ops).top buy) := by
  obtain ⟨horders, hpos⟩ := execAll_orders depth ops
  refine ⟨horders, fun pre op _ => ?_, fun buy => ?_⟩
  · have hlive : (execAll depth pre).hasOrder = fun id => (stepAll pre)[id]?.isSome := by
      funext id
      rw [hasOrder, (execAll_orders depth pre).1]
    rw [returns_eq, hlive]
  · have hagg : (execAll depth ops).Aggregated := by
      refine execAll_fits (fun pre hpre => ?_)
      rw [(execAll_orders depth pre).1]
      exact hsums pre hpre
    have hqty := hsums ops (List.prefix_refl ops) buy
    have hcount : ∀ p, levelCount (stepAll ops) buy p < 2 ^ 32 := fun p =>
      (levelCount_le_levelQty hpos buy p).trans_lt (hqty p)
    have hcarries := hagg.carries
    rw [horders] at hcarries
    have hshows := hcarries.showsBest buy hqty hcount
    rwa [execAll_depth] at hshows

theorem raised_and_zeroed :
    let ops : List BookOp := [.add 1 Side.buy 100 5 0, .add 2 Side.buy 100 7 1, .modify 1 9 2, .modify 2 0 3]
    (execAll 10 ops).orders = stepAll ops ∧
      (execAll 10 (ops.take 3)).returns (.modify 2 0 3) = some true ∧
      ShowsBest true 10 (levelQty (stepAll ops) true) (levelCount (stepAll ops) true) [⟨100, 9, 1⟩] := by
  intro ops
  have hsmall : ∀ n, n ≤ ops.length →
      sumOver (stepAll (ops.take n)) (fun o => o.qty.toNat) < 2 ^ 32 := by decide
  obtain ⟨horders, hreturns, hshows⟩ := shadow_agrees 10 ops
    (TraceRuns.forall_prefix_iff.mpr (fun n hn buy p => (levelQty_le_total _ buy p).trans_lt (hsmall n hn)))
  refine ⟨horders, (hreturns (ops.take 3) (.modify 2 0 3) (List.prefix_refl ops)).trans (by decide), ?_⟩
  have htop : (execAll 10 ops).top true = [⟨100, 9, 1⟩] := by decide
  rw [← htop]
  exact hshows true

end SymbolBook

end MdfeedItch
