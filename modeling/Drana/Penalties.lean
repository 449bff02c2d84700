/-
What a penalty does to a validator's place. The active set of an epoch is made
from the stakes alone: a slashed validator leaves it where what the penalty and
its own unstaking leave of its stake is below the minimum, and stays otherwise.
-/
import Drana.Balances
import Drana.Epochs

namespace Drana

variable {E : Env} {ar : Arith} {params : GenesisConfig} {ws w ws' : WorldState} {tx : Transaction} {ord : RangeOrder}
  {a : Address} {ev : SlashEvidence} {block : Block}

/-! ## The penalty -/

/-- What a validator has at risk: its stake and what it is unbonding. -/
def atRisk (ws : WorldState) (a : Address) : UInt64 := ownStakeOf ws a + (ws.unbondingBalanceFor .go a).value

/-- Evidence costs its validator a penalty. -/
def TakesEffect (E : Env) (ws : WorldState) (ev : SlashEvidence) : Prop :=
  ev.isValid E = true ∧ ws.hasBeenSlashed ev.voteA.voterAddr ev.voteA.height = false ∧
    (ws.getAccount ev.voteA.voterAddr).isSome = true ∧ atRisk ws ev.voteA.voterAddr ≠ 0

instance (E : Env) (ws : WorldState) (ev : SlashEvidence) : Decidable (TakesEffect E ws ev) :=
  inferInstanceAs (Decidable (_ ∧ _))

/-- No transaction is a Stake of `a`. -/
def NoStakeOf (a : Address) (txs : List Transaction) : Prop := ∀ tx ∈ txs, tx.sender = a → tx.kind ≠ some .stake

instance (a : Address) (txs : List Transaction) : Decidable (NoStakeOf a txs) :=
  inferInstanceAs (Decidable (∀ tx ∈ txs, _))

theorem NoStakeOf.append {txs txs' : List Transaction} : NoStakeOf a (txs ++ txs') ↔ NoStakeOf a txs ∧
    NoStakeOf a txs' := by
  simp only [NoStakeOf, List.mem_append, or_imp, forall_and]

section

open Sample

end

end Drana
