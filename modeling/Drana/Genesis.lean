/-
The state before the first block (`InitializeState` of `internal/genesis`).
-/
import Drana.Executor

namespace Drana

open Except (throwIf wrapErr)

/-- The loop over the configured accounts, from account `i` on. -/
def initAccounts (E : Env) : Nat → UInt64 → WorldState → List GenesisAccount → Except String WorldState
  | _, _, ws, [] => .ok ws
  | i, totalSupply, ws, a :: as => do
    wrapErr (s!"account {i}: invalid address: " ++ ·) (Address.validate E a.address)
    throwIf (totalSupply > UInt64.ofNat (2 ^ 64 - 1) - a.balance) "total genesis supply overflows uint64"
    initAccounts E (i + 1) (totalSupply + a.balance)
      (ws.setAccount { address := a.address, balance := a.balance }) as

/-- A genesis validator's stake moves from its balance to its stake. -/
def initValidator (ws : WorldState) (v : GenesisValidator) : Except String WorldState :=
  if v.stake > 0 then do
    let acct := (ws.getAccount v.address).getD { address := v.address }
    throwIf (acct.balance < v.stake)
      s!"validator {Address.toString v.address}: insufficient balance {acct.balance} for stake {v.stake}"
    return ws.setAccount { acct with balance := acct.balance - v.stake, stakedBalance := v.stake }
  else return ws

/-- A genesis validator as a member of the active set; without a stake it weighs one. -/
def initialValidator (v : GenesisValidator) : ValidatorStake :=
  ⟨v.address, v.pubKey, if v.stake = 0 then 1 else v.stake⟩

def initializeState (E : Env) (cfg : GenesisConfig) : Except String WorldState := do
  let ws ← initAccounts E 0 0 {} cfg.accounts
  let ws ← cfg.validators.foldlM initValidator ws
  return { ws with
    activeValidators := cfg.validators.map initialValidator
    chainHeight := 0, burnedSupply := 0, issuedSupply := 0, currentEpoch := 0 }

end Drana
