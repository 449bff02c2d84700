/-
The state transition (`internal/state/executor.go`): one function for each
transaction type, slashing, and `ApplyBlock` over a whole block.

Every `+` and `-` on a `uint64` goes through an `Arith`; Go's is `Arith.go`.
`WorldState.Clone` is not needed: a state is a value, and a failing block
leaves the old one.
-/
import Drana.Validation

namespace Drana

open Except (orThrow throwIf wrapErr)

/-! ## Credits -/

/-- Add to the balance of an account, which is created if need be. -/
def depositAccount (ar : Arith) (ws : WorldState) (addr : Address) (amount : UInt64) :
    Except String WorldState := do
  let acct := (ws.getAccount addr).getD { address := addr }
  let balance ← ar.add acct.balance amount
  return ws.setAccount { acct with balance }

/-- Add to the balance of an account, if it exists. -/
def creditAccount (ar : Arith) (ws : WorldState) (addr : Address) (amount : UInt64) :
    Except String WorldState :=
  match ws.getAccount addr with
  | some acct => do
    let balance ← ar.add acct.balance amount
    return ws.setAccount { acct with balance }
  | none => return ws

/-! ## Transactions -/

def applyTransfer (ar : Arith) (ws : WorldState) (tx : Transaction) : Except String WorldState := do
  let sender ← orThrow (ws.getAccount tx.sender) "sender account not found"
  throwIf (sender.balance < tx.amount) "balance underflow"
  let balance ← ar.sub sender.balance tx.amount
  let nonce ← ar.add sender.nonce 1
  let ws := ws.setAccount { sender with balance, nonce }
  -- Read after the debit: the recipient's record may be the sender's.
  depositAccount ar ws tx.recipient tx.amount

/-- The fee of a post: `PostFeePercent` of the amount, 6 percent by default. -/
def postFee (params : GenesisConfig) (amount : UInt64) : UInt64 :=
  let feePercent := if params.postFeePercent = 0 then 6 else params.postFeePercent
  mulDiv amount feePercent 100

def applyCreatePost (E : Env) (ar : Arith) (params : GenesisConfig) (ws : WorldState) (tx : Transaction)
    (blockHeight : UInt64) (blockTime : Int64) : Except String WorldState := do
  let author ← orThrow (ws.getAccount tx.sender) "author account not found"
  throwIf (author.balance < tx.amount) "balance underflow"
  let fee := postFee params tx.amount
  let staked ← ar.sub tx.amount fee
  let nonce ← ar.add author.nonce 1
  let postID := derivePostID E tx.sender nonce
  let post : Post :=
    { postID, author := tx.sender, text := tx.text, channel := tx.channel, parentPostID := tx.postID
      createdAtHeight := blockHeight, createdAtTime := blockTime
      totalStaked := staked, totalBurned := fee, stakerCount := 1 }
  let balance ← ar.sub author.balance tx.amount
  let postStakeBalance ← ar.add author.postStakeBalance staked
  let burned ← ar.add ws.burnedSupply fee
  let ws := ws.setAccount { author with balance, postStakeBalance, nonce }
  let ws := ws.setPost post
  let ws := ws.setPostStake ⟨postID, tx.sender, staked, blockHeight⟩
  return { ws with burnedSupply := burned }

/-- Burn, author and staker percentages of a boost: 3, 2 and 1 by default. -/
def boostPercents (params : GenesisConfig) : UInt64 × UInt64 × UInt64 :=
  if params.boostBurnPercent = 0 ∧ params.boostAuthorPercent = 0 ∧ params.boostStakerPercent = 0 then
    (3, 2, 1)
  else
    (params.boostBurnPercent, params.boostAuthorPercent, params.boostStakerPercent)

def burnAmount (params : GenesisConfig) (amount : UInt64) : UInt64 :=
  mulDiv amount (boostPercents params).1 100

def authorReward (params : GenesisConfig) (amount : UInt64) : UInt64 :=
  mulDiv amount (boostPercents params).2.1 100

def stakerReward (params : GenesisConfig) (amount : UInt64) : UInt64 :=
  mulDiv amount (boostPercents params).2.2 100

/-- The author's part of a boost. -/
def payAuthor (ar : Arith) (ws : WorldState) (author : Address) (reward : UInt64) :
    Except String WorldState :=
  if reward > 0 then creditAccount ar ws author reward else return ws

/-- One staker's part of the staker reward. -/
def stakerShare (reward totalStaked : UInt64) (s : PostStake) : UInt64 :=
  mulDiv reward s.amount totalStaked

def payStaker (ar : Arith) (reward totalStaked : UInt64) (ws : WorldState) (s : PostStake) :
    Except String WorldState :=
  if stakerShare reward totalStaked s > 0 then
    creditAccount ar ws s.staker (stakerShare reward totalStaked s)
  else return ws

/-- The stakers' part of a boost, pro rata. -/
def payStakers (ar : Arith) (ord : RangeOrder) (ws : WorldState) (post : Post) (postID : PostID)
    (reward : UInt64) : Except String WorldState :=
  if reward > 0 ∧ post.totalStaked > 0 then
    (ws.getPostStakers ord postID).foldlM (payStaker ar reward post.totalStaked) ws
  else return ws

/-- The booster's position after a boost: the old one grown, or a new one. -/
def addBoostStake (ar : Arith) (ws : WorldState) (post : Post) (tx : Transaction) (staked : UInt64)
    (blockHeight : UInt64) : Except String WorldState :=
  match ws.getPostStake tx.postID tx.sender with
  | some existing => do
    let amount ← ar.add existing.amount staked
    return (ws.setPostStake { existing with amount }).setPost post
  | none => do
    let stakerCount ← ar.add post.stakerCount 1
    return (ws.setPostStake ⟨tx.postID, tx.sender, staked, blockHeight⟩).setPost { post with stakerCount }

/-- What a boost leaves to be staked. -/
def boostStaked (ar : Arith) (params : GenesisConfig) (amount : UInt64) : Except String UInt64 := do
  let rest ← ar.sub amount (burnAmount params amount)
  let rest ← ar.sub rest (authorReward params amount)
  ar.sub rest (stakerReward params amount)

def applyBoostPost (ar : Arith) (params : GenesisConfig) (ord : RangeOrder) (ws : WorldState)
    (tx : Transaction) (blockHeight : UInt64) : Except String WorldState := do
  let booster ← orThrow (ws.getAccount tx.sender) "booster account not found"
  throwIf (booster.balance < tx.amount) "balance underflow"
  let post ← orThrow (ws.getPost tx.postID) "post not found"
  let staked ← boostStaked ar params tx.amount
  let balance ← ar.sub booster.balance tx.amount
  let postStakeBalance ← ar.add booster.postStakeBalance staked
  let nonce ← ar.add booster.nonce 1
  let ws := ws.setAccount { booster with balance, postStakeBalance, nonce }
  let burnedSupply ← ar.add ws.burnedSupply (burnAmount params tx.amount)
  let ws := { ws with burnedSupply }
  let ws ← payAuthor ar ws post.author (authorReward params tx.amount)
  let ws ← payStakers ar ord ws post tx.postID (stakerReward params tx.amount)
  let totalStaked ← ar.add post.totalStaked staked
  let totalBurned ← ar.add post.totalBurned (burnAmount params tx.amount)
  addBoostStake ar ws { post with totalStaked, totalBurned } tx staked blockHeight

/-- Give a stake back to its holder, if the account exists. -/
def returnStake (ar : Arith) (ws : WorldState) (s : PostStake) : Except String WorldState :=
  match ws.getAccount s.staker with
  | some acct => do
    let balance ← ar.add acct.balance s.amount
    let postStakeBalance ← ar.sub acct.postStakeBalance s.amount
    return ws.setAccount { acct with balance, postStakeBalance }
  | none => return ws

/-- One iteration of the author's withdrawal: a staker is unstaked. -/
def forceUnstake (ar : Arith) (postID : PostID) (acc : WorldState × Post) (s : PostStake) :
    Except String (WorldState × Post) := do
  let ws ← returnStake ar acc.1 s
  let totalStaked ← ar.sub acc.2.totalStaked s.amount
  let stakerCount ← ar.sub acc.2.stakerCount 1
  return (ws.removePostStake postID s.staker, { acc.2 with totalStaked, stakerCount })

def applyUnstakePost (ar : Arith) (ord : RangeOrder) (ws : WorldState) (tx : Transaction) :
    Except String WorldState := do
  let sender ← orThrow (ws.getAccount tx.sender) "sender account not found"
  let stake ← orThrow (ws.getPostStake tx.postID tx.sender) "no active stake on this post"
  let post ← orThrow (ws.getPost tx.postID) "post not found"
  let balance ← ar.add sender.balance stake.amount
  let postStakeBalance ← ar.sub sender.postStakeBalance stake.amount
  let nonce ← ar.add sender.nonce 1
  let ws := ws.setAccount { sender with balance, postStakeBalance, nonce }
  let totalStaked ← ar.sub post.totalStaked stake.amount
  let stakerCount ← ar.sub post.stakerCount 1
  let post := { post with totalStaked, stakerCount }
  let ws := ws.removePostStake tx.postID tx.sender
  if tx.sender = post.author then do
    let post := { post with withdrawn := true }
    let (ws, post) ← (ws.getPostStakers ord tx.postID).foldlM (forceUnstake ar tx.postID) (ws, post)
    return ws.setPost post
  else
    return ws.setPost post

def applyStake (ar : Arith) (ws : WorldState) (tx : Transaction) : Except String WorldState := do
  let sender ← orThrow (ws.getAccount tx.sender) "sender account not found"
  throwIf (sender.balance < tx.amount) "balance underflow"
  let balance ← ar.sub sender.balance tx.amount
  let stakedBalance ← ar.add sender.stakedBalance tx.amount
  let nonce ← ar.add sender.nonce 1
  let ws := ws.setAccount { sender with balance, stakedBalance, nonce }
  return ws.setValidatorPubKey tx.sender tx.pubKey

def applyUnstake (ar : Arith) (params : GenesisConfig) (ws : WorldState) (tx : Transaction)
    (blockHeight : UInt64) : Except String WorldState := do
  let sender ← orThrow (ws.getAccount tx.sender) "sender account not found"
  throwIf (sender.stakedBalance < tx.amount) "insufficient staked balance"
  let stakedBalance ← ar.sub sender.stakedBalance tx.amount
  let nonce ← ar.add sender.nonce 1
  let ws := ws.setAccount { sender with stakedBalance, nonce }
  let releaseHeight ← ar.add blockHeight params.unbondingPeriod
  return ws.addUnbondingEntry ⟨tx.sender, tx.amount, releaseHeight⟩

def applyRegisterName (ar : Arith) (ws : WorldState) (tx : Transaction) : Except String WorldState := do
  let sender ← orThrow (ws.getAccount tx.sender) "sender account not found"
  let nonce ← ar.add sender.nonce 1
  let ws := ws.setAccount { sender with nonce, name := tx.text }
  return ws.registerName tx.sender tx.text

def applyTransaction (E : Env) (ar : Arith) (params : GenesisConfig) (ord : RangeOrder) (ws : WorldState)
    (tx : Transaction) (blockHeight : UInt64) (blockTime : Int64) : Except String WorldState :=
  match tx.kind with
  | some .transfer => applyTransfer ar ws tx
  | some .createPost => applyCreatePost E ar params ws tx blockHeight blockTime
  | some .boostPost => applyBoostPost ar params ord ws tx blockHeight
  | some .unstakePost => applyUnstakePost ar ord ws tx
  | some .registerName => applyRegisterName ar ws tx
  | some .stake => applyStake ar ws tx
  | some .unstake => applyUnstake ar params ws tx blockHeight
  | none => .error s!"unknown tx type: {tx.type}"

/-! ## Slashing -/

/-- The penalty on what is at risk: the configured percentage, at least one. -/
def slashAmount (params : GenesisConfig) (totalAtRisk : UInt64) : UInt64 :=
  let amount := mulDiv totalAtRisk params.slashFractionDoubleSign 100
  if amount = 0 then 1 else amount

/-- What the stake does not cover comes from the queue. -/
def slashRest (ar : Arith) (ws : WorldState) (addr : Address) (remaining : UInt64) :
    Except String WorldState :=
  if remaining > 0 then ws.slashUnbonding ar addr remaining else return ws

/-- The penalty itself: from the stake first, the rest from the queue. -/
def slashAccount (ar : Arith) (params : GenesisConfig) (ws : WorldState) (addr : Address) (height : UInt64)
    (acct : Account) (totalAtRisk : UInt64) : Except String WorldState := do
  let amount := slashAmount params totalAtRisk
  let fromStake := if amount > acct.stakedBalance then acct.stakedBalance else amount
  let stakedBalance ← ar.sub acct.stakedBalance fromStake
  let remaining ← ar.sub amount fromStake
  let ws := ws.setAccount { acct with stakedBalance }
  let ws ← slashRest ar ws addr remaining
  let ws := ws.recordSlash addr height
  let burnedSupply ← ar.add ws.burnedSupply amount
  return { ws with burnedSupply }

def applySlashEvidence (E : Env) (ar : Arith) (params : GenesisConfig) (ws : WorldState)
    (ev : SlashEvidence) : Except String WorldState :=
  let addr := ev.voteA.voterAddr
  if !ev.isValid E then return ws
  else if ws.hasBeenSlashed addr ev.voteA.height then return ws
  else
    match ws.getAccount addr with
    | none => return ws
    | some acct => do
      let unbonding ← ws.unbondingBalanceFor ar addr
      let totalAtRisk ← ar.add acct.stakedBalance unbonding
      if totalAtRisk = 0 then return ws
      else slashAccount ar params ws addr ev.voteA.height acct totalAtRisk

/-! ## Blocks -/

/-- Step 1: what has matured is paid out. -/
def releaseMatured (ar : Arith) (ws : WorldState) (height : UInt64) : Except String WorldState :=
  let (matured, ws) := ws.removeMaturedUnbonding height
  matured.foldlM (fun ws e => depositAccount ar ws e.address e.amount) ws

/-- Step 2. -/
def processEvidence (E : Env) (ar : Arith) (params : GenesisConfig) (ws : WorldState)
    (evidence : List SlashEvidence) : Except String WorldState :=
  evidence.foldlM (applySlashEvidence E ar params) ws

/-- Step 3, one transaction: validated, then applied. -/
def executeTransaction (E : Env) (ar : Arith) (params : GenesisConfig) (ord : RangeOrder) (header : BlockHeader)
    (i : Nat) (ws : WorldState) (tx : Transaction) : Except String WorldState := do
  wrapErr (s!"tx {i} validation failed: " ++ ·) (validateTransaction E tx ws.reader params)
  wrapErr (s!"tx {i} apply failed: " ++ ·)
    (applyTransaction E ar params ord ws tx header.height header.timestamp)

/-- Step 3, from transaction `i` on. Each transaction has its own map order. -/
def executeTransactions (E : Env) (ar : Arith) (params : GenesisConfig) (ord : Nat → RangeOrder)
    (header : BlockHeader) : Nat → WorldState → List Transaction → Except String WorldState
  | _, ws, [] => return ws
  | i, ws, tx :: txs => do
    let ws ← executeTransaction E ar params (ord i) header i ws tx
    executeTransactions E ar params ord header (i + 1) ws txs

/-- Step 4. -/
def issueReward (ar : Arith) (params : GenesisConfig) (ws : WorldState) (proposerAddr : Address) :
    Except String WorldState :=
  if params.blockReward > 0 then do
    let ws ← depositAccount ar ws proposerAddr params.blockReward
    let issuedSupply ← ar.add ws.issuedSupply params.blockReward
    return { ws with issuedSupply }
  else return ws

/-- Step 5: at an epoch's last block the active set is computed anew. -/
def epochTransition (params : GenesisConfig) (ord : RangeOrder) (ws : WorldState) (height : UInt64) :
    WorldState :=
  if params.epochLength > 0 ∧ height > 0 ∧ height % params.epochLength = 0 then
    { ws with
      activeValidators := ws.computeActiveValidatorSet ord params.minStake
      currentEpoch := height / params.epochLength }
  else ws

/-- `ApplyBlock`, ranging over maps in the `i`th order for transaction `i` and
in the one after the last for the epoch transition. -/
def applyBlock (E : Env) (ar : Arith) (params : GenesisConfig) (ord : Nat → RangeOrder) (ws : WorldState)
    (block : Block) : Except String WorldState := do
  let ws ← releaseMatured ar ws block.header.height
  let ws ← processEvidence E ar params ws block.evidence
  let ws ← executeTransactions E ar params ord block.header 0 ws block.transactions
  let ws ← issueReward ar params ws block.header.proposerAddr
  let ws := epochTransition params (ord block.transactions.length) ws block.header.height
  return { ws with chainHeight := block.header.height }

/-- A run of `ApplyBlock` calls, each with its map orders. -/
def applyBlocks (E : Env) (ar : Arith) (params : GenesisConfig) (ws : WorldState)
    (blocks : List ((Nat → RangeOrder) × Block)) : Except String WorldState :=
  blocks.foldlM (fun ws b => applyBlock E ar params b.1 ws b.2) ws

end Drana
