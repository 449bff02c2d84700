/-
The consensus rules (`proposer.go`, `validator.go` of `internal/consensus`):
who proposes at a height, what makes a quorum, and the checks on a proposed
block and on a quorum certificate.
-/
import Drana.StateRoot
import Drana.Genesis

namespace Drana

open Except (throwIf wrapErr)

/-! ## Stake -/

def totalStake (validators : List ValidatorStake) : UInt64 :=
  validators.foldl (fun total v => total + v.stakedBalance) 0

def quorumThreshold (validators : List ValidatorStake) : UInt64 := mulDiv (totalStake validators) 2 3 + 1

def validatorsFromGenesis (gv : List GenesisValidator) : List ValidatorStake := gv.map initialValidator

/-- The `stakeMap` of both quorum checks. -/
def stakeMap (validators : List ValidatorStake) : GoMap Address UInt64 :=
  GoMap.insertAll ∅ (validators.map fun v => (v.address, v.stakedBalance))

/-! ## Proposers -/

/-- The loop of `ProposerForHeight`. -/
def proposerOfSlot (slot : UInt64) : UInt64 → List ValidatorStake → Option ValidatorStake
  | _, [] => none
  | cumulative, v :: vs =>
    let cumulative := cumulative + v.stakedBalance
    if slot < cumulative then some v else proposerOfSlot slot cumulative vs

/-- Without validators, Go's zero `ValidatorStake`. -/
def proposerForHeight (validators : List ValidatorStake) (height : UInt64) : ValidatorStake :=
  match validators.getLast? with
  | none => ⟨.zero, .zero, 0⟩
  | some last =>
    let total := totalStake validators
    if total = 0 then (validators[(height % UInt64.ofNat validators.length).toNat]?).getD last
    else (proposerOfSlot (height % total) 0 validators).getD last

def isProposer (validators : List ValidatorStake) (height : UInt64) (addr : Address) : Bool :=
  (proposerForHeight validators height).address = addr

/-! ## Proposed blocks -/

/-- Seconds. -/
def allowedFutureDrift : Int64 := 15

/-- The block after `lastBlock` has its height and one more; the first has 1. -/
def nextHeight (lastBlock : Option Block) : UInt64 := lastBlock.elim 1 (·.header.height + 1)

/-- The header hash of `lastBlock`, zero before the first. -/
def lastHash (E : Env) (lastBlock : Option Block) : Hash := lastBlock.elim .zero (·.header.hash E)

/-- The first of the timestamp rules: later than the parent. -/
def checkAfterParent (timestamp : Int64) : Option Block → Except String Unit
  | none => .ok ()
  | some last =>
    throwIf (timestamp ≤ last.header.timestamp)
      s!"timestamp must be after parent: got {timestamp}, parent {last.header.timestamp}"

/-- `ValidateProposedBlock` with the clock at `now`. The trial execution ranges
over maps as `ord` says, the root as `rootOrd` does. -/
def validateProposedBlock (E : Env) (ord : Nat → RangeOrder) (rootOrd : RangeOrder) (now : Int64) (block : Block)
    (currentState : WorldState) (lastBlock : Option Block) (validators : List ValidatorStake)
    (params : GenesisConfig) : Except String Unit := do
  let expectedHeight := nextHeight lastBlock
  throwIf (block.header.height ≠ expectedHeight)
    s!"wrong height: got {block.header.height}, want {expectedHeight}"
  throwIf (block.header.prevHash ≠ lastHash E lastBlock) "wrong parent hash"
  let expectedProposer := proposerForHeight validators block.header.height
  throwIf (block.header.proposerAddr ≠ expectedProposer.address)
    s!"wrong proposer: got {Address.toString block.header.proposerAddr}, want {Address.toString expectedProposer.address}"
  checkAfterParent block.header.timestamp lastBlock
  let maxTime := now + allowedFutureDrift
  throwIf (block.header.timestamp > maxTime) s!"timestamp too far in future: {block.header.timestamp} > {maxTime}"
  throwIf (block.header.txRoot ≠ computeTxRoot E block.transactions) "tx root mismatch"
  throwIf (params.maxTxPerBlock > 0 ∧ (block.transactions.length : Int) > params.maxTxPerBlock.toInt)
    s!"too many transactions: {block.transactions.length} > {params.maxTxPerBlock}"
  let newState ← wrapErr ("block execution failed: " ++ ·) (applyBlock E .go params ord currentState block)
  throwIf (block.header.stateRoot ≠ computeStateRoot E rootOrd newState) "state root mismatch"

/-! ## Quorum certificates -/

/-- One vote of a certificate: the voters seen so far and their stake. -/
def countVote (E : Env) (stakes : GoMap Address UInt64) (qc : QuorumCertificate) (acc : Finset Address × UInt64)
    (vote : BlockVote) : Finset Address × UInt64 :=
  match stakes.lookup vote.voterAddr with
  | none => acc
  | some stake =>
    if vote.voterAddr ∈ acc.1 then acc
    else if vote.height ≠ qc.height ∨ vote.blockHash ≠ qc.blockHash then acc
    else if !verifyBlockVote E vote then acc
    else (insert vote.voterAddr acc.1, acc.2 + stake)

def validateQuorumCertificate (E : Env) (qc : QuorumCertificate) (blockHash : Hash)
    (validators : List ValidatorStake) : Except String Unit := do
  throwIf (qc.blockHash ≠ blockHash) "QC block hash mismatch"
  let voteStake := (qc.votes.foldl (countVote E (stakeMap validators) qc) (∅, 0)).2
  let required := quorumThreshold validators
  throwIf (voteStake < required) s!"insufficient vote stake: got {voteStake}, need {required}"

end Drana
