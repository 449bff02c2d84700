/-
A node's consensus engine (`internal/consensus/engine.go`): its last block and
state, what it does when asked to propose, and its handlers.

Messages are what `p2p` makes of them: byte fields copied into arrays, and
blocks without evidence, which is not sent. What the engine takes from outside
a message is an argument: the clock, the transactions `ReapForBlock` returned,
and the orders in which maps are ranged over. The stores save what they are
given.
-/
import Drana.Consensus
import Drana.Run

namespace Drana

open Except (orThrow throwIf wrapErr)

/-! ## Messages -/

/-- `pb.Block`. -/
structure PbBlock where
  header : BlockHeader
  transactions : List Transaction
  qc : Option QuorumCertificate := none
deriving DecidableEq

/-- `pb.FinalizedBlock`; either field may be missing, but a missing block makes
`BlockFromProto` panic. -/
structure FinalizedBlock where
  block : PbBlock
  qc : Option QuorumCertificate
deriving DecidableEq

/-- `BlockFromProto`. -/
def blockFromProto (b : PbBlock) : Block := { header := b.header, transactions := b.transactions, qc := b.qc }

/-! ## The engine -/

structure Engine where
  params : GenesisConfig
  genesisValSet : List GenesisValidator
  privKey : PrivateKey
  address : Address
  state : WorldState
  currentHeight : UInt64
  lastBlock : Option Block

/-- One piece of code that executes a block and computes the root of the new state. -/
structure Orders where
  block : Nat → RangeOrder
  root : RangeOrder

namespace Engine

def activeValidators (e : Engine) : List ValidatorStake :=
  if e.state.activeValidators.length > 0 then e.state.activeValidators
  else validatorsFromGenesis e.genesisValSet

def commitBlock (e : Engine) (block : Block) (newState : WorldState) : Engine :=
  { e with state := newState, lastBlock := some block, currentHeight := block.header.height }

/-- The node's vote for a header. -/
def castVote (E : Env) (e : Engine) (header : BlockHeader) : BlockVote :=
  signBlockVote E
    { height := header.height, blockHash := header.hash E, voterAddr := e.address, voterPubKey := .zero
      signature := .empty } e.privKey

/-! ## Proposing -/

/-- `proposeBlock` up to its own vote: the block at `height` and the state after it. -/
def assembleBlock (E : Env) (o : Orders) (e : Engine) (height : UInt64) (txs : List Transaction)
    (timestamp : Int64) : Except String (Block × WorldState) := do
  let header : BlockHeader :=
    { height, prevHash := lastHash E e.lastBlock, proposerAddr := e.address, timestamp
      stateRoot := .zero, txRoot := computeTxRoot E txs }
  let block : Block := { header, transactions := txs }
  let newState ← wrapErr ("trial execute: " ++ ·) (applyBlock E .go e.params o.block e.state block)
  return ({ block with header := { header with stateRoot := computeStateRoot E o.root newState } }, newState)

/-- The stake behind the votes, each vote counted. -/
def tallyVotes (E : Env) (stakes : GoMap Address UInt64) (height : UInt64) (blockHash : Hash)
    (votes : List BlockVote) : UInt64 :=
  votes.foldl (fun voteStake v =>
    if verifyBlockVote E v ∧ v.height = height ∧ v.blockHash = blockHash then
      voteStake + (stakes.lookup v.voterAddr).getD 0
    else voteStake) 0

/-- The votes for a block: the proposer's own, then the replies. -/
def proposalVotes (E : Env) (e : Engine) (block : Block) (replies : List BlockVote) : List BlockVote :=
  e.castVote E block.header :: replies

/-- `proposeBlock` from the replies of the peers on: the block with its
certificate, and the state, to commit. -/
def certifyProposal (E : Env) (e : Engine) (block : Block) (newState : WorldState) (replies : List BlockVote) :
    Except String (Block × WorldState) := do
  let votes := e.proposalVotes E block replies
  let voteStake := tallyVotes E (stakeMap e.activeValidators) block.header.height (block.header.hash E) votes
  let required := quorumThreshold e.activeValidators
  throwIf (voteStake < required) s!"insufficient vote stake: {voteStake}/{required}"
  return ({ block with qc := some ⟨block.header.height, block.header.hash E, votes⟩ }, newState)

def proposeBlock (E : Env) (o : Orders) (e : Engine) (height : UInt64) (txs : List Transaction) (timestamp : Int64)
    (replies : List BlockVote) : Except String Engine := do
  let (block, newState) ← e.assembleBlock E o height txs timestamp
  let (block, newState) ← e.certifyProposal E block newState replies
  return e.commitBlock block newState

/-! ## Handlers -/

/-- `ValidateProposedBlock` against what the engine stores. -/
def validateBlock (E : Env) (o : Orders) (e : Engine) (now : Int64) (block : Block) : Except String Unit :=
  validateProposedBlock E o.block o.root now block e.state e.lastBlock e.activeValidators e.params

def onProposal (E : Env) (o : Orders) (e : Engine) (now : Int64) (proposal : PbBlock) : Except String BlockVote := do
  let block := blockFromProto proposal
  wrapErr ("invalid proposal: " ++ ·) (e.validateBlock E o now block)
  return e.castVote E block.header

/-- `OnFinalizedBlock` up to the commit: the block and the state to commit,
none for a block the node has. `o` is for the validation, `ord` for the
execution after it. -/
def acceptFinalized (E : Env) (o : Orders) (ord : Nat → RangeOrder) (e : Engine) (now : Int64) (fb : FinalizedBlock) :
    Except String (Option (Block × WorldState)) := do
  let block := blockFromProto fb.block
  let qc ← orThrow fb.qc "nil pointer dereference"
  wrapErr ("invalid QC: " ++ ·) (validateQuorumCertificate E qc (block.header.hash E) e.activeValidators)
  if block.header.height ≤ e.currentHeight then return none
  else do
    wrapErr ("invalid finalized block: " ++ ·) (e.validateBlock E o now block)
    let newState ← wrapErr ("apply finalized block: " ++ ·) (applyBlock E .go e.params ord e.state block)
    return some ({ block with qc := some qc }, newState)

def onFinalizedBlock (E : Env) (o : Orders) (ord : Nat → RangeOrder) (e : Engine) (now : Int64)
    (fb : FinalizedBlock) : Except String Engine := do
  let commit ← e.acceptFinalized E o ord now fb
  return commit.elim e fun c => e.commitBlock c.1 c.2

/-! ## Syncing -/

/-- The certificate of a synced block: checked, and put into the block, if
there is one. -/
def checkSyncedQC (E : Env) (e : Engine) (fb : FinalizedBlock) : Except String Block :=
  let block := blockFromProto fb.block
  match fb.qc with
  | some qc => do
    wrapErr (s!"sync: invalid QC at height {block.header.height}: " ++ ·)
      (validateQuorumCertificate E qc (block.header.hash E) e.activeValidators)
    return { block with qc := some qc }
  | none => return block

/-- One iteration of `SyncToNetwork` over the blocks of a reply, up to the commit. -/
def acceptSynced (E : Env) (o : Orders) (ord : Nat → RangeOrder) (e : Engine) (now : Int64) (fb : FinalizedBlock) :
    Except String (Block × WorldState) := do
  let block ← e.checkSyncedQC E fb
  wrapErr (s!"sync: invalid block at height {block.header.height}: " ++ ·) (e.validateBlock E o now block)
  let newState ← wrapErr (s!"sync: apply block {block.header.height}: " ++ ·)
    (applyBlock E .go e.params ord e.state block)
  return (block, newState)

end Engine

/-! ## Runs of one node -/

/-- What a node does, or is asked to do, under its lock. A sync reply is a
`synced` for each of its blocks until one fails. -/
inductive Event
  | propose (o : Orders) (height : UInt64) (txs : List Transaction) (timestamp : Int64) (replies : List BlockVote)
  | proposal (o : Orders) (now : Int64) (block : PbBlock)
  | finalized (o : Orders) (ord : Nat → RangeOrder) (now : Int64) (fb : FinalizedBlock)
  | synced (o : Orders) (ord : Nat → RangeOrder) (now : Int64) (fb : FinalizedBlock)

namespace Engine

/-- What an event commits. -/
def commits (E : Env) (e : Engine) : Event → Option (Block × WorldState)
  | .propose o height txs timestamp replies =>
    match e.assembleBlock E o height txs timestamp with
    | .ok (block, newState) => (e.certifyProposal E block newState replies).toOption
    | .error _ => none
  | .proposal _ _ _ => none
  | .finalized o ord now fb => (e.acceptFinalized E o ord now fb).toOption.join
  | .synced o ord now fb => (e.acceptSynced E o ord now fb).toOption

/-- The header an event makes the node vote for. -/
def votesFor (E : Env) (e : Engine) : Event → Option BlockHeader
  | .propose o height txs timestamp _ => (e.assembleBlock E o height txs timestamp).toOption.map (·.1.header)
  | .proposal o now block => if (e.onProposal E o now block).isOk then some block.header else none
  | .finalized _ _ _ _ => none
  | .synced _ _ _ _ => none

/-- The engine after an event. -/
def next (E : Env) (e : Engine) (ev : Event) : Engine := (e.commits E ev).elim e fun c => e.commitBlock c.1 c.2

/-- The engine after a run. -/
def run (E : Env) (e : Engine) (evs : List Event) : Engine := evs.foldl (next E) e

/-- `P` of every event of a run and the engine it meets. -/
def Along (E : Env) (P : Engine → Event → Prop) : Engine → List Event → Prop
  | _, [] => True
  | e, ev :: evs => P e ev ∧ Along E P (e.next E ev) evs

/-- The votes signed along a run. -/
def signed (E : Env) : Engine → List Event → List BlockVote
  | _, [] => []
  | e, ev :: evs => ((e.votesFor E ev).map (e.castVote E)).toList ++ signed E (e.next E ev) evs

variable {E : Env} {e e' : Engine} {ev : Event} {evs : List Event} {P Q : Engine → Event → Prop}

theorem Along.mono (h : Along E P e evs) (hPQ : ∀ e ev, P e ev → Q e ev) : Along E Q e evs := by
  induction evs generalizing e with
  | nil => trivial
  | cons ev evs ih => exact ⟨hPQ e ev h.1, ih h.2⟩

/-! ### The events are the handlers -/

/-- **What an event makes of the engine is what its handler makes of it**; a
handler that fails leaves it as it is. -/
theorem next_handler : e.next E ev =
    match ev with
    | .propose o height txs timestamp replies => (e.proposeBlock E o height txs timestamp replies).toOption.getD e
    | .proposal _ _ _ => e
    | .finalized o ord now fb => (e.onFinalizedBlock E o ord now fb).toOption.getD e
    | .synced o ord now fb => (e.acceptSynced E o ord now fb).toOption.elim e fun c => e.commitBlock c.1 c.2 := by
  cases ev with
  | propose o height txs timestamp replies =>
    simp only [next, commits, proposeBlock]
    cases e.assembleBlock E o height txs timestamp with
    | error err => rfl
    | ok r =>
      simp only [Except.ok_bind]
      cases e.certifyProposal E r.1 r.2 replies <;> rfl
  | proposal => rfl
  | finalized o ord now fb =>
    simp only [next, commits, onFinalizedBlock]
    cases e.acceptFinalized E o ord now fb with
    | error err => rfl
    | ok c => cases c <;> rfl
  | synced => rfl

/-- **The vote for a proposal is the one its handler replies with.** -/
theorem signed_proposal {o : Orders} {now : Int64} {block : PbBlock} :
    (e.votesFor E (.proposal o now block)).map (e.castVote E) = (e.onProposal E o now block).toOption := by
  cases h : e.onProposal E o now block with
  | ok vote =>
    have hvote := h
    simp only [onProposal, Except.bind_ok_iff, Except.pure_ok_iff] at hvote
    obtain ⟨u, -, rfl⟩ := hvote
    rw [votesFor, h]
    rfl
  | error err =>
    rw [votesFor, h]
    rfl

end Engine

/-! ## Nodes to compute with -/

deriving instance Inhabited for BlockHeader, Block

namespace Sample

/-- Three validators of the same stake. -/
def config3 : GenesisConfig :=
  { config with validators := [1, 2, 3].map fun n => ⟨address n, (key n).publicKey, 100⟩ }

def genesis3 : WorldState := (initializeState env config3).value

/-- The node of key `n` at genesis. -/
def node (n : UInt8) : Engine where
  params := config3
  genesisValSet := config3.validators
  privKey := key n
  address := address n
  state := genesis3
  currentHeight := 0
  lastBlock := none

def orders : Orders := ⟨fun _ => order, order⟩

end Sample

end Drana
