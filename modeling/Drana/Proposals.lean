/-
What a proposer broadcasts (`proposeBlock` of `internal/consensus/engine.go`)
is what its peers check (`ValidateProposedBlock`). Builder and validator are
written apart: a peer sees the block without its evidence, ranges over its maps
in its own orders, and executes under a header that already has the state root.
-/
import Drana.Mempool
import Drana.Commitment
import Drana.Certificates
import Drana.Wire

namespace Drana

variable {E : Env} {params : GenesisConfig}

/-! ## The count of transactions -/

namespace Mempool

variable {ord : MapRange Address Account} {maxTx : Int} {r : Reaped} {qs : List (List Transaction)}

theorem reapPass_length (h : (r.result.length : Int) < maxTx) :
    ((reapPass E params ord maxTx r qs).1.result.length : Int) ≤ maxTx := by
  induction qs generalizing r with
  | nil => exact h.le
  | cons q qs ih =>
    cases q with
    | nil => exact ih h
    | cons tx txs =>
      rw [reapPass]
      split
      · have htake : ((r.take tx).result.length : Int) = r.result.length + 1 := by simp [Reaped.take]
        split
        · show ((r.take tx).result.length : Int) ≤ maxTx
          omega
        · next hlt => exact ih (Int.not_le.mp hlt)
      · exact ih h

theorem reapLoop_length {fuel : Nat} (h : (r.result.length : Int) ≤ maxTx) :
    ((reapLoop E params ord maxTx fuel r qs).result.length : Int) ≤ maxTx := by
  induction fuel generalizing r qs with
  | zero => exact h
  | succ fuel ih =>
    rw [reapLoop]
    split
    · next hlt =>
      have hpass := @reapPass_length E params ord maxTx r qs hlt
      dsimp only
      split
      · exact ih hpass
      · exact hpass
    · exact h

/-- No more is reaped than asked for. -/
theorem reapForBlock_length {o : ReapOrder} {m : Mempool} {sr : StateReader} {maxTx : Int64} (h : 0 < maxTx) :
    ((m.reapForBlock E o sr params maxTx).length : Int) ≤ maxTx.toInt := by
  have hpos : (0 : Int) < maxTx.toInt := Int64.lt_iff_toInt_lt.mp h
  exact reapLoop_length (by simpa using hpos.le)

end Mempool

/-! ## Execution and headers -/

/-- Execution reads a header's height, time and proposer. -/
theorem executeTransactions_header {order : Nat → RangeOrder} {header header' : BlockHeader} {txs : List Transaction}
    {i : Nat} {ws : WorldState} (hheight : header'.height = header.height)
    (htime : header'.timestamp = header.timestamp) :
    executeTransactions E .go params order header' i ws txs = executeTransactions E .go params order header i ws txs := by
  induction txs generalizing i ws with
  | nil => rfl
  | cons tx txs ih =>
    simp only [executeTransactions, executeTransaction, hheight, htime, ih]

theorem applyBlock_header {order : Nat → RangeOrder} {ws : WorldState} {block block' : Block}
    (hheight : block'.header.height = block.header.height) (htime : block'.header.timestamp = block.header.timestamp)
    (hproposer : block'.header.proposerAddr = block.header.proposerAddr) (htxs : block'.transactions = block.transactions)
    (hev : block'.evidence = block.evidence) :
    applyBlock E .go params order ws block' = applyBlock E .go params order ws block := by
  simp only [applyBlock, hheight, hproposer, htxs, hev, executeTransactions_header hheight htime]

namespace Engine

/-- What `assembleBlock` broadcasts: the header that its peers will expect, and
the root of the state it has come to. -/
theorem assembleBlock_ok {o : Orders} {e : Engine} {height : UInt64} {txs : List Transaction} {timestamp : Int64}
    {r : Block × WorldState} (h : e.assembleBlock E o height txs timestamp = .ok r) :
    r.1 =
        { header :=
            ⟨height, lastHash E e.lastBlock, e.address, timestamp, computeStateRoot E o.root r.2, computeTxRoot E txs⟩
          transactions := txs } ∧
      applyBlock E .go e.params o.block e.state r.1 = .ok r.2 := by
  simp only [assembleBlock, Except.bind_ok_iff, Except.wrapErr_ok_iff, Except.pure_ok_iff] at h
  obtain ⟨newState, happly, rfl⟩ := h
  refine ⟨rfl, ?_⟩
  rw [← happly]
  exact applyBlock_header rfl rfl rfl rfl rfl

/-- A peer that stands where the node stands. -/
structure Abreast (e peer : Engine) : Prop where
  params : peer.params = e.params
  genesisValSet : peer.genesisValSet = e.genesisValSet
  state : peer.state = e.state
  lastBlock : peer.lastBlock = e.lastBlock

theorem Abreast.activeValidators {e peer : Engine} (h : Abreast e peer) : peer.activeValidators = e.activeValidators := by
  rw [Engine.activeValidators, Engine.activeValidators, h.state, h.genesisValSet]

/-- However its peer ranges over maps, it comes to the state and the root of the proposer. -/
theorem root_agrees {ws newState : WorldState} {block : Block} {o o' : Orders} (hk : Keyed ws)
    (h : applyBlock E .go params o.block ws block = .ok newState) :
    ∃ newState', applyBlock E .go params o'.block ws block = .ok newState' ∧
      computeStateRoot E o'.root newState' = computeStateRoot E o.root newState := by
  obtain ⟨newState', h', htwin⟩ := (applyBlock_ordered hk o.block o'.block block).ok_left h
  exact ⟨newState', h', htwin.computeStateRoot ((applyBlock_writes h).keyed hk)⟩

/-- What `ValidateProposedBlock` asks of a block that is built on the head of the chain. -/
theorem validateBlock_accepts {e : Engine} {o : Orders} {now : Int64} {block : Block} {newState : WorldState}
    (hheight : block.header.height = nextHeight e.lastBlock) (hparent : block.header.prevHash = lastHash E e.lastBlock)
    (hproposer : block.header.proposerAddr = (proposerForHeight e.activeValidators (nextHeight e.lastBlock)).address)
    (hclock : ∀ last ∈ e.lastBlock, last.header.timestamp < block.header.timestamp)
    (hdrift : block.header.timestamp ≤ now + allowedFutureDrift)
    (hroot : block.header.txRoot = computeTxRoot E block.transactions)
    (hcount : ¬ (e.params.maxTxPerBlock > 0 ∧ (block.transactions.length : Int) > e.params.maxTxPerBlock.toInt))
    (happly : applyBlock E .go e.params o.block e.state block = .ok newState)
    (hstate : block.header.stateRoot = computeStateRoot E o.root newState) : e.validateBlock E o now block = .ok () := by
  have hafter : checkAfterParent block.header.timestamp e.lastBlock = .ok () := by
    cases hlast : e.lastBlock with
    | none => rfl
    | some last => exact Except.throwIf_ok_iff.mpr (Int64.not_le.mpr (hclock last hlast))
  rw [← hheight] at hproposer
  simp only [validateBlock, validateProposedBlock, Except.bind_ok_iff, Except.throwIf_ok_iff, Except.wrapErr_ok_iff]
  exact ⟨(), not_not.mpr hheight, (), not_not.mpr hparent, (), not_not.mpr hproposer, (), hafter, (),
    Int64.not_lt.mpr hdrift, (), not_not.mpr hroot, (), hcount, newState, happly, not_not.mpr hstate⟩

/-- **What an honest proposer broadcasts, its peers accept**: a block that
`proposeBlock` builds in its own slot, with a certificate or before it has one,
passes the checks of every peer that stands where the proposer stands. -/
theorem proposal_accepted {e peer : Engine} {mempool : Mempool} {reapOrder : Mempool.ReapOrder} {o o' : Orders}
    {timestamp now : Int64} {block : Block} {newState : WorldState} (hr : Reachable E e.params e.state)
    (hslot : isProposer e.activeValidators (nextHeight e.lastBlock) e.address = true)
    (hclock : ∀ last ∈ e.lastBlock, last.header.timestamp < timestamp)
    (h : e.assembleBlock E o (nextHeight e.lastBlock)
      (mempool.reapForBlock E reapOrder e.state.reader e.params e.params.maxTxPerBlock) timestamp = .ok (block, newState))
    (hpeer : Abreast e peer) (hdrift : timestamp ≤ now + allowedFutureDrift) (qc : Option QuorumCertificate) :
    ∃ received, P2p.blockFromProto (P2p.blockToProto { block with qc := qc }) = .ok received ∧
      peer.validateBlock E o' now received = .ok () := by
  obtain ⟨hblock, happly⟩ := assembleBlock_ok h
  dsimp only at hblock happly
  subst hblock
  obtain ⟨newState', happly', hroot⟩ := @root_agrees E e.params _ _ _ o o' hr.indexed.keyed happly
  refine ⟨_, P2p.blockFromProto_to _, ?_⟩
  have hcount : ¬ (e.params.maxTxPerBlock > 0 ∧
      ((mempool.reapForBlock E reapOrder e.state.reader e.params e.params.maxTxPerBlock).length : Int) >
        e.params.maxTxPerBlock.toInt) := by
    rintro ⟨hpos, hmore⟩
    exact absurd (Mempool.reapForBlock_length hpos) (Int.not_le.mpr hmore)
  have hproposer : e.address = (proposerForHeight e.activeValidators (nextHeight e.lastBlock)).address :=
    (of_decide_eq_true hslot).symm
  apply @validateBlock_accepts E peer o' now _ newState'
  · rw [hpeer.lastBlock]
  · rw [hpeer.lastBlock]
  · rw [hpeer.activeValidators, hpeer.lastBlock]
    exact hproposer
  · rw [hpeer.lastBlock]
    exact hclock
  · exact hdrift
  · rfl
  · rw [hpeer.params]
    exact hcount
  · rw [hpeer.params, hpeer.state, ← happly']
    exact applyBlock_header rfl rfl rfl rfl rfl
  · exact hroot.symm

end Engine

section

open Sample Engine

def reapOrder : Mempool.ReapOrder where
  pending := byBytes
  senders := byBytes
  names := order.accounts

/-- The node of key 1, alone in the set. -/
def proposer : Engine := { node 1 with params := config, genesisValSet := config.validators, state := genesis }

/-- A node of the same network that ranges over its maps the other way round. -/
def follower : Engine := { proposer with privKey := key 2, address := address 2 }

/-- A pool with a post in it. -/
def pool : Mempool := { maxSize := 10, txs := GoMap.insertAll ∅ [((createPost 1 100 1).hash env, createPost 1 100 1)] }

def proposed : Except String (Block × WorldState) :=
  proposer.assembleBlock env orders (nextHeight proposer.lastBlock)
    (pool.reapForBlock env reapOrder proposer.state.reader proposer.params proposer.params.maxTxPerBlock) 10

theorem proposed_run : isProposer proposer.activeValidators (nextHeight proposer.lastBlock) proposer.address = true ∧
    proposed.isOk = true := by
  decide +kernel

theorem proposal_accepted_follower : ∃ received,
    P2p.blockFromProto (P2p.blockToProto { proposed.value.1 with qc := none }) = .ok received ∧
      follower.validateBlock env ⟨fun _ => backwards, backwards⟩ 3 received = .ok () := by
  have hr : Reachable env proposer.params proposer.state := ⟨genesis, [], ∅, genesis_ok, rfl⟩
  have hpeer : Abreast proposer follower := ⟨rfl, rfl, rfl, rfl⟩
  have hclock : ∀ last ∈ proposer.lastBlock, last.header.timestamp < 10 := fun last h => by cases h
  have hrun := Except.ok_value proposed_run.2
  generalize proposed.value = r at hrun ⊢
  obtain ⟨block, newState⟩ := r
  exact proposal_accepted hr proposed_run.1 hclock hrun hpeer (by decide) none

end

end Drana
