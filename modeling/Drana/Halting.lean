/-
A chain whose active set is empty. The engine falls back to the validators of
the genesis file then, and a node starts only with the key of one of them: there
is always one to propose, and a block with nothing in it always executes.
-/
import Drana.NodeRuns
import Drana.Epochs
import Drana.BlockStore
import Drana.Acceptance
import Drana.Proposals

namespace Drana

variable {E : Env} {params : GenesisConfig} {e : Engine} {ev : Event} {evs : List Event} {ws : WorldState}
  {vs : List ValidatorStake} {cfg : NodeConfig} {n : Node}

/-! ## Who is left -/

theorem newNode_engine {ord : RangeOrder} {bs : BlockStore} {kv : KVStore} (h : newNode E cfg ord bs kv = .ok n) :
    cfg.IsValidator ∧ n.engine.genesisValSet = cfg.genesis.validators := by
  simp only [newNode, Except.bind_ok_iff, Except.throwIf_ok_iff, not_not, Except.pure_ok_iff] at h
  obtain ⟨-, hvalidator, s, -, rfl⟩ := h
  exact ⟨hvalidator, rfl⟩

theorem Engine.next_genesisValSet : (e.next E ev).genesisValSet = e.genesisValSet := by
  rw [Engine.next]
  cases e.commits E ev <;> rfl

theorem Engine.run_genesisValSet : (e.run E evs).genesisValSet = e.genesisValSet := by
  induction evs generalizing e with
  | nil => rfl
  | cons ev evs ih => exact ih.trans Engine.next_genesisValSet

/-- With nobody active, the validators of the genesis file are. -/
theorem Engine.activeValidators_of_empty (hempty : e.state.activeValidators = []) :
    e.activeValidators = validatorsFromGenesis e.genesisValSet := by
  rw [Engine.activeValidators, hempty]
  rfl

theorem proposerOfSlot_mem {slot cumulative : UInt64} {v : ValidatorStake}
    (h : proposerOfSlot slot cumulative vs = some v) :
    v ∈ vs := by
  induction vs generalizing cumulative with
  | nil => cases h
  | cons w vs ih =>
    rw [proposerOfSlot] at h
    split at h
    · cases h
      exact List.mem_cons_self
    · exact List.mem_cons_of_mem _ (ih h)

/-- The proposer of a height is one of the set, if that has any. -/
theorem proposerForHeight_mem (hne : vs ≠ []) (height : UInt64) : proposerForHeight vs height ∈ vs := by
  have hlast := List.getLast?_eq_some_getLast hne
  have hmem := List.getLast_mem hne
  rw [proposerForHeight, hlast]
  dsimp only
  split
  · cases hslot : vs[(height % UInt64.ofNat vs.length).toNat]? with
    | none => exact hmem
    | some v => exact List.mem_of_getElem? hslot
  · cases hslot : proposerOfSlot (height % totalStake vs) 0 vs with
    | none => exact hmem
    | some v => exact proposerOfSlot_mem hslot

/-! ## Blocks with nothing in them -/

theorem releaseMatured_total {height : UInt64} : ∃ w, releaseMatured .go ws height = .ok w :=
  Except.foldlM_total (fun _ _ => depositAccount_total) _ _

theorem applyBlock_empty_total {order : Nat → RangeOrder} {block : Block} (htxs : block.transactions = [])
    (hevidence : block.evidence = []) : ∃ ws', applyBlock E .go params order ws block = .ok ws' := by
  obtain ⟨w, hw⟩ := @releaseMatured_total ws block.header.height
  refine (applyBlock_total_iff hevidence hw).mpr ⟨w, ?_⟩
  rw [htxs]
  rfl

/-- A node can always build a block of no transactions. -/
theorem assembleBlock_empty_total (o : Orders) (height : UInt64) (timestamp : Int64) :
    ∃ block newState, e.assembleBlock E o height [] timestamp = .ok (block, newState) := by
  have htotal : ∃ c, e.assembleBlock E o height [] timestamp = .ok c := by
    refine Except.bind_total ?_ fun newState => ⟨_, rfl⟩
    obtain ⟨w, hw⟩ := @applyBlock_empty_total E e.params e.state o.block
      { header := ⟨height, lastHash E e.lastBlock, e.address, timestamp, .zero, computeTxRoot E []⟩, transactions := [] }
        rfl rfl
    exact ⟨w, Except.wrapErr_ok_iff.mpr hw⟩
  obtain ⟨c, hc⟩ := htotal
  exact ⟨c.1, c.2, hc⟩

/-- Such a block of the scheduled proposer is committed from a sync reply. -/
theorem commits_synced_empty {o : Orders} (ord : Nat → RangeOrder) {a : Address} {t now : Int64} {block : Block}
    {newState : WorldState} (hslot : isProposer e.activeValidators (nextHeight e.lastBlock) a = true)
    (hclock : ∀ last ∈ e.lastBlock, last.header.timestamp < t) (hdrift : t ≤ now + allowedFutureDrift)
    (hbuilt : ({ e with address := a } : Engine).assembleBlock E o (nextHeight e.lastBlock) [] t =
      .ok (block, newState)) :
    ∃ c, e.commits E (.synced o ord now ⟨⟨block.header, [], none⟩, none⟩) = some c := by
  obtain ⟨hblock, happly⟩ := Engine.assembleBlock_ok hbuilt
  dsimp only at hblock happly
  have hsame : blockFromProto ⟨block.header, [], none⟩ = block := by rw [hblock]; rfl
  have hvalid : e.validateBlock E o now block = .ok () := by
    apply @Engine.validateBlock_accepts E e o now block newState
    · rw [hblock]
    · rw [hblock]
    · rw [hblock]
      exact (of_decide_eq_true hslot).symm
    · rw [hblock]
      exact hclock
    · rw [hblock]
      exact hdrift
    · rw [hblock]
    · rw [hblock]
      rintro ⟨hpos, hmore⟩
      exact absurd hmore (not_lt.mpr (Int64.lt_iff_toInt_lt.mp hpos).le)
    · exact happly
    · rw [hblock]
  obtain ⟨w, hw⟩ := @applyBlock_empty_total E e.params e.state ord block (by rw [hblock]) (by rw [hblock])
  refine ⟨(block, w), Except.toOption_eq_some_iff.mpr ?_⟩
  simp only [Engine.acceptSynced, Engine.checkSyncedQC, hsame, Except.bind_ok_iff, Except.wrapErr_ok_iff,
    Except.pure_ok_iff]
  exact ⟨block, rfl, (), hvalid, w, hw, rfl⟩

/-- It is committed by the proposer, too, when the votes for it have the quorum. -/
theorem commits_propose_empty {o : Orders} {height : UInt64} {t : Int64} {block : Block} {newState : WorldState}
    (hbuilt : e.assembleBlock E o height [] t = .ok (block, newState)) {replies : List BlockVote}
    (hquorum : quorumThreshold e.activeValidators ≤ Engine.tallyVotes E (stakeMap e.activeValidators) block.header.height
      (block.header.hash E) (e.proposalVotes E block replies)) :
    ∃ c, e.commits E (.propose o height [] t replies) = some c := by
  refine ⟨({ block with qc := some ⟨block.header.height, block.header.hash E, e.proposalVotes E block replies⟩ },
    newState), ?_⟩
  simp only [Engine.commits, hbuilt, Engine.certifyProposal, Except.throwIf_of_not (UInt64.not_lt.mpr hquorum)]
  rfl

/-! ## An empty set halts nobody -/

/-- **An empty active set halts no node**: whatever a node that has started goes
through, with nobody active it asks for a block of a validator of the genesis
file. At any later time there is one with nothing in it, which the node commits
from a sync reply, and which it commits as the proposer as soon as the votes
have the quorum of the genesis validators. -/
theorem empty_set_never_halts {ord₀ : RangeOrder} {bs : BlockStore} {kv : KVStore} {t now : Int64}
    (hnew : newNode E cfg ord₀ bs kv = .ok n) (hrun : n.engine.run E evs = e) (hempty : e.state.activeValidators = [])
    (hclock : ∀ last ∈ e.lastBlock, last.header.timestamp < t) (hdrift : t ≤ now + allowedFutureDrift) (o : Orders)
    (ord : Nat → RangeOrder) :
    ∃ v ∈ validatorsFromGenesis cfg.genesis.validators,
      isProposer e.activeValidators (nextHeight e.lastBlock) v.address = true ∧
      (∃ block : PbBlock, block.header.proposerAddr = v.address ∧ block.transactions = [] ∧
        ∃ c, e.commits E (.synced o ord now ⟨block, none⟩) = some c) ∧
      (e.address = v.address → ∃ block newState,
        e.assembleBlock E o (nextHeight e.lastBlock) [] t = .ok (block, newState) ∧
        ∀ replies, quorumThreshold (validatorsFromGenesis cfg.genesis.validators) ≤
            Engine.tallyVotes E (stakeMap (validatorsFromGenesis cfg.genesis.validators)) block.header.height
              (block.header.hash E) (e.proposalVotes E block replies) →
          ∃ c, e.commits E (.propose o (nextHeight e.lastBlock) [] t replies) = some c) := by
  obtain ⟨⟨g, hg, -⟩, hgenesis⟩ := newNode_engine hnew
  have hactive : e.activeValidators = validatorsFromGenesis cfg.genesis.validators := by
    rw [Engine.activeValidators_of_empty hempty, ← hrun, Engine.run_genesisValSet, hgenesis]
  have hsome : validatorsFromGenesis cfg.genesis.validators ≠ [] := List.ne_nil_of_mem (List.mem_map_of_mem hg)
  have hmem := proposerForHeight_mem hsome (nextHeight e.lastBlock)
  have hslot : isProposer e.activeValidators (nextHeight e.lastBlock)
      (proposerForHeight (validatorsFromGenesis cfg.genesis.validators) (nextHeight e.lastBlock)).address = true := by
    rw [hactive]
    exact decide_eq_true rfl
  refine ⟨_, hmem, hslot, ?_, fun _ => ?_⟩
  · obtain ⟨block, newState, hbuilt⟩ := @assembleBlock_empty_total E { e with address := _ } o (nextHeight e.lastBlock) t
    obtain ⟨hblock, -⟩ := Engine.assembleBlock_ok hbuilt
    exact ⟨⟨block.header, [], none⟩, congrArg (·.header.proposerAddr) hblock, rfl,
      commits_synced_empty ord hslot hclock hdrift hbuilt⟩
  · obtain ⟨block, newState, hbuilt⟩ := @assembleBlock_empty_total E e o (nextHeight e.lastBlock) t
    rw [← hactive]
    exact ⟨block, newState, hbuilt, fun replies hquorum => commits_propose_empty hbuilt hquorum⟩

section

open Sample

/-- Key 1, alone, with epochs of two blocks. -/
def Sample.leaver : Engine := { soloNode with params := epochConfig }

def Sample.unstakeHundred : Transaction :=
  signed 1 { type := 6, sender := address 1, pubKey := (key 1).publicKey, amount := 100, nonce := 1 }

/-- It unstakes everything, and the epoch ends. -/
def Sample.leaving : List Event :=
  [.propose orders 1 [unstakeHundred] 10 [], .propose orders 2 [] 12 []]

/-- Then its own vote commits a third block. -/
theorem empty_set_goes_on : initializeState env leaver.params = .ok leaver.state ∧
    (leaver.run env leaving).state.activeValidators = [] ∧
    ∃ c, (leaver.run env leaving).commits env (.propose orders 3 [] 14 []) = some c := by
  have hrun : (leaver.run env leaving).state.activeValidators = [] ∧
      ((leaver.run env leaving).commits env (.propose orders 3 [] 14 [])).isSome = true := by
    decide +kernel
  exact ⟨epochGenesis_ok, hrun.1, Option.isSome_iff_exists.mp hrun.2⟩

/-- What key 1 starts with. -/
def Sample.leaverConfig : NodeConfig := ⟨epochConfig, key 1, address 1⟩

instance : Inhabited Node := ⟨⟨leaver, {}, ∅⟩⟩

/-- Its node after that. -/
def Sample.left : Engine := (newNode env leaverConfig order {} ∅).value.engine.run env leaving

theorem Sample.left_run : (newNode env leaverConfig order {} ∅).isOk = true ∧ left.state.activeValidators = [] ∧
    left.address = address 1 ∧ (∀ last ∈ left.lastBlock, last.header.timestamp < 14) ∧
    (∀ v ∈ validatorsFromGenesis leaverConfig.genesis.validators, v.address = address 1) ∧
    ∀ c ∈ (left.assembleBlock env orders (nextHeight left.lastBlock) [] 14).toOption,
      quorumThreshold (validatorsFromGenesis leaverConfig.genesis.validators) ≤
        Engine.tallyVotes env (stakeMap (validatorsFromGenesis leaverConfig.genesis.validators)) c.1.header.height
          (c.1.header.hash env) (left.proposalVotes env c.1 []) := by
  decide +kernel

/-- The node of key 1 goes on by itself, and from what it is sent. -/
theorem empty_set_never_halts_leaver : left.state.activeValidators = [] ∧
    (∃ block : PbBlock, block.header.proposerAddr = address 1 ∧
      ∃ c, left.commits env (.synced orders (fun _ => order) 14 ⟨block, none⟩) = some c) ∧
    ∃ c, left.commits env (.propose orders (nextHeight left.lastBlock) [] 14 []) = some c := by
  obtain ⟨hnew, hempty, haddress, hclock, honly, hquorum⟩ := left_run
  have hdrift : (14 : Int64) ≤ 14 + allowedFutureDrift := by decide
  have hrun : (newNode env leaverConfig order {} ∅).value.engine.run env leaving = left := rfl
  obtain ⟨v, hv, -, ⟨block, hproposer, -, hsynced⟩, hpropose⟩ :=
    empty_set_never_halts (Except.ok_value hnew) hrun hempty hclock hdrift orders fun _ => order
  rw [honly v hv] at hproposer hpropose
  obtain ⟨built, newState, hbuilt, hcommits⟩ := hpropose haddress
  refine ⟨hempty, ⟨block, hproposer, hsynced⟩, hcommits [] ?_⟩
  exact hquorum (built, newState) (Except.toOption_eq_some_iff.mpr hbuilt)

end

end Drana
