/-
The block store (`internal/store/blockstore.go`), `commitBlock` with its two
writes, either of which may fail, and a node that stops and restarts through
`NewNode` (`internal/node/node.go`).

Each write is one Badger transaction, so it happens or does not. Blocks are
stored as JSON and read back as they were: their texts reached the node in
protobuf or JSON strings, which are valid UTF-8.
-/
import Drana.StoreFacts
import Drana.Engine

namespace Drana

open Except (orThrow throwIf wrapErr)

variable {E : Env}

/-! ## The store -/

/-- The values under `block:height:`, `block:hash:`, `tx:` and `meta:latest_height`. -/
structure BlockStore where
  blockHeight : GoMap UInt64 Block := ∅
  blockHash : GoMap Hash UInt64 := ∅
  tx : GoMap Hash UInt64 := ∅
  latestHeight : Option UInt64 := none

namespace BlockStore

def saveBlock (E : Env) (bs : BlockStore) (block : Block) : BlockStore where
  blockHeight := bs.blockHeight.insert block.header.height block
  blockHash := bs.blockHash.insert (block.header.hash E) block.header.height
  tx := GoMap.insertAll bs.tx (block.transactions.map fun tx => (tx.hash E, block.header.height))
  latestHeight := some block.header.height

def getBlockByHeight (bs : BlockStore) (height : UInt64) : Except String Block :=
  orThrow (bs.blockHeight.lookup height) s!"block at height {height} not found"

def getBlockByHash (bs : BlockStore) (hash : Hash) : Except String Block := do
  let height ← orThrow (bs.blockHash.lookup hash) s!"block with hash {hexEncode hash.toList} not found"
  bs.getBlockByHeight height

def getLatestBlock (bs : BlockStore) : Except String Block := do
  let height ← orThrow bs.latestHeight "no blocks stored"
  bs.getBlockByHeight height

def getTransaction (E : Env) (bs : BlockStore) (txHash : Hash) : Except String (Transaction × UInt64) := do
  let height ← orThrow (bs.tx.lookup txHash) s!"transaction {hexEncode txHash.toList} not found"
  let block ← bs.getBlockByHeight height
  let tx ← orThrow (block.transactions.find? fun tx => tx.hash E = txHash)
    s!"transaction {hexEncode txHash.toList} indexed but not found in block {height}"
  return (tx, height)

end BlockStore

/-! ## A node and its disk -/

structure Node where
  engine : Engine
  blockStore : BlockStore
  kv : KVStore

/-- What goes wrong in a call of `commitBlock`. -/
inductive Fault
  | none
  /-- `SaveBlock` returns an error. -/
  | saveBlock
  /-- `SaveState` returns an error. -/
  | saveState
deriving DecidableEq

/-- `commitBlock`, with the order in which `SaveState` ranges over the maps. -/
def Node.commitBlock (E : Env) (n : Node) (block : Block) (newState : WorldState) (ord : RangeOrder) :
    Fault → Node × Except String Unit
  | .saveBlock => (n, .error "save block")
  | .saveState => ({ n with blockStore := n.blockStore.saveBlock E block }, .error "save state")
  | .none =>
    ({ engine := n.engine.commitBlock block newState
       blockStore := n.blockStore.saveBlock E block
       kv := saveState ord newState n.kv }, .ok ())

/-- What a node is configured with. -/
structure NodeConfig where
  genesis : GenesisConfig
  privKey : PrivateKey
  address : Address

/-- Some genesis validator has the address. -/
def NodeConfig.IsValidator (cfg : NodeConfig) : Prop := ∃ v ∈ cfg.genesis.validators, v.address = cfg.address

instance (cfg : NodeConfig) : Decidable cfg.IsValidator :=
  inferInstanceAs (Decidable (∃ v ∈ cfg.genesis.validators, v.address = cfg.address))

/-- `NewEngine` and `SetLastBlock`. -/
def newEngine (cfg : NodeConfig) (ws : WorldState) (lastBlock : Option Block) : Engine where
  params := cfg.genesis
  genesisValSet := cfg.genesis.validators
  privKey := cfg.privKey
  address := cfg.address
  state := ws
  currentHeight := lastBlock.elim ws.chainHeight (·.header.height)
  lastBlock

/-- The part of `NewNode` that loads the state or, on a fresh start, initializes and saves it. -/
def loadOrInitialize (E : Env) (cfg : NodeConfig) (ord : RangeOrder) (kv : KVStore) :
    Except String (WorldState × KVStore) := do
  let ws ← wrapErr ("load state: " ++ ·) (loadState kv)
  if ws.chainHeight = 0 ∧ (ws.allAccounts ord).length = 0 then do
    let ws ← wrapErr ("initialize state: " ++ ·) (initializeState E cfg.genesis)
    return (ws, saveState ord ws kv)
  else return (ws, kv)

/-- `NewNode` from what is on disk; the last block is that of the state's height, if it is there. -/
def newNode (E : Env) (cfg : NodeConfig) (ord : RangeOrder) (blockStore : BlockStore) (kv : KVStore) :
    Except String Node := do
  throwIf (¬ cfg.IsValidator) "private key does not correspond to a genesis validator"
  let (ws, kv) ← loadOrInitialize E cfg ord kv
  let lastBlock := if ws.chainHeight > 0 then (blockStore.getBlockByHeight ws.chainHeight).toOption else none
  return { engine := newEngine cfg ws lastBlock, blockStore, kv }

/-! ## Runs with faults -/

/-- What happens to a node: a call of `commitBlock`, a stop of the process
between the two writes of one, a stop anywhere else; after a stop the node is
started again. -/
inductive DiskEvent
  | commit (block : Block) (newState : WorldState) (ord : RangeOrder) (fault : Fault)
  | stop (block : Block) (ord : RangeOrder)
  | restart (ord : RangeOrder)

/-- One event; with the node, the chain committed so far: the blocks of the calls that returned no error. -/
def diskStep (E : Env) (cfg : NodeConfig) (s : Node × List Block) : DiskEvent → Except String (Node × List Block)
  | .commit block newState ord fault =>
    let r := s.1.commitBlock E block newState ord fault
    return (r.1, if r.2.isOk then s.2 ++ [block] else s.2)
  | .stop block ord => do
    let n ← newNode E cfg ord (s.1.blockStore.saveBlock E block) s.1.kv
    return (n, s.2)
  | .restart ord => do
    let n ← newNode E cfg ord s.1.blockStore s.1.kv
    return (n, s.2)

def diskRun (E : Env) (cfg : NodeConfig) (s : Node × List Block) (evs : List DiskEvent) :
    Except String (Node × List Block) :=
  evs.foldlM (diskStep E cfg) s

/-- The second write of a commit happens if the first does, and the block is
higher than the chain; the new state is the state after it. -/
def Undisturbed (n : Node) : DiskEvent → Prop
  | .commit block newState _ fault =>
    fault = .saveBlock ∨
      (fault = .none ∧ n.engine.currentHeight < block.header.height ∧ newState.chainHeight = block.header.height)
  | .stop _ _ => False
  | .restart _ => True

def UndisturbedAlong (E : Env) (cfg : NodeConfig) : Node × List Block → List DiskEvent → Prop
  | _, [] => True
  | s, ev :: evs => Undisturbed s.1 ev ∧ ∀ s', diskStep E cfg s ev = .ok s' → UndisturbedAlong E cfg s' evs

/-! ## What describes a chain -/

/-- The height of a chain's last block. -/
def chainHeight (chain : List Block) : UInt64 := chain.getLast?.elim 0 (·.header.height)

/-- The indexes of a block store hold the blocks of a chain. -/
structure Indexes (E : Env) (bs : BlockStore) (chain : List Block) : Prop where
  latest : bs.latestHeight = chain.getLast?.map (·.header.height)
  blocks : ∀ h b, bs.blockHeight.lookup h = some b ↔ b ∈ chain ∧ b.header.height = h
  hashes : ∀ x h, bs.blockHash.lookup x = some h → ∃ b ∈ chain, b.header.height = h ∧ b.header.hash E = x
  below : ∀ b ∈ chain, b.header.height ≤ chainHeight chain

/-- What a node reads from its stores, and what it holds in memory, is of one chain. -/
structure Describes (E : Env) (n : Node) (chain : List Block) : Prop where
  latest : n.blockStore.getLatestBlock.toOption = chain.getLast?
  byHeight : ∀ h b, n.blockStore.getBlockByHeight h = .ok b ↔ b ∈ chain ∧ b.header.height = h
  byHash : ∀ x b, n.blockStore.getBlockByHash x = .ok b → b ∈ chain ∧ b.header.hash E = x
  lastBlock : n.engine.lastBlock = chain.getLast?
  height : n.engine.currentHeight = chainHeight chain
  state : n.engine.state.chainHeight = chainHeight chain
  /-- The state in memory was the last saved, or has been loaded. -/
  stored : (∃ ord kv, n.kv = saveState ord n.engine.state kv) ∨ loadState n.kv = .ok n.engine.state

variable {bs : BlockStore} {chain : List Block} {b : Block} {n : Node} {cfg : NodeConfig}

theorem chainHeight_append : chainHeight (chain ++ [b]) = b.header.height := by simp [chainHeight]

namespace Indexes

theorem empty : Indexes E {} [] where
  latest := rfl
  blocks h b := by simp
  hashes x h hl := by simp at hl
  below b hb := by simp at hb

theorem saveBlock (hi : Indexes E bs chain) (hb : chainHeight chain < b.header.height) :
    Indexes E (bs.saveBlock E b) (chain ++ [b]) where
  latest := by simp [BlockStore.saveBlock]
  blocks h c := by
    simp only [BlockStore.saveBlock, List.mem_append, List.mem_singleton]
    by_cases hh : h = b.header.height
    · subst hh
      rw [Finmap.lookup_insert, Option.some.injEq]
      constructor
      · intro hc
        exact hc ▸ ⟨.inr rfl, rfl⟩
      · intro hc
        rcases hc with ⟨hc | hc, hheight⟩
        · have hle := hi.below c hc
          rw [hheight] at hle
          exact absurd hb (UInt64.not_lt.mpr hle)
        · exact hc.symm
    · rw [Finmap.lookup_insert_of_ne _ hh, hi.blocks]
      constructor
      · intro hc
        exact ⟨.inl hc.1, hc.2⟩
      · intro hc
        refine ⟨hc.1.resolve_right fun hcb => ?_, hc.2⟩
        exact hh (hcb ▸ hc.2.symm)
  hashes x h hl := by
    simp only [BlockStore.saveBlock] at hl
    by_cases hx : x = b.header.hash E
    · subst hx
      rw [Finmap.lookup_insert] at hl
      exact ⟨b, by simp, Option.some.inj hl, rfl⟩
    · rw [Finmap.lookup_insert_of_ne _ hx] at hl
      obtain ⟨c, hc, hheight, hhash⟩ := hi.hashes x h hl
      exact ⟨c, by simp [hc], hheight, hhash⟩
  below c hc := by
    rw [chainHeight_append]
    rcases List.mem_append.mp hc with hc | hc
    · exact UInt64.le_of_lt (UInt64.lt_of_le_of_lt (hi.below c hc) hb)
    · rw [List.mem_singleton.mp hc]
      exact UInt64.le_refl _

theorem getBlockByHeight_ok (hi : Indexes E bs chain) {h : UInt64} {c : Block} :
    bs.getBlockByHeight h = .ok c ↔ c ∈ chain ∧ c.header.height = h := by
  rw [BlockStore.getBlockByHeight, Except.orThrow_ok_iff, hi.blocks]

theorem getLast_ok (hi : Indexes E bs chain) {c : Block} (hc : chain.getLast? = some c) :
    bs.getBlockByHeight c.header.height = .ok c :=
  hi.getBlockByHeight_ok.mpr ⟨List.mem_of_getLast? hc, rfl⟩

theorem getLatestBlock_eq (hi : Indexes E bs chain) : bs.getLatestBlock.toOption = chain.getLast? := by
  rw [BlockStore.getLatestBlock, hi.latest]
  cases hc : chain.getLast? with
  | none => rfl
  | some c =>
    simp only [Option.map_some, orThrow, Except.ok_bind, hi.getLast_ok hc]
    rfl

theorem getBlockByHash_ok (hi : Indexes E bs chain) {x : Hash} {c : Block} (h : bs.getBlockByHash x = .ok c) :
    c ∈ chain ∧ c.header.hash E = x := by
  simp only [BlockStore.getBlockByHash, Except.bind_ok_iff, Except.orThrow_ok_iff] at h
  obtain ⟨height, hl, hb⟩ := h
  obtain ⟨d, hd, hheight, hhash⟩ := hi.hashes x height hl
  rw [hi.getBlockByHeight_ok.mpr ⟨hd, hheight⟩] at hb
  obtain rfl := Except.ok.inj hb
  exact ⟨hd, hhash⟩

theorem getTransaction_ok (hi : Indexes E bs chain) {x : Hash} {tx : Transaction} {h : UInt64}
    (ht : bs.getTransaction E x = .ok (tx, h)) :
    ∃ c ∈ chain, c.header.height = h ∧ tx ∈ c.transactions ∧ tx.hash E = x := by
  simp only [BlockStore.getTransaction, Except.bind_ok_iff, Except.orThrow_ok_iff, Except.pure_ok_iff,
    Prod.mk.injEq] at ht
  obtain ⟨height, -, c, hc, tx', hfind, rfl, rfl⟩ := ht
  obtain ⟨hmem, hheight⟩ := hi.getBlockByHeight_ok.mp hc
  exact ⟨c, hmem, hheight, List.mem_of_find?_eq_some hfind, by simpa using List.find?_some hfind⟩

end Indexes

/-! ## The height on disk -/

theorem loadState_chainHeight {kv : KVStore} {ws : WorldState} (h : loadState kv = .ok ws) :
    loadUint64 kv keyChainHeight 0 = .ok ws.chainHeight := by
  simp only [loadState, Except.bind_ok_iff, Except.pure_ok_iff] at h
  obtain ⟨_, _, _, _, _, _, _, _, height, hheight, _, _, rfl⟩ := h
  rw [hheight]
  congr 1
  generalize itemsOf kv prefixPostStake = items
  symm
  refine List.foldlRecOn items _ (motive := fun w : WorldState => w.chainHeight = height) rfl fun w hw val _ => ?_
  split
  · exact hw
  · exact hw

theorem saveState_chainHeight {ord : RangeOrder} {ws : WorldState} {kv : KVStore} :
    (saveState ord ws kv).lookup keyChainHeight = some (putUint64 ws.chainHeight) := by
  have hentries : savedEntries ord ws =
      ((ws.allAccounts ord).map (fun a => (prefixAccount ++ a.address.toList, encodeAccount a)) ++
        (ws.allPosts ord).map (fun p => (prefixPost ++ p.postID.toList, encodePost p)) ++
        [(keyBurnedSupply, putUint64 ws.burnedSupply), (keyIssuedSupply, putUint64 ws.issuedSupply)]) ++
      (keyChainHeight, putUint64 ws.chainHeight) ::
      ([(keyCurrentEpoch, putUint64 ws.currentEpoch),
        (keyActiveValidators, encodeValidatorSet ws.activeValidators),
        (keyUnbondingQueue, encodeUnbondingQueue ws.unbondingQueue)] ++
        (ws.allPostStakes ord).map fun ps =>
          (prefixPostStake ++ ps.postID.toList ++ ps.staker.toList, encodePostStake ps)) := by
    simp [savedEntries]
  rw [saveState, hentries]
  refine GoMap.lookup_insertAll_last fun h => ?_
  simp only [List.map_append, List.map_cons, List.map_nil, List.map_map, List.mem_append, List.mem_cons,
    List.not_mem_nil, or_false, List.mem_map, Function.comp_apply] at h
  rcases h with h | ⟨ps, -, h⟩
  · revert h
    decide
  · have := congrArg (·.head?) h
    simp [prefixPostStake, keyChainHeight, prefixMeta] at this

/-- What is loaded is at the height that was saved. -/
theorem loadState_saveState_chainHeight {ord : RangeOrder} {ws ws' : WorldState} {kv : KVStore}
    (h : loadState (saveState ord ws kv) = .ok ws') : ws'.chainHeight = ws.chainHeight := by
  have hload := loadState_chainHeight h
  rw [loadUint64_put saveState_chainHeight] at hload
  exact (Except.ok.inj hload).symm

/-! ## Every step keeps the chain -/

/-- `Describes`, as the indexes have it. -/
structure Intact (E : Env) (n : Node) (chain : List Block) : Prop where
  indexes : Indexes E n.blockStore chain
  positive : ∀ b ∈ chain, 0 < b.header.height
  lastBlock : n.engine.lastBlock = chain.getLast?
  height : n.engine.currentHeight = chainHeight chain
  state : n.engine.state.chainHeight = chainHeight chain
  stored : (∃ ord kv, n.kv = saveState ord n.engine.state kv) ∨ loadState n.kv = .ok n.engine.state

theorem Intact.describes (h : Intact E n chain) : Describes E n chain where
  latest := h.indexes.getLatestBlock_eq
  byHeight _ _ := h.indexes.getBlockByHeight_ok
  byHash _ _ := h.indexes.getBlockByHash_ok
  lastBlock := h.lastBlock
  height := h.height
  state := h.state
  stored := h.stored

theorem Intact.loaded_height (h : Intact E n chain) {ws : WorldState} (hl : loadState n.kv = .ok ws) :
    ws.chainHeight = chainHeight chain := by
  rw [← h.state]
  rcases h.stored with ⟨ord, kv, hkv⟩ | hkv
  · rw [hkv] at hl
    exact loadState_saveState_chainHeight hl
  · rw [hkv] at hl
    exact congrArg (·.chainHeight) (Except.ok.inj hl).symm

theorem initializeState_chainHeight {params : GenesisConfig} {ws : WorldState}
    (h : initializeState E params = .ok ws) : ws.chainHeight = 0 := by
  simp only [initializeState, Except.bind_ok_iff, Except.pure_ok_iff] at h
  obtain ⟨_, _, _, _, rfl⟩ := h
  rfl

/-- A node that starts on the disk of a chain is of that chain. -/
theorem newNode_intact {ord : RangeOrder} {kv : KVStore} (hi : Indexes E bs chain)
    (hpos : ∀ b ∈ chain, 0 < b.header.height)
    (hload : ∀ ws, loadState kv = .ok ws → ws.chainHeight = chainHeight chain)
    (h : newNode E cfg ord bs kv = .ok n) : Intact E n chain := by
  simp only [newNode, Except.bind_ok_iff, Except.pure_ok_iff] at h
  obtain ⟨-, -, s, hs, rfl⟩ := h
  simp only [loadOrInitialize, Except.bind_ok_iff, Except.wrapErr_ok_iff] at hs
  obtain ⟨ws, hws, hs⟩ := hs
  have hheight := hload ws hws
  have hstate : s.1.chainHeight = chainHeight chain ∧
      ((∃ ord kv, s.2 = saveState ord s.1 kv) ∨ loadState s.2 = .ok s.1) := by
    split at hs
    · next hfresh =>
      simp only [Except.bind_ok_iff, Except.wrapErr_ok_iff, Except.pure_ok_iff] at hs
      obtain ⟨ws', hinit, rfl⟩ := hs
      rw [← hheight, hfresh.1]
      exact ⟨initializeState_chainHeight hinit, .inl ⟨ord, kv, rfl⟩⟩
    · rw [Except.pure_ok_iff] at hs
      subst hs
      exact ⟨hheight, .inr hws⟩
  obtain ⟨hchain, hstored⟩ := hstate
  have hlast : (if s.1.chainHeight > 0 then (bs.getBlockByHeight s.1.chainHeight).toOption else none) =
      chain.getLast? := by
    rw [hchain]
    cases hc : chain.getLast? with
    | none =>
      rw [List.getLast?_eq_none_iff] at hc
      subst hc
      rfl
    | some c =>
      have hcheight : chainHeight chain = c.header.height := by rw [chainHeight, hc]; rfl
      rw [hcheight, if_pos (hpos c (List.mem_of_getLast? hc)), hi.getLast_ok hc]
      rfl
  refine ⟨hi, hpos, hlast, ?_, hchain, hstored⟩
  simp only [newEngine]
  rw [hlast, hchain, chainHeight]
  cases chain.getLast? <;> rfl

theorem Intact.step (h : Intact E n chain) {ev : DiskEvent} (hu : Undisturbed n ev) {s : Node × List Block}
    (hs : diskStep E cfg (n, chain) ev = .ok s) : Intact E s.1 s.2 := by
  cases ev with
  | commit block newState ord fault =>
    simp only [diskStep, Except.pure_ok_iff] at hs
    subst hs
    rcases hu with rfl | ⟨rfl, hlt, hnew⟩
    · exact h
    · rw [h.height] at hlt
      refine ⟨h.indexes.saveBlock hlt, fun b hb => ?_, ?_, ?_, ?_, .inl ⟨ord, n.kv, rfl⟩⟩
      · rcases List.mem_append.mp hb with hb | hb
        · exact h.positive b hb
        · rw [List.mem_singleton.mp hb]
          exact UInt64.lt_of_le_of_lt UInt64.zero_le hlt
      · exact List.getLast?_concat.symm
      · exact chainHeight_append.symm
      · exact hnew.trans chainHeight_append.symm
  | stop block ord => exact hu.elim
  | restart ord =>
    simp only [diskStep, Except.bind_ok_iff, Except.pure_ok_iff] at hs
    obtain ⟨n', hn', rfl⟩ := hs
    exact newNode_intact h.indexes h.positive (fun ws hl => h.loaded_height hl) hn'

theorem Intact.run {s s' : Node × List Block} {evs : List DiskEvent} (h : Intact E s.1 s.2)
    (hu : UndisturbedAlong E cfg s evs) (hr : diskRun E cfg s evs = .ok s') : Intact E s'.1 s'.2 := by
  induction evs generalizing s with
  | nil =>
    obtain rfl := Except.foldlM_nil_ok_iff.mp hr
    exact h
  | cons ev evs ih =>
    obtain ⟨s₁, hs₁, hr⟩ := Except.foldlM_cons_ok_iff.mp hr
    exact ih (h.step hu.1 hs₁) (hu.2 s₁ hs₁) hr

/-- A node started on an empty disk is of the empty chain. -/
theorem fresh_intact {ord : RangeOrder} (h : newNode E cfg ord {} ∅ = .ok n) : Intact E n [] := by
  refine newNode_intact .empty nofun (fun ws hl => ?_) h
  have hheight := loadState_chainHeight hl
  exact (Except.ok.inj hheight).symm

/-- While the second write of a commit happens whenever the first does, and
blocks are committed in ascending order, a node and its stores describe the
chain committed, through errors of the first write and restarts. -/
theorem commits_atomic {ord : RangeOrder} {n₀ : Node} {evs : List DiskEvent}
    (hstart : newNode E cfg ord {} ∅ = .ok n₀) (hu : UndisturbedAlong E cfg (n₀, []) evs)
    (hrun : diskRun E cfg (n₀, []) evs = .ok (n, chain)) :
    Describes E n chain ∧
      ∀ block newState o fault e, Undisturbed n (.commit block newState o fault) →
        (n.commitBlock E block newState o fault).2 = .error e →
        Describes E (n.commitBlock E block newState o fault).1 chain := by
  have h := (fresh_intact hstart).run hu hrun
  refine ⟨h.describes, fun block newState o fault e hb he => ?_⟩
  rcases hb with rfl | ⟨rfl, -, -⟩
  · exact h.describes
  · cases he

/-! ## A write between which and the next the state is not saved -/

/-- A block saved over another of its height is what that one's hash leads to. -/
theorem getBlockByHash_overwritten {b b' : Block} (hheight : b'.header.height = b.header.height)
    (hne : b.header.hash E ≠ b'.header.hash E) :
    ((bs.saveBlock E b).saveBlock E b').getBlockByHash (b.header.hash E) = .ok b' := by
  simp only [BlockStore.getBlockByHash, BlockStore.getBlockByHeight, BlockStore.saveBlock,
    Finmap.lookup_insert_of_ne _ hne, Finmap.lookup_insert, orThrow, hheight, Except.ok_bind]

theorem getLatestBlock_saveBlock : (bs.saveBlock E b).getLatestBlock = .ok b := by
  simp only [BlockStore.getLatestBlock, BlockStore.getBlockByHeight, BlockStore.saveBlock, Finmap.lookup_insert,
    orThrow, Except.ok_bind]

namespace Sample

def nodeConfig : NodeConfig := ⟨config, key 1, address 1⟩

/-- A first block with the transactions. -/
def firstBlock (txs : List Transaction) : Block :=
  { header := ⟨1, .zero, address 1, 0, .zero, computeTxRoot env txs⟩, transactions := txs }

def emptyBlock : Block := firstBlock []
def postBlock : Block := firstBlock [createPost 1 100 1]

def stateAfter (b : Block) : WorldState := (applyBlock env .go config (fun _ => order) genesis b).value

theorem newNode_isOk : (newNode env nodeConfig order {} ∅).isOk = true := by decide +kernel

/-- The state after the first block is not saved; the call fails, yet the
block is the latest. Another first block is committed: the hash of the one
that failed leads to it. -/
theorem failed_commit_shown : ∃ n₀ n n', newNode env nodeConfig order {} ∅ = .ok n₀ ∧
    diskRun env nodeConfig (n₀, []) [.commit emptyBlock (stateAfter emptyBlock) order .saveState] = .ok (n, []) ∧
    n.blockStore.getLatestBlock = .ok emptyBlock ∧ ¬ Describes env n [] ∧
    diskRun env nodeConfig (n, []) [.commit postBlock (stateAfter postBlock) order .none] = .ok (n', [postBlock]) ∧
    n'.blockStore.getBlockByHash (emptyBlock.header.hash env) = .ok postBlock ∧
    postBlock.header.hash env ≠ emptyBlock.header.hash env := by
  obtain ⟨n₀, hn₀⟩ := Except.exists_ok newNode_isOk
  have hne : emptyBlock.header.hash env ≠ postBlock.header.hash env := by decide +kernel
  have hlatest : (n₀.blockStore.saveBlock env emptyBlock).getLatestBlock = .ok emptyBlock := getLatestBlock_saveBlock
  refine ⟨n₀, { n₀ with blockStore := n₀.blockStore.saveBlock env emptyBlock }, _, hn₀, rfl, hlatest, fun h => ?_, rfl,
    getBlockByHash_overwritten rfl hne, hne.symm⟩
  have hnone := h.latest
  simp only [hlatest] at hnone
  cases hnone

/-- The first write fails and is tried again. -/
theorem commits_atomic_retried : ∃ n₀ n, newNode env nodeConfig order {} ∅ = .ok n₀ ∧
    diskRun env nodeConfig (n₀, []) [.commit postBlock (stateAfter postBlock) order .saveBlock,
      .commit postBlock (stateAfter postBlock) order .none] = .ok (n, [postBlock]) ∧
    Describes env n [postBlock] ∧
      ∀ block newState o fault e, Undisturbed n (.commit block newState o fault) →
        (n.commitBlock env block newState o fault).2 = .error e →
        Describes env (n.commitBlock env block newState o fault).1 [postBlock] := by
  obtain ⟨n₀, hn₀⟩ := Except.exists_ok newNode_isOk
  have hheight : n₀.engine.currentHeight = 0 := (fresh_intact hn₀).height
  have hisOk : (applyBlock env .go config (fun _ => order) genesis postBlock).isOk = true := by decide +kernel
  have hnew : (stateAfter postBlock).chainHeight = 1 := applyBlock_height (Except.ok_value hisOk)
  have hrun : diskRun env nodeConfig (n₀, []) [.commit postBlock (stateAfter postBlock) order .saveBlock,
      .commit postBlock (stateAfter postBlock) order .none] =
      .ok ((n₀.commitBlock env postBlock (stateAfter postBlock) order .none).1, [postBlock]) := rfl
  have hlt : n₀.engine.currentHeight < postBlock.header.height := by
    rw [hheight]
    decide
  have hu : UndisturbedAlong env nodeConfig (n₀, []) [.commit postBlock (stateAfter postBlock) order .saveBlock,
      .commit postBlock (stateAfter postBlock) order .none] := by
    refine ⟨.inl rfl, fun s hs => ?_⟩
    obtain rfl := Except.ok.inj hs
    exact ⟨.inr ⟨rfl, hlt, hnew⟩, fun _ _ => trivial⟩
  exact ⟨n₀, _, hn₀, hrun, commits_atomic hn₀ hu hrun⟩

end Sample

end Drana
