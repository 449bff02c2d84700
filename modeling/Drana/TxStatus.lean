/-
What a node tells of a transaction (`handleGetTransactionStatus` of
`internal/rpc/server.go`): confirmed, with the height of its block, pending or
unknown. The block store answers the first, the pool the second. Along a run of
the node, restarts included, the two never contradict each other, and what is
confirmed stays so.
-/
import Drana.Eviction
import Drana.BlockStore
import Drana.Feed

namespace Drana

open Except (orThrow throwIf wrapErr)

variable {E : Env}

/-! ## Answers -/

structure TxStatusResponse where
  hash : String
  status : String
  blockHeight : UInt64 := 0
deriving DecidableEq

/-- A node with its stores and its pool. -/
structure FullNode where
  node : Node
  mempool : Mempool

namespace FullNode

def pooled (n : FullNode) : PooledEngine := ⟨n.node.engine, n.mempool⟩

/-- What `handleGetTransactionStatus` answers for a hash, written as `hashStr`. -/
def txStatus (E : Env) (n : FullNode) (hashStr : String) (txHash : Hash) : TxStatusResponse :=
  match n.node.blockStore.getTransaction E txHash with
  | .ok (_, blockHeight) => { hash := hashStr, status := "confirmed", blockHeight }
  | .error _ =>
    if n.mempool.has txHash then { hash := hashStr, status := "pending" }
    else { hash := hashStr, status := "unknown" }

def handleGetTransactionStatus (E : Env) (n : FullNode) (hashStr : String) : Except String TxStatusResponse := do
  let txHash ← parseHash hashStr "invalid transaction hash"
  return n.txStatus E hashStr txHash

def handleGetTransaction (E : Env) (n : FullNode) (hashStr : String) : Except String TransactionResponse := do
  let txHash ← parseHash hashStr "invalid transaction hash"
  let (tx, blockHeight) ← wrapErr (fun _ => "transaction not found") (n.node.blockStore.getTransaction E txHash)
  return txToResponse E tx blockHeight

end FullNode

/-! ## Runs -/

/-- What happens to a node: something its engine commits a block in, or not,
a transaction that is submitted, a stop and a new start. -/
inductive ServiceEvent
  | engine (ev : Event) (saveOrd : RangeOrder) (poolOrd : MapRange Hash Transaction) (fault : Fault)
  | submitTx (tx : Transaction)
  | restart (ord : RangeOrder)

/-- One event; with the node, the chain it has committed. A node that does not
start again ends the run. -/
def FullNode.step (E : Env) (cfg : NodeConfig) (s : FullNode × List Block) : ServiceEvent →
    Except String (FullNode × List Block)
  | .engine ev saveOrd poolOrd fault =>
    match s.1.node.engine.commits E ev with
    | none => return s
    | some c =>
      match s.1.node.commitBlock E c.1 c.2 saveOrd fault with
      -- The pool is cleaned up after both writes.
      | (node, .ok _) => return (⟨node, (s.1.pooled.commitBlock E poolOrd c.1 c.2).mempool⟩, s.2 ++ [c.1])
      | (node, .error _) => return (⟨node, s.1.mempool⟩, s.2)
  | .submitTx tx =>
    match s.1.pooled.onSubmitTx E tx with
    | .ok pooled => return (⟨s.1.node, pooled.mempool⟩, s.2)
    | .error _ => return s
  | .restart ord => do
    let node ← newNode E cfg ord s.1.node.blockStore s.1.node.kv
    return (⟨node, { maxSize := 10000 }⟩, s.2)

def FullNode.run (E : Env) (cfg : NodeConfig) (s : FullNode × List Block) (evs : List ServiceEvent) :
    Except String (FullNode × List Block) :=
  evs.foldlM (FullNode.step E cfg) s

/-- A node that starts on an empty disk. -/
def FullNode.start (E : Env) (cfg : NodeConfig) (ord : RangeOrder) : Except String FullNode := do
  let node ← newNode E cfg ord {} ∅
  return ⟨node, { maxSize := 10000 }⟩

/-- A block is proposed above the chain, heights do not run out, and a state is
saved where its block is. -/
def ServiceEvent.Orderly (e : Engine) : ServiceEvent → Prop
  | .engine ev _ _ fault =>
    fault ≠ .saveState ∧
      match ev with
      | .propose _ height _ _ _ => e.currentHeight < height
      | .synced _ _ _ _ => e.currentHeight.toNat + 1 < 2 ^ 64
      | _ => True
  | _ => True

def OrderlyAlong (E : Env) (cfg : NodeConfig) : FullNode × List Block → List ServiceEvent → Prop
  | _, [] => True
  | s, ev :: evs => ev.Orderly s.1.node.engine ∧ ∀ s', FullNode.step E cfg s ev = .ok s' → OrderlyAlong E cfg s' evs

/-- The transactions of a chain, in order. -/
def chainTxs (chain : List Block) : List Transaction := chain.flatMap (·.transactions)

/-- No two of the transactions collide. -/
def NoCollision (E : Env) (P : Transaction → Prop) : Prop :=
  ∀ tx tx', P tx → P tx' → tx.hash E = tx'.hash E → tx.hashBytes = tx'.hashBytes

/-! ## Hashes in the store -/

/-- The transactions of a chain are under their hashes, each with the height of a block that has it. -/
structure TxIndexed (E : Env) (bs : BlockStore) (chain : List Block) : Prop where
  recorded : ∀ x h, bs.tx.lookup x = some h → ∃ b ∈ chain, b.header.height = h ∧ ∃ tx ∈ b.transactions, tx.hash E = x
  complete : ∀ b ∈ chain, ∀ tx ∈ b.transactions, (bs.tx.lookup (tx.hash E)).isSome = true

theorem isSome_insertAll {K V : Type} [DecidableEq K] {l : List (K × V)} {m : GoMap K V} {k : K} :
    ((GoMap.insertAll m l).lookup k).isSome = true ↔ k ∈ l.map Prod.fst ∨ (m.lookup k).isSome = true := by
  induction l generalizing m with
  | nil => simp [GoMap.insertAll]
  | cons e l ih =>
    rw [GoMap.insertAll, List.foldl_cons, ← GoMap.insertAll, ih, List.map_cons, List.mem_cons]
    by_cases hk : k = e.1
    · subst hk
      simp
    · rw [Finmap.lookup_insert_of_ne _ hk]
      simp [hk]

variable {bs : BlockStore} {chain : List Block} {b : Block} {txs txs' : List Transaction} {tx tx' : Transaction}
  {ws ws' : WorldState} {h : UInt64} {x : Hash}

theorem TxIndexed.saveBlock (ht : TxIndexed E bs chain) : TxIndexed E (bs.saveBlock E b) (chain ++ [b]) where
  recorded x h hl := by
    rcases GoMap.mem_of_lookup_insertAll hl with hnew | hold
    · obtain ⟨tx, htx, heq⟩ := List.mem_map.mp hnew
      cases heq
      exact ⟨b, by simp, rfl, tx, htx, rfl⟩
    · obtain ⟨c, hc, hheight, htx⟩ := ht.recorded x h hold
      exact ⟨c, by simp [hc], hheight, htx⟩
  complete c hc tx htx := by
    rw [BlockStore.saveBlock, isSome_insertAll]
    rcases List.mem_append.mp hc with hc | hc
    · exact .inr (ht.complete c hc tx htx)
    · rw [List.mem_singleton.mp hc] at htx
      exact .inl (List.mem_map.mpr ⟨_, List.mem_map.mpr ⟨tx, htx, rfl⟩, rfl⟩)

/-! ## Nonces along the chain -/

/-- Each account has used as many nonces as it has transactions in the list, one after the other. -/
structure Counting (txs : List Transaction) (ws : WorldState) : Prop where
  nonce : ∀ a, nonceOf ws a = UInt64.ofNat (sentBy a txs)
  used : ∀ l tx l', txs = l ++ tx :: l' → tx.nonce = UInt64.ofNat (sentBy tx.sender l + 1)

theorem sentBy_cons {a : Address} : sentBy a (tx :: txs) = (if tx.sender = a then 1 else 0) + sentBy a txs := by
  simp only [sentBy, List.filter_cons]
  by_cases ha : tx.sender = a
  · simp [ha, Nat.add_comm]
  · simp [ha]

/-- The transactions of one more block. -/
theorem Counting.append {log : List Applied} (hc : Counting txs ws) (hlog : Counted ws log ws')
    (hsent : ∀ a, sentIn a log = sentBy a (log.map (·.tx))) : Counting (txs ++ log.map (·.tx)) ws' where
  nonce a := by rw [hlog.nonce, hc.nonce, hsent, sentBy_append, UInt64.ofNat_add]
  used l tx l' hl := by
    rcases List.append_eq_append_iff.mp hl with ⟨as, rfl, hnew⟩ | ⟨bs, rfl, hrest⟩
    · obtain ⟨l₁, l₂, rfl, h₁, h₂⟩ := List.map_eq_append_iff.mp hnew
      obtain ⟨e, l₃, rfl, rfl, h₃⟩ := List.map_eq_cons_iff.mp h₂
      have hused := hlog.used l₁ e ⟨l₃, by simp⟩
      have hcount : sentIn e.tx.sender l₁ = sentBy e.tx.sender as := by rw [sentIn_map, h₁, sentBy]
      rw [hused, hc.nonce, hcount, sentBy_append, ← UInt64.ofNat_add, Nat.add_assoc]
    · cases bs with
      | nil =>
        rw [List.nil_append] at hrest
        obtain ⟨e, l₃, hlog', rfl, -⟩ := List.map_eq_cons_iff.mp hrest.symm
        subst hlog'
        have hused := hlog.used [] e ⟨l₃, by simp⟩
        have hzero : sentIn e.tx.sender [] = 0 := rfl
        rw [hused, hc.nonce, hzero, List.append_nil, ← UInt64.ofNat_add]
      | cons c bs =>
        rw [List.cons_append, List.cons.injEq] at hrest
        obtain ⟨rfl, -⟩ := hrest
        exact hc.used l tx bs rfl

/-- A nonce that a transaction of the list has is not above its sender's. -/
theorem Counting.le (hc : Counting txs ws) (hfew : ∀ a, sentBy a txs < 2 ^ 64) (htx : tx ∈ txs) :
    tx.nonce ≤ nonceOf ws tx.sender := by
  obtain ⟨l, l', rfl⟩ := List.append_of_mem htx
  have hbound := hfew tx.sender
  rw [hc.used l tx l' rfl, hc.nonce, UInt64.le_iff_toNat_le]
  rw [sentBy_append, sentBy_cons, if_pos rfl] at hbound ⊢
  have hfirst : sentBy tx.sender l + 1 < 2 ^ 64 := by omega
  rw [UInt64.toNat_ofNat_of_lt' hfirst, UInt64.toNat_ofNat_of_lt' hbound]
  omega

/-- No transaction is in the list twice. -/
theorem Counting.nodup (hc : Counting txs ws) (hfew : ∀ a, sentBy a txs < 2 ^ 64) : txs.Nodup := by
  have hlog : ((txs.map fun tx => (⟨ws, tx, ws⟩ : Applied)).map fun e => (e.tx.sender, e.tx.nonce)).Nodup := by
    have hsent : ∀ a (l : List Transaction), sentIn a (l.map fun tx => (⟨ws, tx, ws⟩ : Applied)) = sentBy a l := by
      intro a l
      rw [sentIn_map, List.map_map, sentBy]
      simp [Function.comp_def]
    refine nodup_nonces (fun a => by rw [hsent]; exact hfew a) fun l e hl => ?_
    obtain ⟨l', hl'⟩ := hl
    rw [List.append_assoc, List.singleton_append] at hl'
    obtain ⟨l₁, l₂, rfl, rfl, h₂⟩ := List.map_eq_append_iff.mp hl'.symm
    obtain ⟨tx, l₃, rfl, rfl, rfl⟩ := List.map_eq_cons_iff.mp h₂
    rw [hsent]
    exact hc.used l₁ tx l₃ rfl
  rw [List.map_map] at hlog
  exact List.Nodup.of_map _ hlog

/-! ## One state -/

/-- What a chain's stores, pool and state have to do with each other. -/
structure Serving (E : Env) (cfg : NodeConfig) (s : FullNode × List Block) : Prop where
  intact : Intact E s.1.node s.2
  params : s.1.node.engine.params = cfg.genesis
  booted : Booted (s.1.node.engine.state, s.1.node.kv)
  loads : ∀ ws, loadState s.1.node.kv = .ok ws → ws.accounts = s.1.node.engine.state.accounts ∧ Indexed ws
  counting : Counting (chainTxs s.2) s.1.node.engine.state
  txIndexed : TxIndexed E s.1.node.blockStore s.2
  waiting : s.1.pooled.Waiting E

theorem NoCollision.eq {P : Transaction → Prop} (hd : NoCollision E P) (htx : P tx) (htx' : P tx')
    (h : tx.hash E = tx'.hash E) :
    tx = tx' := hashBytes_inj (hd tx tx' htx htx' h)

theorem mem_chainTxs : tx ∈ chainTxs chain ↔ ∃ b ∈ chain, tx ∈ b.transactions := List.mem_flatMap

/-- A transaction is in one block. -/
theorem block_unique {b' : Block} (hn : (chainTxs chain).Nodup) (hb : b ∈ chain) (hb' : b' ∈ chain)
    (htx : tx ∈ b.transactions)
    (htx' : tx ∈ b'.transactions) : b = b' := by
  by_contra hne
  obtain ⟨-, hpair⟩ := List.nodup_flatMap.mp hn
  have hsymm : Std.Symm (Function.onFun List.Disjoint fun b : Block => b.transactions) := ⟨fun _ _ h => h.symm⟩
  exact hpair.forall hb hb' hne htx htx'

/-- The transaction index finds what is in the chain, and where. -/
theorem getTransaction_ok_iff (hi : Indexes E bs chain) (ht : TxIndexed E bs chain) (hn : (chainTxs chain).Nodup)
    (hd : NoCollision E (· ∈ chainTxs chain)) :
    bs.getTransaction E x = .ok (tx, h) ↔ ∃ b ∈ chain, b.header.height = h ∧ tx ∈ b.transactions ∧ tx.hash E = x := by
  refine ⟨hi.getTransaction_ok, ?_⟩
  rintro ⟨b, hb, rfl, htx, rfl⟩
  obtain ⟨height, hl⟩ := Option.isSome_iff_exists.mp (ht.complete b hb tx htx)
  -- Whatever block the index leads to has a transaction of this hash, so this one.
  obtain ⟨b', hb', rfl, tx', htx', hhash⟩ := ht.recorded _ _ hl
  obtain rfl := hd.eq (mem_chainTxs.mpr ⟨b', hb', htx'⟩) (mem_chainTxs.mpr ⟨b, hb, htx⟩) hhash
  obtain rfl := block_unique hn hb hb' htx htx'
  have hfind : (b.transactions.find? fun tx'' => tx''.hash E = tx'.hash E) = some tx' := by
    cases hf : b.transactions.find? fun tx'' => tx''.hash E = tx'.hash E with
    | none => exact absurd rfl (of_decide_eq_false (Bool.eq_false_iff.mpr (List.find?_eq_none.mp hf tx' htx)))
    | some tx₂ =>
      have hmem := List.mem_of_find?_eq_some hf
      have hsame : tx₂.hash E = tx'.hash E := by simpa using List.find?_some hf
      exact congrArg some (hd.eq (mem_chainTxs.mpr ⟨b, hb, hmem⟩) (mem_chainTxs.mpr ⟨b, hb, htx⟩) hsame)
  simp only [BlockStore.getTransaction, hl, orThrow, Except.ok_bind, hi.getBlockByHeight_ok.mpr ⟨hb, rfl⟩, hfind]
  rfl

/-! ## Every step keeps it -/

section Steps

variable {cfg : NodeConfig} {n : Node} {kv : KVStore} {ord : RangeOrder} {s s' s'' : FullNode × List Block}
  {ev : ServiceEvent} {evs evs' : List ServiceEvent}

theorem Counting.congr (hc : Counting txs ws) (h : ws'.accounts = ws.accounts) : Counting txs ws' where
  nonce a := by rw [nonceOf_congr h, hc.nonce]
  used := hc.used

theorem allAccounts_length (h : (ws.allAccounts ord).length = 0) (a : Address) : ws.getAccount a = none := by
  cases hg : ws.getAccount a with
  | none => rfl
  | some acct =>
    have hmem : acct ∈ ws.allAccounts ord := List.mem_map.mpr ⟨(a, acct), MapRange.mem_list.mpr hg, rfl⟩
    rw [List.length_eq_zero_iff.mp h] at hmem
    cases hmem

/-- A node that starts on the disk of a chain is in the state that was there. -/
theorem newNode_serving (hi : Indexes E bs chain) (hpos : ∀ b ∈ chain, 0 < b.header.height)
    (hheight : ∀ ws, loadState kv = .ok ws → ws.chainHeight = chainHeight chain) (hb : Booted (ws, kv))
    (hloads : ∀ ws', loadState kv = .ok ws' → ws'.accounts = ws.accounts ∧ Indexed ws')
    (hc : Counting (chainTxs chain) ws) (ht : TxIndexed E bs chain) (h : newNode E cfg ord bs kv = .ok n)
    (maxSize : Int64) :
    Serving E cfg (⟨n, { maxSize }⟩, chain) := by
  have hintact := newNode_intact hi hpos hheight h
  simp only [newNode, Except.bind_ok_iff, Except.pure_ok_iff] at h
  obtain ⟨-, -, r, hr, rfl⟩ := h
  simp only [loadOrInitialize, Except.bind_ok_iff, Except.wrapErr_ok_iff] at hr
  obtain ⟨loaded, hloaded, hr⟩ := hr
  obtain ⟨haccounts, hindexed⟩ := hloads loaded hloaded
  have hwaiting : (⟨newEngine cfg r.1 none, { maxSize }⟩ : PooledEngine).Waiting E := by
    refine ⟨fun txHash tx hl => ?_, fun tx hp => ?_⟩
    · cases hl
    · obtain ⟨txHash, hl⟩ := hp
      cases hl
  have hwaiting : ∀ last, (⟨newEngine cfg r.1 last, { maxSize }⟩ : PooledEngine).Waiting E :=
    fun _ => ⟨hwaiting.1, hwaiting.2⟩
  split at hr
  · next hfresh =>
    simp only [Except.bind_ok_iff, Except.wrapErr_ok_iff, Except.pure_ok_iff] at hr
    obtain ⟨init, hinit, rfl⟩ := hr
    -- Nothing has been committed, so the nonces are those of genesis.
    have hnone : chain = [] := by
      rcases List.eq_nil_or_concat chain with hnil | ⟨bs', b, rfl⟩
      · exact hnil
      · have hzero := hheight loaded hloaded
        rw [hfresh.1, List.concat_eq_append, chainHeight_append] at hzero
        have := hpos b (by simp)
        rw [← hzero] at this
        exact absurd this (UInt64.lt_irrefl 0)
    subst hnone
    have hnumbered := (initializeState_numbered hinit).1
    have hnames := initializeState_namesSatisfy (P := fun n => n.length < 2 ^ 32) hinit
    have hbooted : Booted (init, kv) := by
      refine ⟨initializeState_indexed hinit, hnames, fun k v hpre hl => ?_⟩
      obtain ⟨a, -, ha⟩ := hb.stored k v hpre hl
      have hempty := allAccounts_length hfresh.2 a
      rw [WorldState.getAccount_congr haccounts] at hempty
      change (ws.getAccount a).isSome = true at ha
      rw [hempty] at ha
      cases ha
    refine ⟨hintact, rfl, ⟨hbooted.indexed, hbooted.short, hbooted.saved⟩, fun w hw => ?_, ⟨hnumbered.nonce, ?_⟩, ht,
      hwaiting _⟩
    · exact loadState_accounts hbooted.indexed hbooted.short hbooted.stored hw
    · intro l tx l' hl
      cases l <;> cases hl
  · rw [Except.pure_ok_iff] at hr
    subst hr
    refine ⟨hintact, rfl, ⟨hindexed, fun n a hl => ?_, fun k v hpre hl => ?_⟩, fun w hw => ?_, hc.congr haccounts, ht,
      hwaiting _⟩
    · obtain ⟨hne, acct, hg, rfl⟩ := hindexed.owned n a hl
      rw [WorldState.getAccount_congr haccounts] at hg
      exact hb.indexed.short hb.short hg
    · obtain ⟨a, rfl, ha⟩ := hb.stored k v hpre hl
      refine ⟨a, rfl, ?_⟩
      show (loaded.getAccount a).isSome = true
      rwa [WorldState.getAccount_congr haccounts]
    · have hw : loadState kv = .ok w := hw
      rw [hloaded] at hw
      cases hw
      exact ⟨rfl, hindexed⟩

theorem Serving.restart (hs : Serving E cfg s) (h : newNode E cfg ord s.1.node.blockStore s.1.node.kv = .ok n)
    (maxSize : Int64) :
    Serving E cfg (⟨n, { maxSize }⟩, s.2) :=
  newNode_serving hs.intact.indexes hs.intact.positive (fun _ hl => hs.intact.loaded_height hl) hs.booted hs.loads
    hs.counting hs.txIndexed h maxSize

theorem start_serving {f : FullNode} (h : FullNode.start E cfg ord = .ok f) : Serving E cfg (f, []) := by
  simp only [FullNode.start, Except.bind_ok_iff, Except.pure_ok_iff] at h
  obtain ⟨n, hn, rfl⟩ := h
  have hitems : ∀ pre, itemsOf ∅ pre = [] := fun _ => rfl
  have hblank : loadState ∅ = .ok {} := by
    simp only [loadState, hitems]
    rfl
  have hindexed : Indexed ({} : WorldState) := by
    refine ⟨⟨?_, ?_, ?_⟩, ?_, ?_⟩ <;> intros <;> contradiction
  have hbooted : Booted (({} : WorldState), ∅) := by
    refine ⟨hindexed, fun n a hl => ?_, fun k v _ hl => ?_⟩ <;> cases hl
  have hcounting : Counting (chainTxs []) {} := by
    refine ⟨fun a => rfl, fun l tx l' hl => ?_⟩
    cases l <;> cases hl
  have hindex : TxIndexed E {} [] := by
    refine ⟨fun x h hl => ?_, fun b hb => ?_⟩
    · cases hl
    · cases hb
  refine newNode_serving .empty (fun b hb => ?_) (fun w hw => ?_) hbooted (fun w hw => ?_) hcounting hindex hn 10000
  · cases hb
  · rw [hblank] at hw
    cases hw
    rfl
  · rw [hblank] at hw
    cases hw
    exact ⟨rfl, hindexed⟩

/-- A block that is proposed above the chain, or taken from others, is above it. -/
theorem commits_above {e : Engine} {ev : Event} {c : Block × WorldState} {saveOrd : RangeOrder}
    {poolOrd : MapRange Hash Transaction}
    {fault : Fault} (hcur : e.Current) (ho : (ServiceEvent.engine ev saveOrd poolOrd fault).Orderly e)
    (hc : e.commits E ev = some c) : e.currentHeight < c.1.header.height ∧ c.2.chainHeight = c.1.header.height := by
  cases ev with
  | propose o height txs timestamp replies =>
    obtain ⟨block, hr, hheader⟩ := commits_propose hc
    obtain ⟨hheight, -, hchain⟩ := assembleBlock_ok hr
    have habove : e.currentHeight < height := ho.2
    rw [hheader, hheight]
    exact ⟨habove, hchain⟩
  | proposal o now block => cases hc
  | finalized o ord now fb =>
    obtain ⟨hfollows, -, hle⟩ := commits_finalized hc
    exact ⟨UInt64.not_le.mp hle, hfollows.chainHeight⟩
  | synced o ord now fb =>
    obtain ⟨hfollows, hheight⟩ := commits_synced hc
    have hroom : e.currentHeight.toNat + 1 < 2 ^ 64 := ho.2
    refine ⟨?_, hfollows.chainHeight⟩
    rw [hheight, hcur.nextHeight, UInt64.lt_iff_toNat_lt, UInt64.toNat_add, UInt64.toNat_one, Nat.mod_eq_of_lt hroom]
    omega

theorem Intact.current {n : Node} (h : Intact E n chain) : n.engine.Current := by
  rw [Engine.Current, h.height, h.lastBlock]
  rfl

/-- What `DiskEvent` calls a commit of both writes. -/
theorem Serving.commit (hs : Serving E cfg s) {ev : Event} {c : Block × WorldState} {saveOrd : RangeOrder}
    {poolOrd : MapRange Hash Transaction} {fault : Fault}
    (ho : (ServiceEvent.engine ev saveOrd poolOrd fault).Orderly s.1.node.engine)
    (hc : s.1.node.engine.commits E ev = some c) :
    Serving E cfg (⟨(s.1.node.commitBlock E c.1 c.2 saveOrd .none).1, (s.1.pooled.commitBlock E poolOrd c.1 c.2).mempool⟩,
      s.2 ++ [c.1]) := by
  obtain ⟨habove, hchain⟩ := commits_above hs.intact.current ho hc
  have hdisk : diskStep E cfg (s.1.node, s.2) (.commit c.1 c.2 saveOrd .none) =
      .ok ((s.1.node.commitBlock E c.1 c.2 saveOrd .none).1, s.2 ++ [c.1]) := rfl
  obtain ⟨ord, block, happly, htxs⟩ := PooledEngine.commits_applies hc
  obtain ⟨log, hcounted, hmap, hsent⟩ := PooledEngine.commits_counted hs.booted.indexed.keyed hc
  have hbooted : Booted (c.2, s.1.node.kv) := by
    obtain ⟨hindexed, hshort⟩ := keeps_shortNames.invariant_block ⟨hs.booted.indexed, hs.booted.short⟩ happly
    refine ⟨hindexed, hshort, fun k v hpre hl => ?_⟩
    obtain ⟨a, rfl, ha⟩ := hs.booted.stored k v hpre hl
    exact ⟨a, rfl, (applyBlock_writes happly).accounts_grow a ha⟩
  have hundisturbed : Undisturbed s.1.node (.commit c.1 c.2 saveOrd .none) := Or.inr ⟨rfl, habove, hchain⟩
  refine ⟨hs.intact.step hundisturbed hdisk, hs.params, ⟨hbooted.indexed, hbooted.short, hbooted.saved⟩,
    fun w hw => loadState_accounts hbooted.indexed hbooted.short hbooted.stored hw, ?_, hs.txIndexed.saveBlock, ?_⟩
  · have hnew : chainTxs (s.2 ++ [c.1]) = chainTxs s.2 ++ log.map (·.tx) := by
      rw [chainTxs, List.flatMap_append, List.flatMap_singleton, hmap]
      rfl
    show Counting (chainTxs (s.2 ++ [c.1])) c.2
    rw [hnew]
    exact hs.counting.append hcounted fun a => by rw [hsent, hmap]
  · exact hs.waiting.commitBlock

theorem Serving.step (hs : Serving E cfg s) (ho : ev.Orderly s.1.node.engine) (h : FullNode.step E cfg s ev = .ok s') :
    Serving E cfg s' := by
  cases ev with
  | engine ev saveOrd poolOrd fault =>
    simp only [FullNode.step] at h
    split at h
    · cases h
      exact hs
    · next c hc =>
      cases fault with
      | none =>
        cases h
        exact hs.commit ho hc
      | saveBlock =>
        cases h
        exact hs
      | saveState => exact absurd rfl ho.1
  | submitTx tx =>
    simp only [FullNode.step] at h
    split at h
    · next pooled hadd =>
      cases h
      have hwaiting := hs.waiting.onSubmitTx hadd
      simp only [PooledEngine.onSubmitTx, Except.bind_ok_iff, Except.pure_ok_iff] at hadd
      obtain ⟨m, -, rfl⟩ := hadd
      exact ⟨hs.intact, hs.params, hs.booted, hs.loads, hs.counting, hs.txIndexed, hwaiting⟩
    · cases h
      exact hs
  | restart ord =>
    simp only [FullNode.step, Except.bind_ok_iff, Except.pure_ok_iff] at h
    obtain ⟨n, hn, rfl⟩ := h
    exact hs.restart hn 10000

theorem Serving.run (hs : Serving E cfg s) (ho : OrderlyAlong E cfg s evs) (h : FullNode.run E cfg s evs = .ok s') :
    Serving E cfg s' := by
  induction evs generalizing s with
  | nil =>
    obtain rfl := Except.foldlM_nil_ok_iff.mp h
    exact hs
  | cons ev evs ih =>
    obtain ⟨s₁, hs₁, h⟩ := Except.foldlM_cons_ok_iff.mp h
    exact ih (hs.step ho.1 hs₁) (ho.2 s₁ hs₁) h

/-- The chain only grows. -/
theorem step_chain (h : FullNode.step E cfg s ev = .ok s') : s.2 <+: s'.2 := by
  cases ev with
  | engine ev saveOrd poolOrd fault =>
    simp only [FullNode.step] at h
    split at h
    · cases h
      exact List.prefix_rfl
    · cases fault <;> cases h
      · exact List.prefix_append _ _
      · exact List.prefix_rfl
      · exact List.prefix_rfl
  | submitTx tx =>
    simp only [FullNode.step] at h
    split at h <;> cases h <;> exact List.prefix_rfl
  | restart ord =>
    simp only [FullNode.step, Except.bind_ok_iff, Except.pure_ok_iff] at h
    obtain ⟨n, -, rfl⟩ := h
    exact List.prefix_rfl

theorem run_chain (h : FullNode.run E cfg s evs = .ok s') : s.2 <+: s'.2 := by
  induction evs generalizing s with
  | nil =>
    obtain rfl := Except.foldlM_nil_ok_iff.mp h
    exact List.prefix_rfl
  | cons ev evs ih =>
    obtain ⟨s₁, hs₁, h⟩ := Except.foldlM_cons_ok_iff.mp h
    exact (step_chain hs₁).trans (ih h)

theorem OrderlyAlong.split (ho : OrderlyAlong E cfg s (evs ++ evs')) (h : FullNode.run E cfg s evs = .ok s') :
    OrderlyAlong E cfg s evs ∧ OrderlyAlong E cfg s' evs' := by
  induction evs generalizing s with
  | nil =>
    obtain rfl := Except.foldlM_nil_ok_iff.mp h
    exact ⟨trivial, ho⟩
  | cons ev evs ih =>
    obtain ⟨s₁, hs₁, h⟩ := Except.foldlM_cons_ok_iff.mp h
    refine ⟨⟨ho.1, fun s₂ hs₂ => ?_⟩, (ih (ho.2 s₁ hs₁) h).2⟩
    rw [hs₁] at hs₂
    cases hs₂
    exact (ih (ho.2 s₁ hs₁) h).1

/-! ## What is told -/

theorem Serving.lookup_iff (hs : Serving E cfg s) (hfew : ∀ a, sentBy a (chainTxs s.2) < 2 ^ 64)
    (hd : NoCollision E (· ∈ chainTxs s.2)) : s.1.node.blockStore.getTransaction E x = .ok (tx, h) ↔
      ∃ b ∈ s.2, b.header.height = h ∧ tx ∈ b.transactions ∧ tx.hash E = x :=
  getTransaction_ok_iff hs.intact.indexes hs.txIndexed (hs.counting.nodup hfew) hd

/-- **Lookups are exact**: a node finds a transaction, and its height, if and
only if the block it has committed at that height has it. In an orderly run no
`SaveState` fails and no proposal is late. -/
theorem transaction_found {f : FullNode} (hstart : FullNode.start E cfg ord = .ok f) (ho : OrderlyAlong E cfg (f, []) evs)
    (hrun : FullNode.run E cfg (f, []) evs = .ok s) (hfew : ∀ a, sentBy a (chainTxs s.2) < 2 ^ 64)
    (hd : NoCollision E (· ∈ chainTxs s.2)) (x : Hash) (tx : Transaction) (h : UInt64) :
    s.1.node.blockStore.getTransaction E x = .ok (tx, h) ↔
      ∃ b, s.1.node.blockStore.getBlockByHeight h = .ok b ∧ b ∈ s.2 ∧ tx ∈ b.transactions ∧ tx.hash E = x := by
  have hs := (start_serving hstart).run ho hrun
  rw [hs.lookup_iff hfew hd]
  constructor
  · rintro ⟨b, hb, hheight, htx, hx⟩
    exact ⟨b, hs.intact.indexes.getBlockByHeight_ok.mpr ⟨hb, hheight⟩, hb, htx, hx⟩
  · rintro ⟨b, hget, hb, htx, hx⟩
    exact ⟨b, hb, (hs.intact.indexes.getBlockByHeight_ok.mp hget).2, htx, hx⟩

theorem txStatus_confirmed_iff {n : FullNode} {hashStr : String} : n.txStatus E hashStr x = ⟨hashStr, "confirmed", h⟩ ↔
    ∃ tx, n.node.blockStore.getTransaction E x = .ok (tx, h) := by
  unfold FullNode.txStatus
  split
  · next tx height hget => simp [hget]
  · next err hget =>
    simp only [hget, reduceCtorEq, exists_false, iff_false]
    split <;> simp

@[simp] theorem txToResponse_blockHeight : (txToResponse E tx h).blockHeight = h := by
  unfold txToResponse
  split <;> rfl

/-- **The two handlers agree**: a transaction is returned, with a height, if and
only if it is told confirmed, at that height. -/
theorem handleGetTransaction_iff {n : FullNode} {hashStr : String} :
    (∃ r, n.handleGetTransaction E hashStr = .ok r ∧ r.blockHeight = h) ↔
      n.handleGetTransactionStatus E hashStr = .ok ⟨hashStr, "confirmed", h⟩ := by
  simp only [FullNode.handleGetTransaction, FullNode.handleGetTransactionStatus, Except.bind_ok_iff,
    Except.wrapErr_ok_iff, Except.pure_ok_iff]
  constructor
  · rintro ⟨_, ⟨x, hx, ⟨tx, height⟩, hget, rfl⟩, hheight⟩
    rw [txToResponse_blockHeight] at hheight
    exact ⟨x, hx, txStatus_confirmed_iff.mpr ⟨tx, hheight ▸ hget⟩⟩
  · rintro ⟨x, hx, hstatus⟩
    obtain ⟨tx, hget⟩ := txStatus_confirmed_iff.mp hstatus
    exact ⟨_, ⟨x, hx, ⟨tx, h⟩, hget, rfl⟩, txToResponse_blockHeight⟩

theorem txStatus_pending {n : FullNode} {hashStr : String}
    (hnone : ∀ tx h, n.node.blockStore.getTransaction E x ≠ .ok (tx, h))
    (hhas : n.mempool.has x = true) : n.txStatus E hashStr x = ⟨hashStr, "pending", 0⟩ := by
  unfold FullNode.txStatus
  split
  · next tx height hget => exact absurd hget (hnone tx height)
  · rw [if_pos hhas]

/-- What waits in the pool is not in the chain. -/
theorem Serving.pending_new (hs : Serving E cfg s) (hfew : ∀ a, sentBy a (chainTxs s.2) < 2 ^ 64)
    (hp : s.1.mempool.IsPending tx) : tx ∉ chainTxs s.2 := by
  intro hmem
  obtain ⟨acct, hg, hlt⟩ := hs.waiting.unused tx hp
  have hle := hs.counting.le hfew hmem
  have hg : s.1.node.engine.state.getAccount tx.sender = some acct := hg
  rw [nonceOf_of hg] at hle
  exact absurd hlt (UInt64.not_lt.mpr hle)

theorem NoCollision.mono {P Q : Transaction → Prop} (hd : NoCollision E Q) (h : ∀ tx, P tx → Q tx) : NoCollision E P :=
  fun tx tx' htx htx' => hd tx tx' (h tx htx) (h tx' htx')

/-- **A status settles**: a transaction is told confirmed if and only if it is
in the chain, and is from then on, at one height, through the blocks,
submissions and restarts of an orderly run; one that waits in the pool is told
pending. -/
theorem status_settles {f : FullNode} (hstart : FullNode.start E cfg ord = .ok f)
    (ho : OrderlyAlong E cfg (f, []) (evs ++ evs')) (hrun : FullNode.run E cfg (f, []) evs = .ok s)
    (hrun' : FullNode.run E cfg s evs' = .ok s') (hfew : ∀ a, sentBy a (chainTxs s'.2) < 2 ^ 64)
    (hd : NoCollision E fun tx => tx ∈ chainTxs s'.2 ∨ s.1.mempool.IsPending tx) {hashStr : String}
    (hx : parseHash hashStr "invalid transaction hash" = .ok x) :
    ((∃ h, s.1.handleGetTransactionStatus E hashStr = .ok ⟨hashStr, "confirmed", h⟩) ↔
      ∃ tx ∈ chainTxs s.2, tx.hash E = x) ∧
      (∀ h, s.1.handleGetTransactionStatus E hashStr = .ok ⟨hashStr, "confirmed", h⟩ →
        s'.1.handleGetTransactionStatus E hashStr = .ok ⟨hashStr, "confirmed", h⟩) ∧
      (s.1.mempool.has x = true → s.1.handleGetTransactionStatus E hashStr = .ok ⟨hashStr, "pending", 0⟩) := by
  obtain ⟨ho₁, ho₂⟩ := ho.split hrun
  have hs := (start_serving hstart).run ho₁ hrun
  have hs' := hs.run ho₂ hrun'
  have hpre := run_chain hrun'
  have hsub : ∀ tx, tx ∈ chainTxs s.2 → tx ∈ chainTxs s'.2 := by
    intro tx htx
    obtain ⟨b, hb, htx⟩ := mem_chainTxs.mp htx
    exact mem_chainTxs.mpr ⟨b, hpre.subset hb, htx⟩
  have hfew₁ : ∀ a, sentBy a (chainTxs s.2) < 2 ^ 64 := by
    intro a
    obtain ⟨rest, hrest⟩ := hpre
    have hbound := hfew a
    rw [← hrest, chainTxs, List.flatMap_append, sentBy_append] at hbound
    exact Nat.lt_of_le_of_lt (Nat.le_add_right _ _) hbound
  have hd' : NoCollision E (· ∈ chainTxs s'.2) := hd.mono fun _ => .inl
  have hd₁ : NoCollision E (· ∈ chainTxs s.2) := hd.mono fun tx htx => .inl (hsub tx htx)
  have hanswer : ∀ n : FullNode, n.handleGetTransactionStatus E hashStr = .ok (n.txStatus E hashStr x) := by
    intro n
    rw [FullNode.handleGetTransactionStatus, hx]
    rfl
  simp only [hanswer, Except.ok.injEq, txStatus_confirmed_iff]
  refine ⟨⟨?_, ?_⟩, ?_, ?_⟩
  · rintro ⟨h, tx, hget⟩
    obtain ⟨b, hb, -, htx, hhash⟩ := (hs.lookup_iff hfew₁ hd₁).mp hget
    exact ⟨tx, mem_chainTxs.mpr ⟨b, hb, htx⟩, hhash⟩
  · rintro ⟨tx, htx, hhash⟩
    obtain ⟨b, hb, htx⟩ := mem_chainTxs.mp htx
    exact ⟨b.header.height, tx, (hs.lookup_iff hfew₁ hd₁).mpr ⟨b, hb, rfl, htx, hhash⟩⟩
  · rintro h ⟨tx, hget⟩
    obtain ⟨b, hb, hheight, htx, hhash⟩ := (hs.lookup_iff hfew₁ hd₁).mp hget
    exact ⟨tx, (hs'.lookup_iff hfew hd').mpr ⟨b, hpre.subset hb, hheight, htx, hhash⟩⟩
  · intro hhas
    obtain ⟨waiting, hl⟩ := Option.isSome_iff_exists.mp hhas
    have hp : s.1.mempool.IsPending waiting := ⟨x, hl⟩
    refine txStatus_pending (fun tx h hget => ?_) hhas
    obtain ⟨b, hb, -, htx, hhash⟩ := (hs.lookup_iff hfew₁ hd₁).mp hget
    have hmem := mem_chainTxs.mpr ⟨b, hb, htx⟩
    -- The two would be one transaction, and its nonce both used and unused.
    obtain rfl := hd.eq (.inl (hsub tx hmem)) (.inr hp) (hhash.trans (hs.waiting.hashed x waiting hl))
    exact hs.pending_new hfew₁ hp hmem

end Steps

section

open Sample

def posting : Transaction := createPost 1 100 1

/-- A post is submitted, and proposed. -/
def postEvents : List ServiceEvent := [.submitTx posting, .engine (.propose orders 1 [posting] 10 []) order byBytes .none]

theorem post_run : ((FullNode.start env nodeConfig order).toOption.bind fun f =>
      (FullNode.run env nodeConfig (f, []) postEvents).toOption).any (fun s =>
    chainTxs s.2 = [posting] ∧ s.1.mempool.size = 0 ∧ (FullNode.run env nodeConfig s [.restart order]).isOk) = true := by
  decide +kernel

theorem postEvents_orderly {f : FullNode} (hstart : FullNode.start env nodeConfig order = .ok f) :
    OrderlyAlong env nodeConfig (f, []) (postEvents ++ [.restart order]) := by
  have hheight : f.node.engine.currentHeight = 0 := (start_serving hstart).intact.height
  refine ⟨trivial, fun s hs => ⟨⟨by decide, ?_⟩, fun _ _ => ⟨trivial, fun _ _ => trivial⟩⟩⟩
  have hsame : s.1.node = f.node := by
    simp only [FullNode.step] at hs
    split at hs <;> cases hs <;> rfl
  show s.1.node.engine.currentHeight < 1
  rw [hsame, hheight]
  decide

/-- The run, what it comes to and the restart after it. -/
theorem post_runs : ∃ f s s', FullNode.start env nodeConfig order = .ok f ∧
    FullNode.run env nodeConfig (f, []) postEvents = .ok s ∧ FullNode.run env nodeConfig s [.restart order] = .ok s' ∧
    chainTxs s.2 = [posting] ∧ chainTxs s'.2 = [posting] ∧ ∀ tx, ¬ s.1.mempool.IsPending tx := by
  obtain ⟨s, hs, hfacts⟩ := (Option.any_eq_true _ _).mp post_run
  obtain ⟨f, hf, hs⟩ := Option.bind_eq_some_iff.mp hs
  obtain ⟨htxs, hempty, hok⟩ := of_decide_eq_true hfacts
  obtain ⟨s', hs'⟩ := Except.exists_ok hok
  have hchain : s'.2 = s.2 := by
    obtain ⟨s₁, hstep, hnil⟩ := Except.foldlM_cons_ok_iff.mp hs'
    obtain rfl := Except.foldlM_nil_ok_iff.mp hnil
    simp only [FullNode.step, Except.bind_ok_iff, Except.pure_ok_iff] at hstep
    obtain ⟨n, -, rfl⟩ := hstep
    rfl
  refine ⟨f, s, s', Except.toOption_eq_some_iff.mp hf, Except.toOption_eq_some_iff.mp hs, hs', htxs, by rw [hchain, htxs],
    ?_⟩
  rintro tx ⟨txHash, hl⟩
  have hmem : txHash ∈ s.1.mempool.txs.keys := Finmap.mem_keys.mpr (Finmap.lookup_isSome.mp (by rw [hl]; rfl))
  rw [Finset.card_eq_zero.mp hempty] at hmem
  exact absurd hmem (Finset.notMem_empty _)

theorem posting_few (a : Address) : sentBy a [posting] < 2 ^ 64 :=
  (List.length_filter_le _ _).trans_lt (by decide)

theorem transaction_found_posting : ∃ s : FullNode × List Block, ∃ h,
    s.1.node.blockStore.getTransaction env (posting.hash env) = .ok (posting, h) := by
  obtain ⟨f, s, -, hstart, hrun, -, htxs, -, -⟩ := post_runs
  have hd : NoCollision env (· ∈ chainTxs s.2) := by
    intro tx tx' htx htx' _
    rw [htxs, List.mem_singleton] at htx htx'
    rw [htx, htx']
  have ho := ((postEvents_orderly hstart).split hrun).1
  obtain ⟨b, hb, htx⟩ := mem_chainTxs.mp (by rw [htxs]; exact List.mem_singleton_self posting)
  have hs := (start_serving hstart).run ho hrun
  have hget := hs.intact.indexes.getBlockByHeight_ok.mpr ⟨hb, rfl⟩
  exact ⟨s, b.header.height, (transaction_found hstart ho hrun (by rw [htxs]; exact posting_few) hd _ posting _).mpr
    ⟨b, hget, hb, htx, rfl⟩⟩

theorem status_settles_posting : ∃ s s' : FullNode × List Block, ∃ h,
    s.1.handleGetTransactionStatus env (hexEncode (posting.hash env).toList) =
      .ok ⟨hexEncode (posting.hash env).toList, "confirmed", h⟩ ∧
    s'.1.handleGetTransactionStatus env (hexEncode (posting.hash env).toList) =
      .ok ⟨hexEncode (posting.hash env).toList, "confirmed", h⟩ := by
  obtain ⟨f, s, s', hstart, hrun, hrun', htxs, htxs', hnone⟩ := post_runs
  have hd : NoCollision env fun tx => tx ∈ chainTxs s'.2 ∨ s.1.mempool.IsPending tx := by
    intro tx tx' htx htx' _
    rw [htxs', List.mem_singleton] at htx htx'
    rw [htx.resolve_right (hnone tx), htx'.resolve_right (hnone tx')]
  have hx : parseHash (hexEncode (posting.hash env).toList) "invalid transaction hash" = .ok (posting.hash env) := by
    decide +kernel
  obtain ⟨hconfirmed, hstays, -⟩ :=
    status_settles hstart (postEvents_orderly hstart) hrun hrun' (by rw [htxs']; exact posting_few) hd hx
  obtain ⟨h, hh⟩ := hconfirmed.mpr ⟨posting, by rw [htxs]; exact List.mem_singleton_self _, rfl⟩
  exact ⟨s, s', h, hh, hstays h hh⟩

end

end Drana
