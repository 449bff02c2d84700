/-
What leaves the pool when a block is committed: the block's transactions, and
those whose nonce has been used. Nonces only grow, until one wraps, so what is
dropped could not have been applied any more.
-/
import Drana.Mempool
import Drana.Agreement

namespace Drana

namespace Mempool

def delete (m : Mempool) (txHash : Hash) : Mempool := { m with txs := m.txs.erase txHash }

def remove (m : Mempool) (txHashes : List Hash) : Mempool := txHashes.foldl delete m

/-- `getAccountNonce` has no nonce for an account that does not exist. -/
def evictStale (ord : MapRange Hash Transaction) (m : Mempool) (getAccountNonce : Address → Option UInt64) : Mempool :=
  (ord.list m.txs).foldl (fun m e =>
    match getAccountNonce e.2.sender with
    | none => m.delete e.1
    | some nonce => if e.2.nonce ≤ nonce then m.delete e.1 else m) m

/-- A transaction that waits in the pool. -/
def IsPending (m : Mempool) (tx : Transaction) : Prop := ∃ txHash, m.txs.lookup txHash = some tx

/-- What `EvictStale` takes for stale. -/
def Stale (getAccountNonce : Address → Option UInt64) (tx : Transaction) : Prop :=
  ∀ nonce, getAccountNonce tx.sender = some nonce → tx.nonce ≤ nonce

variable {m : Mempool} {txHash h : Hash} {tx : Transaction} {getAccountNonce : Address → Option UInt64}

theorem lookup_delete : (m.delete h).txs.lookup txHash = some tx ↔ txHash ≠ h ∧ m.txs.lookup txHash = some tx := by
  rw [delete]
  by_cases heq : txHash = h
  · rw [heq, Finmap.lookup_erase]
    simp
  · rw [Finmap.lookup_erase_ne heq]
    simp [heq]

theorem lookup_remove {txHashes : List Hash} :
    (m.remove txHashes).txs.lookup txHash = some tx ↔ txHash ∉ txHashes ∧ m.txs.lookup txHash = some tx := by
  induction txHashes generalizing m with
  | nil => simp [remove]
  | cons h hs ih =>
    show ((m.delete h).remove hs).txs.lookup txHash = some tx ↔ _
    rw [ih, lookup_delete, List.mem_cons, not_or]
    tauto

/-- One transaction `EvictStale` looks at. -/
theorem lookup_evict {e : Hash × Transaction} :
    (match getAccountNonce e.2.sender with
      | none => m.delete e.1
      | some nonce => if e.2.nonce ≤ nonce then m.delete e.1 else m).txs.lookup txHash = some tx ↔
      (e.1 = txHash → ¬ Stale getAccountNonce e.2) ∧ m.txs.lookup txHash = some tx := by
  cases hn : getAccountNonce e.2.sender with
  | none =>
    have hstale : Stale getAccountNonce e.2 := fun nonce h => by simp [hn] at h
    rw [lookup_delete]
    simp [hstale, eq_comm]
  | some nonce =>
    have hstale : Stale getAccountNonce e.2 ↔ e.2.nonce ≤ nonce := by simp [Stale, hn]
    dsimp only
    rw [hstale]
    split
    · next hle =>
      rw [lookup_delete]
      simp [hle, eq_comm]
    · next hle => simp [hle]

theorem lookup_evictStale {ord : MapRange Hash Transaction} :
    (m.evictStale ord getAccountNonce).txs.lookup txHash = some tx ↔
      ¬ Stale getAccountNonce tx ∧ m.txs.lookup txHash = some tx := by
  have hfold : ∀ (l : List (Hash × Transaction)) (m : Mempool),
      (l.foldl (fun m e =>
        match getAccountNonce e.2.sender with
        | none => m.delete e.1
        | some nonce => if e.2.nonce ≤ nonce then m.delete e.1 else m) m).txs.lookup txHash = some tx ↔
        (∀ e ∈ l, e.1 = txHash → ¬ Stale getAccountNonce e.2) ∧ m.txs.lookup txHash = some tx := by
    intro l
    induction l with
    | nil => simp
    | cons e l ih =>
      intro m
      rw [List.foldl_cons, ih, lookup_evict, List.forall_mem_cons]
      tauto
  rw [evictStale, hfold]
  constructor
  · rintro ⟨hall, hl⟩
    exact ⟨hall (txHash, tx) (MapRange.mem_list.mpr hl) rfl, hl⟩
  · rintro ⟨hstale, hl⟩
    refine ⟨fun e he heq => ?_, hl⟩
    have hle : m.txs.lookup e.1 = some e.2 := MapRange.mem_list.mp he
    rw [heq, hl] at hle
    cases hle
    exact hstale

end Mempool

/-! ## Nonces grow -/

section

variable {E : Env} {ar : Arith} {params : GenesisConfig} {base ws ws' : WorldState} {log : List Applied} {a : Address}
  {tx : Transaction}

/-- How many of the transactions are of `a`. -/
def sentBy (a : Address) (txs : List Transaction) : Nat := (txs.filter fun tx => tx.sender = a).length

theorem sentBy_append {txs txs' : List Transaction} : sentBy a (txs ++ txs') = sentBy a txs + sentBy a txs' := by
  rw [sentBy, List.filter_append, List.length_append]
  rfl

/-- Since `base`, each nonce has grown by what was applied, which used the nonces between. -/
structure Counted (base : WorldState) (log : List Applied) (ws : WorldState) : Prop where
  keyed : Keyed ws
  nonce : ∀ a, nonceOf ws a = nonceOf base a + UInt64.ofNat (sentIn a log)
  used : ∀ l e, l ++ [e] <+: log → e.tx.nonce = nonceOf base e.tx.sender + UInt64.ofNat (sentIn e.tx.sender l + 1)

namespace Counted

theorem start (hk : Keyed base) : Counted base [] base where
  keyed := hk
  nonce a := by simp [sentIn]
  used l e hl := by simp at hl

theorem same (h : Counted base log ws) (hs : SameNumbers ws ws') : Counted base log ws' where
  keyed := hs.keyed h.keyed
  nonce a := (hs.nonce h.keyed a).trans (h.nonce a)
  used := h.used

theorem transaction {ord : RangeOrder} {header : BlockHeader} {i : Nat} (h : Counted base log ws)
    (hs : executeTransaction E ar params ord header i ws tx = .ok ws') :
    Counted base (log ++ [⟨ws, tx, ws'⟩]) ws' := by
  obtain ⟨acct, hg, hnext⟩ := executeTransaction_sender hs
  refine ⟨(executeTransaction_writes hs).keyed h.keyed, fun a => ?_, fun l e hl => ?_⟩
  · rw [(executeTransaction_numbers h.keyed hs).bumped a, h.nonce a, sentIn_concat, UInt64.ofNat_add, UInt64.add_assoc]
    split <;> rfl
  · rcases List.prefix_concat_iff.mp hl with heq | hl
    · obtain ⟨rfl, he⟩ := List.append_inj' heq rfl
      cases he
      show tx.nonce = _
      rw [hnext, ← nonceOf_of hg, h.nonce, UInt64.ofNat_add, UInt64.add_assoc]
      rfl
    · exact h.used l e hl

end Counted

theorem keeps_counted : Keeps E ar params (Counted base) where
  release hP h := hP.same (releaseMatured_numbers h)
  slash hP h := hP.same (applySlashEvidence_numbers h)
  tx hP h := hP.transaction h
  reward hP h := hP.same (issueReward_numbers h)
  epoch hP := hP.same epochTransition_numbers
  height hP := hP.same (SameNumbers.refl.congr rfl rfl rfl)

theorem Counted.toNat (h : Counted base log ws) (hfew : (nonceOf base a).toNat + sentIn a log < 2 ^ 64) :
    (nonceOf ws a).toNat = (nonceOf base a).toNat + sentIn a log := by
  have hlt : sentIn a log < 2 ^ 64 := by omega
  rw [h.nonce, UInt64.toNat_add, UInt64.toNat_ofNat_of_lt' hlt, Nat.mod_eq_of_lt hfew]

/-- What was applied has a nonce its sender has used, unless that has wrapped since. -/
theorem Counted.le (h : Counted base log ws) {e : Applied} (he : e ∈ log)
    (hfew : (nonceOf base e.tx.sender).toNat + sentIn e.tx.sender log < 2 ^ 64) :
    e.tx.nonce.toNat ≤ (nonceOf ws e.tx.sender).toNat := by
  obtain ⟨l, l', rfl⟩ := List.append_of_mem he
  have hpre : l ++ [e] <+: l ++ e :: l' := ⟨l', by simp⟩
  have hle : sentIn e.tx.sender (l ++ [e]) ≤ sentIn e.tx.sender (l ++ e :: l') := sentIn_mono hpre
  rw [sentIn_concat, if_pos rfl] at hle
  have hlt : sentIn e.tx.sender l + 1 < 2 ^ 64 := by omega
  have hsum : (nonceOf base e.tx.sender).toNat + (sentIn e.tx.sender l + 1) < 2 ^ 64 := by omega
  rw [h.toNat hfew, h.used l e hpre, UInt64.toNat_add, UInt64.toNat_ofNat_of_lt' hlt, Nat.mod_eq_of_lt hsum]
  omega

/-- A nonce that its sender has used is not valid again, until the sender's wraps. -/
theorem used_rejected {bs : List ((Nat → RangeOrder) × Block)} (hk : Keyed ws) (hpos : 0 < tx.nonce.toNat)
    (hused : tx.nonce.toNat ≤ (nonceOf ws tx.sender).toNat) (hrun : applyBlocks E .go params ws bs = .ok ws')
    (hfew : (nonceOf ws tx.sender).toNat + sentBy tx.sender (bs.flatMap (·.2.transactions)) < 2 ^ 64) :
    (validateTransaction E tx ws'.reader params).isOk = false := by
  have hcounted : Counted ws (appliedInRun E .go params ws bs) ws' := keeps_counted.fromStart (.start hk) hrun
  have hsent : sentIn tx.sender (appliedInRun E .go params ws bs) = sentBy tx.sender (bs.flatMap (·.2.transactions)) := by
    rw [sentIn_map, appliedInRun_map hrun, sentBy]
  have hnonce := hcounted.toNat (a := tx.sender) (by rw [hsent]; exact hfew)
  by_contra hvalid
  rw [Bool.not_eq_false] at hvalid
  obtain ⟨u, hu⟩ := Except.exists_ok hvalid
  obtain ⟨acct, hc⟩ := validateTransaction_ok hu
  obtain ⟨-, -, hg, hnext⟩ := validateCommonNoBalanceCheck_ok hc
  change ws'.getAccount tx.sender = some acct at hg
  rw [← nonceOf_of hg] at hnext
  -- The next nonce is larger, or zero.
  have hnat := congrArg UInt64.toNat hnext
  rw [UInt64.toNat_add, UInt64.toNat_one] at hnat
  have hlt := (nonceOf ws' tx.sender).toNat_lt
  omega

end

/-! ## The engine and its pool -/

/-- An engine with its `Mempool`, whose state checker it is. -/
structure PooledEngine where
  engine : Engine
  mempool : Mempool

namespace PooledEngine

def commitBlock (E : Env) (ord : MapRange Hash Transaction) (n : PooledEngine) (block : Block)
    (newState : WorldState) : PooledEngine where
  engine := n.engine.commitBlock block newState
  mempool := (n.mempool.remove (block.transactions.map (·.hash E))).evictStale ord fun addr =>
    (newState.getAccount addr).map (·.nonce)

/-- `Add` in one step. In the code it reads the nonce before it takes its lock, and
a commit may come between. -/
def onSubmitTx (E : Env) (n : PooledEngine) (tx : Transaction) : Except String PooledEngine := do
  let mempool ← (n.mempool.setStateChecker n.engine.state.getAccount).add E tx
  return { n with mempool }

end PooledEngine

inductive PoolEvent
  | event (ord : MapRange Hash Transaction) (ev : Event)
  | submitTx (tx : Transaction)

namespace PooledEngine

def next (E : Env) (n : PooledEngine) : PoolEvent → PooledEngine
  | .event ord ev => (n.engine.commits E ev).elim n fun c => n.commitBlock E ord c.1 c.2
  | .submitTx tx => (n.onSubmitTx E tx).toOption.getD n

def run (E : Env) (n : PooledEngine) (evs : List PoolEvent) : PooledEngine := evs.foldl (next E) n

/-- What waits is under its hash and has a nonce its sender has not used. -/
structure Waiting (E : Env) (n : PooledEngine) : Prop where
  hashed : ∀ txHash tx, n.mempool.txs.lookup txHash = some tx → txHash = tx.hash E
  unused : ∀ tx, n.mempool.IsPending tx →
    ∃ acct, n.engine.state.getAccount tx.sender = some acct ∧ acct.nonce < tx.nonce

variable {E : Env} {n : PooledEngine} {ord : MapRange Hash Transaction} {block : Block} {newState : WorldState}
  {tx : Transaction} {ev : PoolEvent} {evs : List PoolEvent}

/-- What waits after a commit waited before it, and is neither in the block nor stale. -/
theorem commitBlock_lookup {txHash : Hash} :
    (n.commitBlock E ord block newState).mempool.txs.lookup txHash = some tx ↔
      (∃ acct, newState.getAccount tx.sender = some acct ∧ acct.nonce < tx.nonce) ∧
        txHash ∉ block.transactions.map (·.hash E) ∧ n.mempool.txs.lookup txHash = some tx := by
  have hstale : ¬ Mempool.Stale (fun addr => (newState.getAccount addr).map (·.nonce)) tx ↔
      ∃ acct, newState.getAccount tx.sender = some acct ∧ acct.nonce < tx.nonce := by
    simp [Mempool.Stale, UInt64.not_le]
  rw [commitBlock, Mempool.lookup_evictStale, Mempool.lookup_remove, hstale]

theorem Waiting.commitBlock (h : n.Waiting E) : (n.commitBlock E ord block newState).Waiting E where
  hashed txHash tx hl := h.hashed txHash tx (commitBlock_lookup.mp hl).2.2
  unused tx hp := by
    obtain ⟨txHash, hl⟩ := hp
    exact (commitBlock_lookup.mp hl).1

theorem Waiting.onSubmitTx {n' : PooledEngine} (h : n.Waiting E) (hadd : n.onSubmitTx E tx = .ok n') : n'.Waiting E := by
  simp only [PooledEngine.onSubmitTx, Mempool.add, Except.bind_ok_iff, Except.pure_ok_iff] at hadd
  obtain ⟨m, ⟨-, -, -, -, u, hcheck, -, -, -, -, rfl⟩, rfl⟩ := hadd
  simp only [Mempool.setStateChecker, Mempool.checkSender, Except.bind_ok_iff, Except.orThrow_ok_iff,
    Except.throwIf_ok_iff, UInt64.not_le] at hcheck
  obtain ⟨acct, hg, -, -, hnonce⟩ := hcheck
  have hlookup : ∀ txHash tx', (n.mempool.txs.insert (tx.hash E) tx).lookup txHash = some tx' →
      txHash = tx.hash E ∧ tx' = tx ∨ n.mempool.txs.lookup txHash = some tx' := by
    intro txHash tx' hl
    by_cases heq : txHash = tx.hash E
    · rw [heq, Finmap.lookup_insert, Option.some.injEq] at hl
      exact .inl ⟨heq, hl.symm⟩
    · rw [Finmap.lookup_insert_of_ne _ heq] at hl
      exact .inr hl
  refine ⟨fun txHash tx' hl => ?_, fun tx' hp => ?_⟩
  · rcases hlookup txHash tx' hl with ⟨heq, rfl⟩ | hold
    · exact heq
    · exact h.hashed txHash tx' hold
  · obtain ⟨txHash, hl⟩ := hp
    rcases hlookup txHash tx' hl with ⟨-, rfl⟩ | hold
    · exact ⟨acct, hg, hnonce⟩
    · exact h.unused tx' ⟨txHash, hold⟩

theorem Waiting.next (h : n.Waiting E) : (n.next E ev).Waiting E := by
  cases ev with
  | event ord ev =>
    rw [PooledEngine.next]
    cases n.engine.commits E ev with
    | none => exact h
    | some c => exact h.commitBlock
  | submitTx tx =>
    rw [PooledEngine.next]
    cases hadd : n.onSubmitTx E tx with
    | error e => exact h
    | ok n' => exact h.onSubmitTx hadd

theorem Waiting.run (h : n.Waiting E) : (n.run E evs).Waiting E := by
  induction evs generalizing n with
  | nil => exact h
  | cons ev evs ih => exact ih h.next

/-! ## Commits -/

theorem run_params : (n.run E evs).engine.params = n.engine.params := by
  induction evs generalizing n with
  | nil => rfl
  | cons ev evs ih =>
    rw [run, List.foldl_cons]
    refine ih.trans ?_
    cases ev with
    | event ord ev =>
      rw [next]
      cases n.engine.commits E ev <;> rfl
    | submitTx tx =>
      rw [next]
      cases hadd : n.onSubmitTx E tx with
      | error e => rfl
      | ok n' =>
        simp only [onSubmitTx, Except.bind_ok_iff, Except.pure_ok_iff] at hadd
        obtain ⟨m, -, rfl⟩ := hadd
        rfl

/-- What a commit leaves comes from the transactions in its block. -/
theorem commits_applies {e : Engine} {ev : Event} {c : Block × WorldState} (hc : e.commits E ev = some c) :
    ∃ ord block, applyBlock E .go e.params ord e.state block = .ok c.2 ∧ block.transactions = c.1.transactions := by
  cases ev with
  | propose o height txs timestamp replies =>
    obtain ⟨block, hr, hheader⟩ := commits_propose hc
    obtain ⟨hblock, happly⟩ := Engine.assembleBlock_ok hr
    simp only [Engine.commits, hr, Except.toOption_eq_some_iff] at hc
    obtain ⟨-, heq⟩ := certifyProposal_ok_iff.mp hc
    exact ⟨o.block, block, happly, (congrArg (fun c => c.1.transactions) heq).symm⟩
  | proposal o now block => cases hc
  | finalized o ord now fb =>
    simp only [Engine.commits, Option.join_eq_some_iff, Except.toOption_eq_some_iff] at hc
    obtain ⟨qc, -, hblock, -, -, happly⟩ := acceptFinalized_ok hc
    exact ⟨ord, blockFromProto fb.block, happly, by rw [hblock]⟩
  | synced o ord now fb =>
    simp only [Engine.commits, Except.toOption_eq_some_iff] at hc
    obtain ⟨-, -, -, happly⟩ := acceptSynced_ok hc
    exact ⟨ord, c.1, happly, rfl⟩

/-- So the nonces after it count them. -/
theorem commits_counted {e : Engine} {ev : Event} {c : Block × WorldState} (hk : Keyed e.state)
    (hc : e.commits E ev = some c) :
    ∃ log, Counted e.state log c.2 ∧ log.map (·.tx) = c.1.transactions ∧
      ∀ a, sentIn a log = sentBy a c.1.transactions := by
  obtain ⟨ord, block, happly, htxs⟩ := commits_applies hc
  have hrun : applyBlocks E .go e.params e.state [(ord, block)] = .ok c.2 :=
    applyBlocks_cons_ok_iff.mpr ⟨c.2, happly, rfl⟩
  have hmap : (appliedInRun E .go e.params e.state [(ord, block)]).map (·.tx) = c.1.transactions := by
    rw [appliedInRun_map hrun, List.flatMap_singleton, htxs]
  refine ⟨_, keeps_counted.fromStart (.start hk) hrun, hmap, fun a => ?_⟩
  rw [sentIn_map, hmap, sentBy]

/-- No transaction that waits has the hash of another one in the block. -/
def HashesDistinct (E : Env) (m : Mempool) (block : Block) : Prop :=
  ∀ tx tx', m.IsPending tx → tx' ∈ block.transactions → tx.hash E = tx'.hash E → tx.hashBytes = tx'.hashBytes

/-- What a commit drops has a nonce its sender has used, unless that has wrapped in the block. -/
theorem dropped_used {e : Event} {c : Block × WorldState} (hw : n.Waiting E) (hk : Keyed n.engine.state)
    (hc : n.engine.commits E e = some c) (hdistinct : HashesDistinct E n.mempool c.1) (hp : n.mempool.IsPending tx)
    (hdropped : ¬ (n.commitBlock E ord c.1 c.2).mempool.IsPending tx)
    (hfew : (nonceOf n.engine.state tx.sender).toNat + sentBy tx.sender c.1.transactions < 2 ^ 64) :
    tx.nonce.toNat ≤ (nonceOf c.2 tx.sender).toNat := by
  obtain ⟨log, hcounted, hmap, hsent⟩ := commits_counted hk hc
  obtain ⟨txHash, hl⟩ := hp
  by_cases hin : txHash ∈ c.1.transactions.map (·.hash E)
  · -- The transaction is in the block, up to its signature.
    obtain ⟨tx', htx', hhash⟩ := List.mem_map.mp hin
    have hfields := hashBytes_fields (hdistinct tx tx' ⟨txHash, hl⟩ htx' (by rw [← hw.hashed txHash tx hl, hhash]))
    have hsender : tx'.sender = tx.sender := by rw [hfields]
    have hnonce : tx'.nonce = tx.nonce := by rw [hfields]
    rw [← hmap] at htx'
    obtain ⟨e', he', rfl⟩ := List.mem_map.mp htx'
    have hle := hcounted.le he' (by rw [hsent, hsender]; exact hfew)
    rwa [hsender, hnonce] at hle
  · -- Its sender is still there, so that its nonce is what is stale.
    obtain ⟨ords, block, happly, -⟩ := commits_applies hc
    obtain ⟨acct, hg, -⟩ := hw.unused tx ⟨txHash, hl⟩
    have hthere := (applyBlock_writes happly).accounts_grow tx.sender (by rw [hg]; rfl)
    obtain ⟨acct', hg'⟩ := Option.isSome_iff_exists.mp hthere
    rw [nonceOf_of hg', ← UInt64.le_iff_toNat_le, ← UInt64.not_lt]
    exact fun hlt => hdropped ⟨txHash, commitBlock_lookup.mpr ⟨⟨acct', hg', hlt⟩, hin, hl⟩⟩

theorem run_reachable {params : GenesisConfig} (hparams : n.engine.params = params)
    (hr : Reachable E params n.engine.state) : Reachable E params (n.run E evs).engine.state := by
  induction evs using List.reverseRecOn with
  | nil => exact hr
  | append_singleton evs ev ih =>
    rw [run, List.foldl_append, List.foldl_cons, List.foldl_nil]
    change Reachable E params ((n.run E evs).next E ev).engine.state
    cases ev with
    | event ord ev =>
      rw [next]
      cases hc : (n.run E evs).engine.commits E ev with
      | none => exact ih
      | some c =>
        obtain ⟨ords, block, happly, -⟩ := commits_applies hc
        rw [run_params, hparams] at happly
        exact ih.apply happly
    | submitTx tx =>
      rw [next]
      cases hadd : (n.run E evs).onSubmitTx E tx with
      | error e => exact ih
      | ok n' =>
        simp only [onSubmitTx, Except.bind_ok_iff, Except.pure_ok_iff] at hadd
        obtain ⟨m, -, rfl⟩ := hadd
        exact ih

/-- **Eviction loses nothing** that could still be applied: while its sender's
nonce has not wrapped, what a commit drops is invalid from then on. What it
keeps has a sender and a nonce that is not used. -/
theorem eviction_loses_nothing {params : GenesisConfig} (hparams : n.engine.params = params)
    (hr : Reachable E params n.engine.state) (hempty : n.mempool.txs = ∅) {e : Event} {c : Block × WorldState}
    (hc : (n.run E evs).engine.commits E e = some c) (hdistinct : HashesDistinct E (n.run E evs).mempool c.1) :
    (∀ tx, (n.run E evs).mempool.IsPending tx → ¬ ((n.run E evs).next E (.event ord e)).mempool.IsPending tx →
      ∀ bs ws', applyBlocks E .go params c.2 bs = .ok ws' →
        (nonceOf (n.run E evs).engine.state tx.sender).toNat +
          sentBy tx.sender (c.1.transactions ++ bs.flatMap (·.2.transactions)) < 2 ^ 64 →
        (validateTransaction E tx ws'.reader params).isOk = false) ∧
    ∀ tx, ((n.run E evs).next E (.event ord e)).mempool.IsPending tx →
      ∃ acct, c.2.getAccount tx.sender = some acct ∧ acct.nonce < tx.nonce := by
  have hstart : n.Waiting E := by
    refine ⟨fun txHash tx hl => ?_, fun tx hp => ?_⟩
    · rw [hempty] at hl
      cases hl
    · obtain ⟨txHash, hl⟩ := hp
      rw [hempty] at hl
      cases hl
  have hw : (n.run E evs).Waiting E := hstart.run
  have hreach : Reachable E params (n.run E evs).engine.state := run_reachable hparams hr
  have hk := hreach.indexed.keyed
  have hnext : (n.run E evs).next E (.event ord e) = (n.run E evs).commitBlock E ord c.1 c.2 := by
    rw [next, hc, Option.elim_some]
  rw [hnext]
  refine ⟨fun tx hp hdropped bs ws' hrun hfew => ?_, fun tx hp => hw.commitBlock.unused tx hp⟩
  rw [sentBy_append] at hfew
  have hused := dropped_used hw hk hc hdistinct hp hdropped (by omega)
  obtain ⟨acct, hg, hlt⟩ := hw.unused tx hp
  have hpos : 0 < tx.nonce.toNat := by
    rw [UInt64.lt_iff_toNat_lt] at hlt
    omega
  -- The sender's nonce after the block counts what the block has of it.
  obtain ⟨log, hcounted, -, hsent⟩ := commits_counted hk hc
  have hnonce := hcounted.toNat (a := tx.sender) (by rw [hsent]; omega)
  refine used_rejected hcounted.keyed hpos hused hrun ?_
  rw [hnonce, hsent]
  omega

end PooledEngine

/-! ## A nonce that comes back -/

theorem Mempool.isPending_iff {m : Mempool} {tx : Transaction} (ord : MapRange Hash Transaction) :
    m.IsPending tx ↔ tx ∈ (ord.list m.txs).map (·.2) := by
  simp [IsPending, MapRange.mem_list]

section

open Sample

/-- Key 3 is the validator of the two accounts' rally. -/
def umpired : GenesisConfig :=
  { accounts := [⟨address 1, 1⟩, ⟨address 2, 0⟩, ⟨address 3, 100⟩], validators := [⟨address 3, (key 3).publicKey, 100⟩] }

def umpiredGenesis : WorldState := (initializeState env umpired).value

def Sample.umpire : PooledEngine where
  engine := { node 3 with params := umpired, genesisValSet := umpired.validators, state := umpiredGenesis }
  mempool := Mempool.empty

/-- The first transfer waits. -/
def Sample.served : List PoolEvent := [.submitTx (transfer 1 2 1)]

/-- The first block. -/
def Sample.firstRally : Event := .propose orders 1 [transfer 1 2 1, transfer 2 1 1] 10 []

def Sample.rallied : Block × WorldState := (((umpire.run env served).engine.commits env firstRally).get!)

theorem Sample.umpire_run : (initializeState env umpired).isOk = true ∧
    (umpire.run env served).engine.commits env firstRally = some rallied ∧
    (byBytes.list (umpire.run env served).mempool.txs).map (·.2) = [transfer 1 2 1] ∧
    (∀ tx ∈ rallied.1.transactions, (transfer 1 2 1).hash env = tx.hash env →
      (transfer 1 2 1).hashBytes = tx.hashBytes) ∧
    (byBytes.list ((umpire.run env served).next env (.event byBytes firstRally)).mempool.txs).map (·.2) = [] ∧
    rallied.1.transactions = [transfer 1 2 1, transfer 2 1 1] ∧
    (nonceOf (umpire.run env served).engine.state (address 1)).toNat = 0 ∧
    rallied.2.getAccount (address 1) = some { address := address 1, balance := 1, nonce := 1 } ∧
    rallied.2.getAccount (address 2) = some { address := address 2, nonce := 1 } ∧
    rallied.2.unbondingQueue = [] := by
  decide +kernel

theorem Sample.umpire_distinct : PooledEngine.HashesDistinct env (umpire.run env served).mempool rallied.1 := by
  intro tx tx' hp htx' hhash
  obtain ⟨-, -, hpool, hdistinct, -⟩ := umpire_run
  rw [Mempool.isPending_iff byBytes, hpool, List.mem_singleton] at hp
  subst hp
  exact hdistinct tx' htx' hhash

theorem Sample.umpire_drops : (umpire.run env served).mempool.IsPending (transfer 1 2 1) ∧
    ¬ ((umpire.run env served).next env (.event byBytes firstRally)).mempool.IsPending (transfer 1 2 1) := by
  obtain ⟨-, -, hpool, -, hafter, -⟩ := umpire_run
  rw [Mempool.isPending_iff byBytes, Mempool.isPending_iff byBytes, hpool, hafter]
  exact ⟨List.mem_singleton.mpr rfl, List.not_mem_nil⟩

/-- The transfer is in the block, and is not valid after it. -/
theorem eviction_loses_nothing_rally :
    (validateTransaction env (transfer 1 2 1) rallied.2.reader umpired).isOk = false := by
  obtain ⟨hok, hc, -, -, -, htxs, hzero, -⟩ := umpire_run
  have hreach : Reachable env umpired umpire.engine.state := ⟨_, [], ∅, Except.ok_value hok, rfl⟩
  have hparams : umpire.engine.params = umpired := rfl
  have hempty : umpire.mempool.txs = ∅ := rfl
  refine (PooledEngine.eviction_loses_nothing hparams hreach hempty hc umpire_distinct).1 _ umpire_drops.1 umpire_drops.2
    [] rallied.2 (Except.foldlM_nil_ok_iff.mpr rfl) ?_
  rw [show (transfer 1 2 1).sender = address 1 from rfl, hzero, htxs]
  exact lt_of_le_of_lt (Nat.add_le_add_left (List.length_filter_le _ _) _) (by decide)

/-- The coin goes to and fro any number of times. -/
theorem rally_on {params : GenesisConfig} {ws : WorldState} {n : UInt64} (h : Rally n ws)
    (hnoReward : params.blockReward = 0) (hnoEpoch : params.epochLength = 0) (m : Nat) :
    ∃ bs ws', applyBlocks env .go params ws bs = .ok ws' ∧ Rally (n + UInt64.ofNat m) ws' := by
  induction m with
  | zero => exact ⟨[], ws, rfl, by simpa using h⟩
  | succ m ih =>
    obtain ⟨bs, w, hrun, hrally⟩ := ih
    obtain ⟨ws', hblock, hrally'⟩ := rally_block hrally hnoReward hnoEpoch
    refine ⟨bs ++ [rallyBlock (n + UInt64.ofNat m + 1)], ws', applyBlocks_append_ok_iff.mpr ⟨w, hrun, hblock⟩, ?_⟩
    rwa [UInt64.ofNat_add, ← UInt64.add_assoc]

/-- After `2 ^ 64` transfers the one that was dropped is valid again. -/
theorem eviction_loses_transfer : initializeState env umpired = .ok umpire.engine.state ∧ umpire.mempool.txs = ∅ ∧
    (umpire.run env served).engine.commits env firstRally = some rallied ∧
    PooledEngine.HashesDistinct env (umpire.run env served).mempool rallied.1 ∧
    (umpire.run env served).mempool.IsPending (transfer 1 2 1) ∧
    ¬ ((umpire.run env served).next env (.event byBytes firstRally)).mempool.IsPending (transfer 1 2 1) ∧
    ∃ bs ws', applyBlocks env .go umpired rallied.2 bs = .ok ws' ∧
      (validateTransaction env (transfer 1 2 1) ws'.reader umpired).isOk = true := by
  obtain ⟨hok, hc, -, -, -, -, -, hfirst, hsecond, hqueue⟩ := umpire_run
  have hrally : Rally 1 rallied.2 := ⟨hfirst, hsecond, hqueue⟩
  obtain ⟨bs, ws', hrun, hback⟩ := @rally_on umpired _ _ hrally rfl rfl (2 ^ 64 - 1)
  have hwrapped : (1 : UInt64) + UInt64.ofNat (2 ^ 64 - 1) = 0 := by decide
  rw [hwrapped] at hback
  refine ⟨Except.ok_value hok, rfl, hc, umpire_distinct, umpire_drops.1, umpire_drops.2, bs, ws', hrun, ?_⟩
  have h₁₂ : address 1 ≠ address 2 := by decide +kernel
  have hz₂ : Address.isZero (address 2) = false := by decide +kernel
  have hvalid := @transfer_valid umpired ws' 1 2 _ hback.first h₁₂ hz₂ (by simp)
  dsimp only at hvalid
  rw [UInt64.zero_add] at hvalid
  rw [hvalid]
  rfl

end

end Drana
