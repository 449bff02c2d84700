/-
A node on a chain (`NewNode`, `Start` and `Stop` of `internal/node/node.go`): it
saves what it commits, starts again where it was, and catches up with others
from wherever that is.
-/
import Drana.Boots
import Drana.Commitment
import Drana.Progress
import Drana.Schedule

namespace Drana

variable {ι : Type} {E : Env} {params : GenesisConfig}

/-! ## A node with its stores -/

/-- The replies of a sync as events: the blocks that were committed, each as it
was received. -/
def syncedEvents : (Nat → Circumstances) → List Pb.FinalizedBlock → List Event
  | _, [] => []
  | met, fb :: fbs =>
    ((P2p.readFinalized fb).toOption.map fun m => .synced (met 0).o (met 0).ord (met 0).now m).toList ++
      syncedEvents (fun i => met (i + 1)) fbs

def repliesEvents (met : Nat → Nat → Circumstances) : Nat → List SyncReply → List Event
  | _, [] => []
  | k, reply :: replies =>
    syncedEvents (met k) (reply.received.take reply.committed.length) ++ repliesEvents met (k + 1) replies

namespace Node

/-- What is committed is saved, the state in the order that is met at its height. -/
def commitAll (E : Env) (saveOrd : UInt64 → RangeOrder) (n : Node) (cs : List (Block × WorldState)) : Node :=
  cs.foldl (fun n c => (n.commitBlock E c.1 c.2 (saveOrd c.1.header.height) .none).1) n

def run (E : Env) (saveOrd : UInt64 → RangeOrder) (n : Node) (evs : List Event) : Node :=
  n.commitAll E saveOrd (n.engine.commitsAlong E evs)

/-- `SyncToNetwork`. -/
def syncToNetwork (E : Env) (saveOrd : UInt64 → RangeOrder) (peers : List SyncPeer) (met : Nat → Nat → Circumstances)
    (n : Node) : Node :=
  n.run E saveOrd (repliesEvents met 0 (n.engine.syncToNetwork E peers met).replies)

/-- `Stop`: the state is saved once more. -/
def stop (ord : RangeOrder) (n : Node) : Node := { n with kv := saveState ord n.engine.state n.kv }

/-- The height of the last block on disk. -/
def diskHeight (n : Node) : UInt64 := n.blockStore.latestHeight.getD 0

end Node

/-! ## What a sync commits -/

section Syncing

variable {e : Engine} {met : Nat → Circumstances}

namespace Node

variable {n : Node} {saveOrd : UInt64 → RangeOrder}

theorem commitAll_engine {cs : List (Block × WorldState)} :
    (n.commitAll E saveOrd cs).engine = cs.foldl (fun e c => e.commitBlock c.1 c.2) n.engine := by
  induction cs generalizing n with
  | nil => rfl
  | cons c cs ih => exact ih

theorem run_engine {evs : List Event} : (n.run E saveOrd evs).engine = n.engine.run E evs :=
  commitAll_engine.trans Engine.run_eq.symm

end Node

/-- The blocks of a reply that were committed, received once more, are committed. -/
theorem syncBlocks_events {fbs : List Pb.FinalizedBlock} :
    (e.commitsAlong E (syncedEvents met (fbs.take (e.syncBlocks E met fbs).2.1.length))).map (·.1) =
        (e.syncBlocks E met fbs).2.1 ∧
      e.run E (syncedEvents met (fbs.take (e.syncBlocks E met fbs).2.1.length)) = (e.syncBlocks E met fbs).1 := by
  induction fbs generalizing e met with
  | nil => exact ⟨rfl, rfl⟩
  | cons fb fbs ih =>
    rw [Engine.syncBlocks]
    split
    · exact ⟨rfl, rfl⟩
    · next c hc =>
      obtain ⟨m, hread, haccept⟩ := Except.bind_ok_iff.mp hc
      have hcommits : e.commits E (.synced (met 0).o (met 0).ord (met 0).now m) = some c := by
        rw [Engine.commits, haccept]
        rfl
      obtain ⟨hmap, hrun⟩ := @ih (e.commitBlock c.1 c.2) fun i => met (i + 1)
      dsimp only
      rw [List.length_cons, List.take_succ_cons, syncedEvents, hread]
      simp only [Except.toOption, Option.map_some, Option.toList_some, List.singleton_append]
      rw [Engine.commitsAlong_some hcommits, List.map_cons, hmap]
      refine ⟨rfl, ?_⟩
      rw [Engine.run, List.foldl_cons, Engine.next_of_commits hcommits]
      exact hrun

theorem syncLoop_events {peer : SyncPeer} {bestHeight : UInt64} {met : Nat → Nat → Circumstances} {fuel k : Nat} :
    (e.commitsAlong E (repliesEvents met k (e.syncLoop E peer bestHeight met fuel k).replies)).map (·.1) =
        (e.syncLoop E peer bestHeight met fuel k).committed ∧
      e.run E (repliesEvents met k (e.syncLoop E peer bestHeight met fuel k).replies) =
        (e.syncLoop E peer bestHeight met fuel k).engine := by
  induction fuel generalizing e k with
  | zero => exact ⟨rfl, rfl⟩
  | succ fuel ih =>
    rw [Engine.syncLoop]
    split
    · split
      · exact ⟨rfl, rfl⟩
      · exact ⟨rfl, rfl⟩
      · next fb fbs hreply =>
        obtain ⟨hmap, hrun⟩ := @syncBlocks_events E e (met k) (fb :: fbs)
        dsimp only
        split
        · simp only [SyncRun.committed, repliesEvents, List.append_nil, List.flatMap_cons, List.flatMap_nil]
          exact ⟨hmap, hrun⟩
        · obtain ⟨hmap', hrun'⟩ := @ih (e.syncBlocks E (met k) (fb :: fbs)).1 (k + 1)
          simp only [SyncRun.committed, repliesEvents, List.flatMap_cons]
          rw [Engine.commitsAlong_append, List.map_append, hmap, hrun, Engine.run, List.foldl_append, ← Engine.run,
            ← Engine.run, hrun]
          exact ⟨congrArg _ hmap', hrun'⟩
    · exact ⟨rfl, rfl⟩

/-- The node's sync is its engine's, saved as it goes. -/
theorem syncToNetwork_events {peers : List SyncPeer} {met : Nat → Nat → Circumstances} :
    (e.commitsAlong E (repliesEvents met 0 (e.syncToNetwork E peers met).replies)).map (·.1) =
        (e.syncToNetwork E peers met).committed ∧
      e.run E (repliesEvents met 0 (e.syncToNetwork E peers met).replies) = (e.syncToNetwork E peers met).engine := by
  rw [Engine.syncToNetwork]
  split
  · exact ⟨rfl, rfl⟩
  · split
    · exact ⟨rfl, rfl⟩
    · exact syncLoop_events

/-- **A node syncs as its engine does**, on disk and off. -/
theorem Node.syncToNetwork_engine {n : Node} {saveOrd : UInt64 → RangeOrder} {peers : List SyncPeer}
    {met : Nat → Nat → Circumstances} :
    (n.syncToNetwork E saveOrd peers met).engine = (n.engine.syncToNetwork E peers met).engine :=
  Node.run_engine.trans syncToNetwork_events.2

end Syncing

/-! ## The peer that is asked -/

section BestPeer

variable {peers : List SyncPeer} {height : UInt64}

/-- One iteration of the loop for the highest peer. -/
def higher (best : Option (SyncPeer × UInt64)) (peer : SyncPeer) : Option (SyncPeer × UInt64) :=
  match peer.latestHeight with
  | some height => if height > best.elim 0 (·.2) then some (peer, height) else best
  | none => best

theorem higher_cases {best : Option (SyncPeer × UInt64)} {peer : SyncPeer} :
    (higher best peer = best ∧ ∀ h ∈ peer.latestHeight, h ≤ best.elim 0 (·.2)) ∨
      ∃ h, peer.latestHeight = some h ∧ best.elim 0 (·.2) < h ∧ higher best peer = some (peer, h) := by
  unfold higher
  split
  · next h heq =>
    split
    · next hlt => exact .inr ⟨h, heq, hlt, rfl⟩
    · next hle =>
      refine .inl ⟨rfl, fun h' hh' => ?_⟩
      rw [heq] at hh'
      cases hh'
      exact UInt64.not_lt.mp hle
  · next heq =>
    refine .inl ⟨rfl, fun h hh => ?_⟩
    rw [heq] at hh
    cases hh

/-- Whoever is chosen is one of the peers, and is as high as it says. -/
theorem bestPeer_mem : ∀ best ∈ bestPeer peers, best.1 ∈ peers ∧ best.1.latestHeight = some best.2 := by
  have hfold : ∀ (ps : List SyncPeer) (best : Option (SyncPeer × UInt64)), (∀ p ∈ ps, p ∈ peers) →
      (∀ b ∈ best, b.1 ∈ peers ∧ b.1.latestHeight = some b.2) →
      ∀ b ∈ ps.foldl higher best, b.1 ∈ peers ∧ b.1.latestHeight = some b.2 := by
    intro ps
    induction ps with
    | nil => exact fun best _ hbest => hbest
    | cons q ps ih =>
      intro best hps hbest
      refine ih _ (fun p hp => hps p (List.mem_cons_of_mem _ hp)) ?_
      rcases @higher_cases best q with ⟨hkept, -⟩ | ⟨h, heq, -, hnew⟩
      · rwa [hkept]
      · rw [hnew]
        rintro b hb
        cases hb
        exact ⟨hps q List.mem_cons_self, heq⟩
  exact hfold peers none (fun p hp => hp) fun b hb => by cases hb

/-- No peer is higher. -/
theorem le_bestPeer {p : SyncPeer} (hp : p ∈ peers) (h : p.latestHeight = some height) :
    height ≤ (bestPeer peers).elim 0 (·.2) := by
  have hgrows : ∀ (ps : List SyncPeer) (best : Option (SyncPeer × UInt64)),
      best.elim 0 (·.2) ≤ (ps.foldl higher best).elim 0 (·.2) ∧
        ∀ p ∈ ps, ∀ h ∈ p.latestHeight, h ≤ (ps.foldl higher best).elim 0 (·.2) := by
    intro ps
    induction ps with
    | nil => exact fun best => ⟨UInt64.le_refl _, fun p hp => by cases hp⟩
    | cons q ps ih =>
      intro best
      obtain ⟨hle, hall⟩ := ih (higher best q)
      have hstep : best.elim 0 (·.2) ≤ (higher best q).elim 0 (·.2) ∧
          ∀ h ∈ q.latestHeight, h ≤ (higher best q).elim 0 (·.2) := by
        rcases @higher_cases best q with ⟨hkept, hlow⟩ | ⟨h, heq, hlt, hnew⟩
        · rw [hkept]
          exact ⟨UInt64.le_refl _, hlow⟩
        · rw [hnew, heq]
          refine ⟨UInt64.le_of_lt hlt, fun h' hh' => ?_⟩
          cases hh'
          exact UInt64.le_refl _
      rw [List.foldl_cons]
      refine ⟨UInt64.le_trans hstep.1 hle, fun p hp h hh => ?_⟩
      rcases List.mem_cons.mp hp with rfl | hp
      · exact UInt64.le_trans (hstep.2 h hh) hle
      · exact hall p hp h hh
  exact (hgrows peers none).2 p hp height h

/-- Where no peer is higher there is nothing to ask for. -/
theorem syncToNetwork_none {e : Engine} {met : Nat → Nat → Circumstances}
    (hall : ∀ p ∈ peers, ∀ h ∈ p.latestHeight, h ≤ e.currentHeight) :
    e.syncToNetwork E peers met = ⟨e, [], .complete⟩ := by
  rw [Engine.syncToNetwork]
  cases hbest : bestPeer peers with
  | none => rfl
  | some best =>
    obtain ⟨hmem, hheight⟩ := bestPeer_mem best hbest
    exact if_pos (hall best.1 hmem best.2 hheight)

end BestPeer

/-! ## One history -/

/-- The engine of a node that stands where this one does. -/
def Engine.seat (cfg : NodeConfig) (e : Engine) : Engine := { e with privKey := cfg.privKey, address := cfg.address }

section History

variable {cfg : NodeConfig} {e e' e'' : Engine} {n : Node} {c : Block × WorldState} {b : Block}
  {bs bs' chain : List Block}
  {ws ws' : WorldState}

/-- Indexed states of one root and one slashing record are one state. -/
theorem SameRooted.eq_of_indexed (h : SameRooted ws ws') (hi : Indexed ws) (hi' : Indexed ws')
    (hslash : ws'.slashRecord = ws.slashRecord) : ws' = ws := by
  have hnames : ws'.nameIndex = ws.nameIndex := by
    refine @Twin.ofAccounts_nameIndex ws ws' true hi hi' fun a => ?_
    rw [WorldState.getAccount_congr h.accounts]
    exact Twin.optionRel_refl (fun acct => .refl) _
  obtain ⟨haccounts, hposts, hstakes, hvalidators, hqueue, hepoch, hburned, hissued, hheight⟩ := h
  cases ws
  cases ws'
  simp only at haccounts hnames hslash hposts hstakes hvalidators hqueue hburned hissued hheight hepoch
  simp only [haccounts, hnames, hslash, hposts, hstakes, hvalidators, hqueue, hburned, hissued, hheight, hepoch]

theorem Twin.eq_of_indexed (h : Twin true {x | x ∉ (∅ : Finset (Address × UInt64))} ws ws') (hi : Indexed ws)
    (hi' : Indexed ws') :
    ws' = ws := by
  have hrooted : SameRooted ws ws' := ⟨h.accounts_eq, h.posts, h.postStakes, h.activeValidators, h.unbondingQueue,
    h.currentEpoch, h.burnedSupply, h.issuedSupply, h.chainHeight⟩
  exact hrooted.eq_of_indexed hi hi' (Finset.ext fun x => h.slashRecord x (Finset.notMem_empty x))

theorem applyBlock_indexed {ord : Nat → RangeOrder} (hi : Indexed ws) (hs : ShortNames ws)
    (h : applyBlock E .go params ord ws b = .ok ws') : Indexed ws' ∧ ShortNames ws' :=
  keeps_shortNames.invariant_block ⟨hi, hs⟩ h

/-- A block leads from one state to one state, in whatever order maps are ranged over. -/
theorem applyBlock_any {ord : Nat → RangeOrder} (hi : Indexed ws) (hs : ShortNames ws)
    (h : applyBlock E .go params ord ws b = .ok ws') (ord' : Nat → RangeOrder) :
    applyBlock E .go params ord' ws b = .ok ws' := by
  obtain ⟨ws₂, h₂, htwin⟩ := (applyBlock_ordered hi.keyed ord ord' b).ok_left h
  rw [h₂, htwin.eq_of_indexed (applyBlock_indexed hi hs h).1 (applyBlock_indexed hi hs h₂).1]

/-- What a restart needs of a block: it takes no stake back for good, and what
it brings can be stored. -/
structure Storable (e : Engine) (c : Block × WorldState) : Prop where
  stakes : ∀ p a, (e.state.getPostStake p a).isSome → (c.2.getPostStake p a).isSome
  counts : CountsFit c.2
  texts : ∀ tx ∈ c.1.transactions, ValidTexts tx

/-- A block that a node accepts when it is finalized, and that can be stored. -/
structure Fits (E : Env) (e : Engine) (c : Block × WorldState) : Prop where
  accepted : ∃ o ord, e.acceptFinalized E o ord c.1.header.timestamp c.1.finalized = .ok (some c)
  storable : Storable e c

/-- Blocks that fit, one after the other. -/
inductive Grown (E : Env) : Engine → List Block → Engine → Prop
  | nil {e : Engine} : Grown E e [] e
  | cons {e e' : Engine} {c : Block × WorldState} {bs : List Block} : Fits E e c → Grown E (e.commitBlock c.1 c.2) bs e' →
    Grown E e (c.1 :: bs) e'

theorem Grown.append (h : Grown E e bs e') (h' : Grown E e' bs' e'') : Grown E e (bs ++ bs') e'' := by
  induction h with
  | nil => exact h'
  | cons hfits _ ih => exact .cons hfits (ih h')

theorem Grown.snoc (h : Grown E e bs e') (hfits : Fits E e' c) : Grown E e (bs ++ [c.1]) (e'.commitBlock c.1 c.2) :=
  h.append (.cons hfits .nil)

theorem Fits.commits (h : Fits E e c) : ∃ o ord, e.commits E (.finalized o ord c.1.header.timestamp c.1.finalized) =
      some c := by
  obtain ⟨o, ord, haccept⟩ := h.accepted
  refine ⟨o, ord, ?_⟩
  rw [Engine.commits, haccept]
  rfl

theorem Fits.applies (h : Fits E e c) : ∃ ord, applyBlock E .go e.params ord e.state c.1 = .ok c.2 := by
  obtain ⟨o, ord, haccept⟩ := h.accepted
  obtain ⟨qc, -, hblock, -, -, happly⟩ := acceptFinalized_ok haccept
  refine ⟨ord, ?_⟩
  rw [hblock]
  exact happly

theorem Fits.evidence (h : Fits E e c) : c.1.evidence = [] := by
  obtain ⟨o, ord, haccept⟩ := h.accepted
  obtain ⟨qc, -, hblock, -⟩ := acceptFinalized_ok haccept
  rw [hblock]
  rfl

/-- Later than the last block. -/
theorem Fits.later (h : Fits E e c) : ∀ last ∈ e.lastBlock, last.header.timestamp < c.1.header.timestamp := by
  obtain ⟨o, ord, haccept⟩ := h.accepted
  obtain ⟨qc, -, hblock, -, hvalid, -⟩ := acceptFinalized_ok haccept
  intro last hlast
  have hafter := (validateBlock_time hvalid).1
  rw [Option.mem_def.mp hlast] at hafter
  rw [hblock]
  exact Int64.not_le.mp (Except.throwIf_ok_iff.mp hafter)

theorem Grown.lastBlock (h : Grown E e bs e') : e'.lastBlock = bs.getLast?.or e.lastBlock := by
  induction h with
  | nil => rfl
  | @cons e e' c bs hfits hrest ih =>
    rw [ih]
    cases bs with
    | nil => rfl
    | cons b bs => rw [List.getLast?_cons_cons, List.getLast?_eq_some_getLast (List.cons_ne_nil b bs)]; rfl

/-- No block is later than the last. -/
theorem Grown.times (h : Grown E e bs e') :
    ∀ b ∈ e.lastBlock.toList ++ bs, ∀ last ∈ e'.lastBlock, b.header.timestamp ≤ last.header.timestamp := by
  induction h with
  | @nil e =>
    intro b hb last hlast
    rw [List.append_nil, Option.mem_toList] at hb
    cases hb.symm.trans hlast
    exact Int64.le_refl _
  | @cons e e' c bs hfits hrest ih =>
    intro b hb last hlast
    rcases List.mem_append.mp hb with hb | hb
    · have hlt := hfits.later b (Option.mem_toList.mp hb)
      exact Int64.le_trans (Int64.le_of_lt hlt) (ih c.1 List.mem_cons_self last hlast)
    · exact ih b hb last hlast

theorem Grown.built {early : Int64 → Prop} (h : Grown E e bs e') (hearly : ∀ b ∈ bs, early b.header.timestamp) :
    Built E early e bs e' := by
  induction h with
  | nil => exact .nil
  | @cons e e' c bs hfits hrest ih =>
    obtain ⟨o, ord, haccept⟩ := hfits.accepted
    exact .cons (hearly c.1 List.mem_cons_self) haccept (ih fun b hb => hearly b (List.mem_cons_of_mem _ hb))

/-- What holds of the engines of a history. -/
structure Sound (params : GenesisConfig) (e : Engine) : Prop where
  config : e.params = params
  genesisValSet : e.genesisValSet = params.validators
  current : e.Current
  indexed : Indexed e.state
  short : ShortNames e.state
  slashRecord : e.state.slashRecord = ∅
  counts : CountsFit e.state
  chainHeight : e.state.chainHeight = e.currentHeight

theorem applyBlock_unslashed {ord : Nat → RangeOrder} (h : applyBlock E .go params ord ws b = .ok ws')
    (hb : b.evidence = []) :
    ws'.slashRecord = ws.slashRecord := by
  obtain ⟨w₁, w₂, -, h₁, hevidence, h₂⟩ := applyBlock_slashRecord h
  rw [hb] at hevidence
  obtain rfl : w₁ = w₂ := Except.ok.inj hevidence
  rw [h₂, h₁]

theorem Sound.commit (h : Sound params e) (hfits : Fits E e c) : Sound params (e.commitBlock c.1 c.2) := by
  obtain ⟨ord, happly⟩ := hfits.applies
  obtain ⟨hindexed, hshort⟩ := applyBlock_indexed h.indexed h.short happly
  obtain ⟨o, ord', hcommits⟩ := hfits.commits
  obtain ⟨hfollows, -⟩ := commits_finalized hcommits
  exact ⟨h.config, h.genesisValSet, rfl, hindexed, hshort,
    (applyBlock_unslashed happly hfits.evidence).trans h.slashRecord,
    hfits.storable.counts, hfollows.chainHeight⟩

theorem Grown.sound (h : Grown E e bs e') (hs : Sound params e) : Sound params e' := by
  induction h with
  | nil => exact hs
  | cons hfits _ ih => exact ih (hs.commit hfits)

end History

/-! ## A node on the chain -/

section Up

variable {cfg : NodeConfig} {e e' : Engine} {n : Node} {c : Block × WorldState} {b : Block} {bs chain : List Block}
  {ws ws₀ : WorldState} {kv : KVStore} {ord : RangeOrder}

/-- A node that stands where `e` does, after a chain, and has all of it on disk. -/
structure Up (E : Env) (params : GenesisConfig) (cfg : NodeConfig) (e : Engine) (n : Node) (chain : List Block) :
    Prop where
  engine : n.engine = e.seat cfg
  stored : Stored E n chain
  saved : Saved params e.state n.kv
  accounts : AccountsStored n.kv e.state
  loads : ∀ ws, loadState n.kv = .ok ws → Indexed ws

theorem Tracks.seat (h : Sound params e) : Tracks e (e.seat cfg) := ⟨rfl, rfl, .refl, h.indexed.keyed, rfl, rfl⟩

theorem Stored.commit (h : Stored E n chain) (hheight : b.header.height.toNat = n.engine.currentHeight.toNat + 1)
    (htexts : ∀ tx ∈ b.transactions, ValidTexts tx) : Stored E (n.commitBlock E b ws ord .none).1 (chain ++ [b]) := by
  refine ⟨rfl, h.indexes.saveBlock ?_, ?_, ?_, fun b' hb => ?_⟩
  · rw [h.chainHeight, UInt64.lt_iff_toNat_lt]
    omega
  · rw [List.map_append, h.heights, List.length_append, List.length_singleton, List.range'_concat, Nat.one_mul,
      List.map_singleton, hheight, h.height, Nat.add_comm]
  · rw [List.length_append, List.length_singleton, ← h.height]
    exact hheight
  · rcases List.mem_append.mp hb with hb | hb
    · exact h.texts b' hb
    · rw [List.mem_singleton.mp hb]
      exact htexts

/-- The height of a block that fits. -/
theorem Fits.height (h : Fits E e c) (hcur : e.Current) : c.1.header.height.toNat = e.currentHeight.toNat + 1 := by
  obtain ⟨o, ord, hcommits⟩ := h.commits
  obtain ⟨-, hheight, hle⟩ := commits_finalized hcommits
  rw [hcur.nextHeight] at hheight
  exact next_height hheight hle

/-- A node that executes the next block is where the history goes on, in
whatever orders it ranges over its maps. -/
theorem Up.commit (h : Up E params cfg e n chain) (hs : Sound params e) (hfits : Fits E e c) {ord : Nat → RangeOrder}
    (happly : applyBlock E .go n.engine.params ord n.engine.state c.1 = .ok ws) (saveOrd : RangeOrder) :
    Up E params cfg (e.commitBlock c.1 c.2) (n.commitBlock E c.1 ws saveOrd .none).1 (chain ++ [c.1]) := by
  rw [h.engine] at happly
  obtain ⟨ord', hleads⟩ := hfits.applies
  have hsame := applyBlock_any hs.indexed hs.short hleads ord
  obtain rfl : ws = c.2 := Except.ok.inj (happly.symm.trans hsame)
  obtain ⟨hindexed, hshort⟩ := applyBlock_indexed hs.indexed hs.short hleads
  have hgrow : AccountsStored n.kv c.2 := by
    intro k v hpre hl
    obtain ⟨a, rfl, ha⟩ := h.accounts k v hpre hl
    exact ⟨a, rfl, (applyBlock_writes hleads).accounts_grow a ha⟩
  rw [hs.config] at hleads
  have hstay : StakesStay E params e.state ⟨ord', c.1, saveOrd⟩ :=
    (StakesStay.iff hs.indexed.keyed hleads).mpr hfits.storable.stakes
  have hbooted : Booted (c.2, n.kv) := ⟨hindexed, hshort, hgrow⟩
  refine ⟨?_, h.stored.commit ?_ hfits.storable.texts, h.saved.block hstay hleads, hbooted.saved, fun w hw => ?_⟩
  · show n.engine.commitBlock c.1 c.2 = _
    rw [h.engine]
    rfl
  · rw [h.engine]
    exact hfits.height hs.current
  · exact (loadState_accounts hindexed hshort hgrow hw).2

/-- Blocks executed one after the other. -/
def Executed (E : Env) : Engine → List (Block × WorldState) → Prop
  | _, [] => True
  | e, c :: cs => (∃ ord, applyBlock E .go e.params ord e.state c.1 = .ok c.2) ∧ Executed E (e.commitBlock c.1 c.2) cs

theorem commits_executed {ev : Event} (h : e.commits E ev = some c) :
    ∃ ord, applyBlock E .go e.params ord e.state c.1 = .ok c.2 := by
  cases ev with
  | propose o height txs timestamp replies =>
    simp only [Engine.commits] at h
    split at h
    · next block newState hassemble =>
      obtain ⟨-, happly⟩ := Engine.assembleBlock_ok hassemble
      obtain ⟨-, rfl⟩ := certifyProposal_ok_iff.mp (Except.toOption_eq_some_iff.mp h)
      exact ⟨o.block, happly⟩
    · cases h
  | proposal o now block => cases h
  | finalized o ord now fb =>
    simp only [Engine.commits, Option.join_eq_some_iff, Except.toOption_eq_some_iff] at h
    obtain ⟨qc, -, hblock, -, -, happly⟩ := acceptFinalized_ok h
    refine ⟨ord, ?_⟩
    rw [hblock]
    exact happly
  | synced o ord now fb =>
    simp only [Engine.commits, Except.toOption_eq_some_iff] at h
    exact ⟨ord, (acceptSynced_ok h).2.2.2⟩

theorem commitsAlong_executed {evs : List Event} : Executed E e (e.commitsAlong E evs) := by
  induction evs generalizing e with
  | nil => trivial
  | cons ev evs ih =>
    cases h : e.commits E ev with
    | none =>
      rw [Engine.commitsAlong_none h]
      exact ih
    | some c =>
      rw [Engine.commitsAlong_some h]
      exact ⟨commits_executed h, ih⟩

/-- A node that commits the blocks of a history is where the history ends. -/
theorem Up.commitAll {saveOrd : UInt64 → RangeOrder} {cs : List (Block × WorldState)} (h : Up E params cfg e n chain)
    (hs : Sound params e) (hg : Grown E e bs e') (hcs : cs.map (·.1) = bs) (hex : Executed E n.engine cs) :
    Up E params cfg e' (n.commitAll E saveOrd cs) (chain ++ bs) := by
  induction hg generalizing n chain cs with
  | nil =>
    obtain rfl := List.map_eq_nil_iff.mp hcs
    rw [List.append_nil]
    exact h
  | @cons e e' c bs hfits hrest ih =>
    obtain ⟨c', cs, rfl, hc, hcs⟩ := List.map_eq_cons_iff.mp hcs
    obtain ⟨⟨ord, happly⟩, hex⟩ := hex
    rw [hc] at happly
    have hnext := h.commit hs hfits happly (saveOrd c.1.header.height)
    have hrun := ih hnext (hs.commit hfits) hcs (by rw [← hc]; exact hex)
    rw [List.append_assoc] at hrun
    rw [← hc] at hrun ⊢
    exact hrun

theorem Up.run {saveOrd : UInt64 → RangeOrder} {evs : List Event} (h : Up E params cfg e n chain) (hs : Sound params e)
    (hg : Grown E e bs e') (hcommits : (n.engine.commitsAlong E evs).map (·.1) = bs) :
    Up E params cfg e' (n.run E saveOrd evs) (chain ++ bs) :=
  h.commitAll hs hg hcommits commitsAlong_executed

/-- Saving again changes nothing. -/
theorem Saved.again (h : Saved params ws kv) : Saved params ws (saveState ord ws kv) := by
  refine ⟨h.keyed, h.spelled, ?_⟩
  have hholds : Holds (saveState ord ws kv) (withOldStakes ws ws) :=
    saveState_holds h.keyed (fun _ ha => ha) (fun _ hp => hp) h.holds
  rwa [withOldStakes_eq fun _ _ hs => hs] at hholds

theorem Up.stop (h : Up E params cfg e n chain) (hs : Sound params e) : Up E params cfg e (n.stop ord) chain := by
  have hstate : n.engine.state = e.state := by rw [h.engine]; rfl
  have hbooted : Booted (e.state, n.kv) := ⟨hs.indexed, hs.short, h.accounts⟩
  refine ⟨h.engine, ⟨h.stored.current, h.stored.indexes, h.stored.heights, h.stored.height, h.stored.texts⟩, ?_, ?_,
    fun w hw => ?_⟩
  · simp only [Node.stop, hstate]
    exact h.saved.again
  · simp only [Node.stop, hstate]
    exact hbooted.saved
  · simp only [Node.stop, hstate] at hw
    exact (loadState_accounts hs.indexed hs.short h.accounts hw).2


/-! ## Starting -/

/-- Nobody has been slashed at genesis. -/
theorem initializeState_slashRecord (h : initializeState E params = .ok ws) : ws.slashRecord = ∅ := by
  have haccounts : ∀ {as : List GenesisAccount} {i : Nat} {total : UInt64} {w w' : WorldState},
      initAccounts E i total w as = .ok w' → w'.slashRecord = w.slashRecord := by
    intro as
    induction as with
    | nil =>
      intro i total w w' hw
      cases hw
      rfl
    | cons g as ih =>
      intro i total w w' hw
      simp only [initAccounts, Except.bind_ok_iff] at hw
      obtain ⟨-, -, -, -, hw⟩ := hw
      have hrest := ih hw
      exact hrest
  have hvalidator : ∀ {w w' : WorldState} {v : GenesisValidator}, initValidator w v = .ok w' →
      w'.slashRecord = w.slashRecord := by
    intro w w' v hw
    unfold initValidator at hw
    split at hw
    · simp only [Except.bind_ok_iff, Except.pure_ok_iff] at hw
      obtain ⟨-, -, rfl⟩ := hw
      rfl
    · cases hw
      rfl
  simp only [initializeState, Except.bind_ok_iff, Except.pure_ok_iff] at h
  obtain ⟨w₁, h₁, w₂, h₂, rfl⟩ := h
  exact Except.foldlM_inv (fun w => w.slashRecord = ∅) (fun v _ w w' hw hs => (hvalidator hs).trans hw) (haccounts h₁) h₂

/-- Nothing is on disk. -/
structure Blank (n : Node) : Prop where
  blockStore : n.blockStore = {}
  kv : n.kv = ∅

theorem AtGenesis.sound (h₀ : AtGenesis E params e) (hcounts : CountsFit e.state) : Sound params e := by
  refine ⟨h₀.config, h₀.genesisValSet, h₀.current, initializeState_indexed h₀.state,
    initializeState_namesSatisfy h₀.state, ?_,
    hcounts, ?_⟩
  · exact initializeState_slashRecord h₀.state
  · rw [initializeState_chainHeight h₀.state, h₀.currentHeight]

theorem newEngine_seat {last : Option Block} (hs : Sound params e) (hconfig : cfg.genesis = params)
    (hlast : last = e.lastBlock) :
    newEngine cfg e.state last = e.seat cfg := by
  have hheight : last.elim e.state.chainHeight (·.header.height) = e.currentHeight := by
    have hcur : e.currentHeight = e.lastBlock.elim 0 (·.header.height) := hs.current
    subst hlast
    cases h : e.lastBlock with
    | none => exact hs.chainHeight
    | some last =>
      rw [h] at hcur
      exact hcur.symm
  subst hconfig
  rw [newEngine, hheight, hlast, Engine.seat, ← hs.config]
  cases e
  have hvalidators := hs.genesisValSet
  have hparams := hs.config
  simp only at hvalidators hparams ⊢
  rw [hvalidators, hparams]

theorem loadState_empty : loadState ∅ = .ok {} := by
  have hitems : ∀ pre, itemsOf ∅ pre = [] := fun _ => rfl
  simp only [loadState, hitems]
  rfl

/-- A node starts where its key is a genesis validator's. -/
theorem newNode_ok_iff {bst : BlockStore} (hvalidator : cfg.IsValidator) :
    newNode E cfg ord bst kv = .ok n ↔ ∃ r, loadOrInitialize E cfg ord kv = .ok r ∧
      n = ⟨newEngine cfg r.1 (if r.1.chainHeight > 0 then (bst.getBlockByHeight r.1.chainHeight).toOption else none), bst,
        r.2⟩ := by
  rw [newNode, Except.throwIf_of_not (not_not_intro hvalidator), Except.ok_bind, Except.bind_ok_iff]
  exact exists_congr fun r => and_congr_right fun _ => by rw [Except.pure_ok_iff, eq_comm]

/-- The genesis state is initialized, and saved over what is there. -/
theorem loadOrInitialize_fresh (hload : loadState kv = .ok ws) (hzero : ws.chainHeight = 0)
    (hnone : (ws.allAccounts ord).length = 0) (hinit : initializeState E cfg.genesis = .ok ws₀) :
    loadOrInitialize E cfg ord kv = .ok (ws₀, saveState ord ws₀ kv) := by
  simp only [loadOrInitialize, Except.bind_ok_iff, Except.wrapErr_ok_iff]
  refine ⟨ws, hload, ?_⟩
  rw [if_pos ⟨hzero, hnone⟩]
  simp only [Except.bind_ok_iff, Except.wrapErr_ok_iff, Except.pure_ok_iff]
  exact ⟨ws₀, hinit, rfl⟩

/-- A node starts for the first time. -/
theorem Blank.newNode (hb : Blank n) (h₀ : AtGenesis E params e) (hconfig : cfg.genesis = params)
    (hvalidator : cfg.IsValidator)
    (hcounts : CountsFit e.state) (ord : RangeOrder) :
    ∃ n', Drana.newNode E cfg ord n.blockStore n.kv = .ok n' ∧ Up E params cfg e n' [] := by
  have hs := h₀.sound hcounts
  have hbooted : Booted (e.state, ∅) := ⟨hs.indexed, hs.short, fun k v _ hl => by cases hl⟩
  have hnone : (({} : WorldState).allAccounts ord).length = 0 := by
    refine List.length_eq_zero_iff.mpr (List.eq_nil_iff_forall_not_mem.mpr fun acct hacct => ?_)
    obtain ⟨x, hx, -⟩ := List.mem_map.mp hacct
    cases MapRange.mem_list.mp hx
  have hzero : ¬ e.state.chainHeight > 0 := by
    rw [hs.chainHeight, h₀.currentHeight]
    exact UInt64.lt_irrefl 0
  have hinit : initializeState E cfg.genesis = .ok e.state := by
    rw [hconfig]
    exact h₀.state
  refine ⟨⟨newEngine cfg e.state none, {}, saveState ord e.state ∅⟩, (newNode_ok_iff hvalidator).mpr ?_, ?_⟩
  · rw [hb.blockStore, hb.kv]
    exact ⟨_, loadOrInitialize_fresh loadState_empty rfl hnone hinit, by rw [if_neg hzero]⟩
  · have hengine := newEngine_seat hs hconfig h₀.lastBlock.symm
    refine ⟨hengine, ⟨?_, .empty, rfl, ?_, fun b hb => by cases hb⟩, saved_genesis h₀.state, hbooted.saved,
      fun w hw => ?_⟩
    · rw [hengine]
      exact hs.current
    · rw [hengine]
      show e.currentHeight.toNat = 0
      rw [h₀.currentHeight]
      rfl
    · exact (loadState_accounts hs.indexed hs.short hbooted.stored hw).2

/-- **A restart leads back to where the node was.** -/
theorem Up.newNode {e₀ : Engine} (h : Up E params cfg e n chain) (hs : Sound params e) (h₀ : AtGenesis E params e₀)
    (hg : Grown E e₀ chain e) (hconfig : cfg.genesis = params) (hvalidator : cfg.IsValidator)
    (hbytes : params.maxPostBytes.toInt < 2 ^ 32) (ord : RangeOrder) :
    ∃ n', Drana.newNode E cfg ord n.blockStore n.kv = .ok n' ∧ Up E params cfg e n' chain := by
  obtain ⟨loaded, hload, hsame⟩ := loadState_holds hs.indexed.keyed
    (h.saved.spelled.encodable hbytes hs.counts) h.saved.holds
  obtain rfl : loaded = e.state := hsame.eq_of_indexed hs.indexed (h.loads loaded hload)
    ((loadState_slashRecord hload).trans hs.slashRecord.symm)
  have hheight : chainHeight chain = e.state.chainHeight := by
    rw [h.stored.chainHeight, h.engine, hs.chainHeight]
    rfl
  have hlast : (if e.state.chainHeight > 0 then (n.blockStore.getBlockByHeight e.state.chainHeight).toOption else none) =
      e.lastBlock := by
    rw [hg.lastBlock, h₀.lastBlock, Option.or_none, ← hheight]
    cases hc : chain.getLast? with
    | none =>
      rw [List.getLast?_eq_none_iff.mp hc]
      rfl
    | some last =>
      have hpos : 0 < last.header.height := by
        have hmem : last.header.height.toNat ∈ chain.map (·.header.height.toNat) :=
          List.mem_map_of_mem (List.mem_of_getLast? hc)
        rw [h.stored.heights, List.mem_range'_1] at hmem
        rw [UInt64.lt_iff_toNat_lt]
        exact hmem.1
      have hat : chainHeight chain = last.header.height := by
        rw [chainHeight, hc]
        rfl
      rw [hat, if_pos hpos, h.stored.indexes.getLast_ok hc]
      rfl
  have hengine := newEngine_seat hs hconfig hlast
  have hstored : ∀ kv, Stored E ⟨e.seat cfg, n.blockStore, kv⟩ chain := by
    intro kv
    have hstored := h.stored
    exact ⟨hs.current, hstored.indexes, hstored.heights, h.engine ▸ hstored.height, hstored.texts⟩
  by_cases hfresh : e.state.chainHeight = 0 ∧ (e.state.allAccounts ord).length = 0
  · -- A genesis without accounts is initialized again.
    have hnil : chain = [] := by
      rw [← List.length_eq_zero_iff, ← h.stored.height, h.engine]
      show e.currentHeight.toNat = 0
      rw [← hs.chainHeight, hfresh.1]
      rfl
    subst hnil
    cases hg
    have hinit : initializeState E cfg.genesis = .ok e.state := by
      rw [hconfig]
      exact h₀.state
    have hbooted : Booted (e.state, n.kv) := ⟨hs.indexed, hs.short, h.accounts⟩
    have hloaded : loadOrInitialize E cfg ord n.kv = .ok (e.state, saveState ord e.state n.kv) :=
      loadOrInitialize_fresh hload hfresh.1 hfresh.2 hinit
    exact ⟨⟨e.seat cfg, n.blockStore, saveState ord e.state n.kv⟩,
      (newNode_ok_iff hvalidator).mpr ⟨_, hloaded, by rw [hengine]⟩, rfl,
      hstored _, h.saved.again, hbooted.saved, fun w hw => (loadState_accounts hs.indexed hs.short h.accounts hw).2⟩
  · have hloaded : loadOrInitialize E cfg ord n.kv = .ok (e.state, n.kv) := by
      simp only [loadOrInitialize, Except.bind_ok_iff, Except.wrapErr_ok_iff]
      refine ⟨e.state, hload, ?_⟩
      rw [if_neg hfresh]
      rfl
    exact ⟨⟨e.seat cfg, n.blockStore, n.kv⟩, (newNode_ok_iff hvalidator).mpr ⟨_, hloaded, by rw [hengine]⟩, rfl,
      hstored _, h.saved,
      h.accounts, h.loads⟩

end Up

/-! ## Syncing, and a round -/

section Moves

variable {cfg : NodeConfig} {e e' e₀ : Engine} {n : Node} {bs bs' chain : List Block}

/-- The height of a node on the chain. -/
theorem Up.height (h : Up E params cfg e n chain) : n.engine.currentHeight = e.currentHeight ∧
    e.currentHeight.toNat = chain.length := by
  have hheight := h.stored.height
  rw [h.engine] at hheight ⊢
  exact ⟨rfl, hheight⟩

/-- A peer that is as high as the history goes, or does not answer. -/
def AnswersFor (E : Env) (params : GenesisConfig) (e' : Engine) (chain : List Block) (p : SyncPeer) : Prop :=
  p.latestHeight = none ∨ ∃ cfg' n', p = responder n' ∧ Up E params cfg' e' n' chain

/-- What is asked of a node does not depend on whose it is. -/
theorem Up.responder_eq (h : Up E params cfg e n chain) : responder n = responder ⟨e, n.blockStore, n.kv⟩ := by
  cases n
  obtain rfl := h.engine
  rfl

theorem Up.syncLoop {cfg' : NodeConfig} {n' : Node} {met : Nat → Nat → Circumstances} (h : Up E params cfg e n bs)
    (hs : Sound params e) (hg : Grown E e bs' e') (hup : Up E params cfg' e' n' (bs ++ bs'))
    (hearly : ∀ b ∈ bs', ∀ k i, b.header.timestamp ≤ (met k i).now) (hsane : ∀ k i, Sane (met k i).now) :
    (n.engine.syncLoop E (responder n') e'.currentHeight met
      (e'.currentHeight.toNat - n.engine.currentHeight.toNat) 0).committed = bs' := by
  obtain ⟨hheight, hlen⟩ := h.height
  have hlen' := hup.height.2
  have hstored : Stored E ⟨e', n'.blockStore, n'.kv⟩ (bs ++ bs') := by
    have hstored := hup.stored
    refine ⟨(hg.sound hs).current, hstored.indexes, hstored.heights, hlen', hstored.texts⟩
  have htracks : Tracks e n.engine := by
    rw [h.engine]
    exact .seat hs
  have hbuilt : Built E (fun now => ∀ k i, now ≤ (met k i).now) e ((bs ++ bs').drop bs.length) e' := by
    rw [List.drop_left]
    exact hg.built hearly
  have hfuel : (bs ++ bs').length - bs.length ≤ e'.currentHeight.toNat - n.engine.currentHeight.toNat := by
    rw [hheight, hlen, hlen']
  have hloop := htracks.syncLoop (j := 0) hstored (by rw [List.length_append]; omega) hbuilt hs.current hlen
    (fun _ h => h) hsane hfuel
  rw [List.drop_left] at hloop
  rw [hup.responder_eq]
  exact hloop.2.1

/-- **A node that is behind catches up**, if a peer that answers is ahead. -/
theorem Up.sync {peers : List SyncPeer} {met : Nat → Nat → Circumstances} (h : Up E params cfg e n bs)
    (hs : Sound params e)
    (hg : Grown E e bs' e') (hpeers : ∀ p ∈ peers, AnswersFor E params e' (bs ++ bs') p)
    (hsome : bs' = [] ∨ ∃ p ∈ peers, p.latestHeight.isSome)
    (hearly : ∀ b ∈ bs', ∀ k i, b.header.timestamp ≤ (met k i).now) (hsane : ∀ k i, Sane (met k i).now)
    (saveOrd : UInt64 → RangeOrder) : Up E params cfg e' (n.syncToNetwork E saveOrd peers met) (bs ++ bs') := by
  refine h.run hs hg ?_
  rw [syncToNetwork_events.1]
  obtain ⟨hheight, hlen⟩ := h.height
  -- Who answers says the height of the whole chain.
  have hsaid : ∀ p ∈ peers, ∀ height ∈ p.latestHeight, height = e'.currentHeight ∧
      ∃ cfg' n', p = responder n' ∧ Up E params cfg' e' n' (bs ++ bs') := by
    intro p hp height hheight'
    rcases hpeers p hp with hnone | ⟨cfg', n', rfl, hup⟩
    · rw [hnone] at hheight'
      cases hheight'
    · cases hheight'
      exact ⟨hup.height.1, cfg', n', rfl, hup⟩
  by_cases hnil : bs' = []
  · subst hnil
    cases hg
    rw [syncToNetwork_none fun p hp height hheight' => ?_]
    · rfl
    · rw [(hsaid p hp height hheight').1, hheight]
      exact UInt64.le_refl _
  · obtain ⟨p, hp, hanswers⟩ := hsome.resolve_left hnil
    obtain ⟨height, hpheight⟩ := Option.isSome_iff_exists.mp hanswers
    obtain ⟨rfl, cfg', n', -, hup⟩ := hsaid p hp height hpheight
    have hlt : n.engine.currentHeight < e'.currentHeight := by
      have hpos := List.length_pos_iff.mpr hnil
      rw [hheight, UInt64.lt_iff_toNat_lt, hlen, hup.height.2, List.length_append]
      omega
    cases hbest : bestPeer peers with
    | none =>
      have hle := le_bestPeer hp hpheight
      rw [hbest] at hle
      exact absurd (UInt64.lt_of_lt_of_le hlt hle) (UInt64.not_lt.mpr UInt64.zero_le)
    | some best =>
      obtain ⟨hmem, hbheight⟩ := bestPeer_mem best hbest
      obtain ⟨hsame, cfg'', n'', hresponder, hup'⟩ := hsaid best.1 hmem best.2 hbheight
      rw [Engine.syncToNetwork, hbest]
      dsimp only
      rw [hsame, if_neg (UInt64.not_le.mpr hlt), hresponder]
      exact h.syncLoop hs hg hup' hearly hsane

/-- The key a node is configured with is its own. -/
structure NodeConfig.HoldsKey (E : Env) (cfg : NodeConfig) : Prop where
  address : addressFromPublicKey E cfg.privKey.publicKey = cfg.address
  verifies : ∀ message, verify E cfg.privKey.publicKey message (sign E cfg.privKey message) = true

theorem onTime_self {t : Int64} (h : Sane t) : OnTime t t := by
  refine ⟨?_, h⟩
  rw [Int64.le_iff_toInt_le, drift_toInt h]
  omega

end Moves

end Drana
