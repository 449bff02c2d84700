/-
The indexer's follower among nodes that come and go (`Follower.poll` of
`internal/indexer/follower.go`, and the handlers of `internal/rpc/server.go` that
it asks). Every request of a poll may find another node, or none, and blocks are
made meanwhile: each block of the one chain is indexed once, in its turn.
-/
import Drana.Fleet
import Drana.IndexRuns

namespace Drana

open Except (orThrow wrapErr)

variable {ι : Type} {E : Env} {params : GenesisConfig} {f : Follower}

/-! ## What a node answers -/

structure NodeInfoResponse where
  latestHeight : UInt64
  latestHash : String
  blockReward : UInt64
  burnedSupply : UInt64
  issuedSupply : UInt64
  validatorCount : Nat
  currentEpoch : UInt64
  epochLength : UInt64
  blocksUntilNextEpoch : UInt64
deriving DecidableEq

def handleGetNodeInfo (E : Env) (n : Node) : NodeInfoResponse :=
  let ws := n.engine.state
  let height := n.engine.currentHeight
  let epochLen := n.engine.params.epochLength
  { latestHeight := height
    latestHash := n.blockStore.getLatestBlock.toOption.elim "" fun b => hexEncode (b.header.hash E).toList
    blockReward := n.engine.params.blockReward
    burnedSupply := ws.burnedSupply
    issuedSupply := ws.issuedSupply
    validatorCount := ws.activeValidators.length
    currentEpoch := ws.currentEpoch
    epochLength := epochLen
    blocksUntilNextEpoch := if epochLen > 0 ∧ height > 0 then epochLen - height % epochLen else 0 }

/-- `full` is the parameter of that name in the query. -/
def handleGetBlockByHeight (E : Env) (n : Node) (heightStr : String) (full : Bool) : Except String BlockResponse := do
  let height ← orThrow (parseUint heightStr) "invalid height"
  let block ← wrapErr (fun _ => s!"block at height {height} not found") (n.blockStore.getBlockByHeight height)
  return blockToResponse E block full

theorem handleGetBlockByHeight_ok {n : Node} {height : UInt64} {full : Bool} {r : BlockResponse} :
    handleGetBlockByHeight E n (formatUint height.toNat) full = .ok r ↔
      ∃ b, n.blockStore.getBlockByHeight height = .ok b ∧ blockToResponse E b full = r := by
  simp only [handleGetBlockByHeight, Except.bind_ok_iff, Except.orThrow_ok_iff, Except.wrapErr_ok_iff, Except.pure_ok_iff,
    parseUint_format_toNat, Option.some.injEq, exists_eq_left']

/-! ## A poll -/

/-- The follower between two requests: its database and, in the loop of `poll`,
the next height and the last. -/
structure Polling where
  db : DB := {}
  loop : Option (UInt64 × UInt64) := none

namespace Follower

/-- `poll`, up to its loop. -/
def poll (p : Polling) (nodeInfo : Except String NodeInfoResponse) : Polling :=
  match p.loop, nodeInfo with
  | none, .ok nodeInfo =>
    if nodeInfo.latestHeight ≤ p.db.lastIndexedHeight then p
    else { p with loop := some (p.db.lastIndexedHeight + 1, nodeInfo.latestHeight) }
  | _, _ => p

/-- One turn of its loop: `IndexBlock`, with the request for the block. -/
def turn (f : Follower) (E : Env) (rows : Nat → RowOrder) (p : Polling) (fetch : UInt64 → Except String BlockResponse) :
    Polling :=
  match p.loop with
  | none => p
  | some (h, latest) =>
    match fetch h with
    | .error _ => { p with loop := none }
    | .ok block => ⟨f.indexBlock E rows p.db h block, if h + 1 ≤ latest then some (h + 1, latest) else none⟩

end Follower

/-! ## The follower and the nodes -/

namespace Fleet

variable [DecidableEq ι]

def nodeInfo (E : Env) (s : Fleet ι) (i : ι) : Except String NodeInfoResponse :=
  if i ∈ s.live then .ok (handleGetNodeInfo E (s.nodes i)) else .error "connection refused"

def fullBlock (E : Env) (s : Fleet ι) (i : ι) (height : UInt64) : Except String BlockResponse :=
  if i ∈ s.live then handleGetBlockByHeight E (s.nodes i) (formatUint height.toNat) true else .error "connection refused"

end Fleet

structure Followed (ι : Type) where
  fleet : Fleet ι
  polling : Polling := {}

inductive FollowEvent (ι : Type)
  | phase (p : Phase ι)
  /-- A poll begins: this node is asked how high it is. -/
  | poll (i : ι)
  /-- The next block is asked of this node, and indexed. -/
  | index (i : ι) (rows : Nat → RowOrder)
  /-- The poll ends before its time: a request fails, or the follower's process ends between two blocks. -/
  | breakOff

def FollowEvent.phase? : FollowEvent ι → Option (Phase ι)
  | .phase p => some p
  | _ => none

/-- The rounds among events. -/
def rounds (evs : List (FollowEvent ι)) : List (Round ι) := (evs.filterMap FollowEvent.phase?).filterMap Phase.round?

namespace Followed

variable [DecidableEq ι]

def step (E : Env) (f : Follower) (cfg : ι → NodeConfig) (s : Followed ι) : FollowEvent ι → Followed ι
  | .phase p => { s with fleet := s.fleet.step E cfg p }
  | .poll i => { s with polling := Follower.poll s.polling (s.fleet.nodeInfo E i) }
  | .index i rows => { s with polling := f.turn E rows s.polling (s.fleet.fullBlock E i) }
  | .breakOff => { s with polling := { s.polling with loop := none } }

def run (E : Env) (f : Follower) (cfg : ι → NodeConfig) (s : Followed ι) (evs : List (FollowEvent ι)) : Followed ι :=
  evs.foldl (step E f cfg) s

/-- A poll of one node, with this many turns. -/
def wholePoll (i : ι) (rows : Nat → RowOrder) (turns : Nat) : List (FollowEvent ι) :=
  .poll i :: List.replicate turns (.index i rows)

end Followed

/-- A database in which a first part of the chain is indexed, as far as the
cursor says: each block once, in order. -/
structure FirstIndexed (E : Env) (f : Follower) (db : DB) (chain : List Block) : Prop where
  cursor : db.lastIndexedHeight.toNat ≤ chain.length
  indexed : ∃ rows, db = f.indexBlocks E rows 0 {} (chain.take db.lastIndexedHeight.toNat)

/-! ## Indexing the next block -/

variable {db : DB} {chain bs : List Block} {p : Polling} {b : Block}

theorem indexBlocks_append {rows : Nat → Nat → RowOrder} {i : Nat} {l l' : List Block} :
    f.indexBlocks E rows i db (l ++ l') = f.indexBlocks E rows (i + l.length) (f.indexBlocks E rows i db l) l' := by
  induction l generalizing i db with
  | nil => rfl
  | cons b l ih =>
    rw [List.cons_append, Follower.indexBlocks, ih, Follower.indexBlocks, List.length_cons, Nat.add_assoc, Nat.add_comm 1]

/-- Only the orders of the blocks at hand matter. -/
theorem indexBlocks_congr {rows rows' : Nat → Nat → RowOrder} {i : Nat} {l : List Block}
    (h : ∀ k, i ≤ k → k < i + l.length → rows k = rows' k) :
    f.indexBlocks E rows i db l = f.indexBlocks E rows' i db l := by
  induction l generalizing i db with
  | nil => rfl
  | cons b l ih =>
    rw [List.length_cons] at h
    rw [Follower.indexBlocks, Follower.indexBlocks, h i (Nat.le_refl i) (by omega)]
    exact ih fun k hk hlt => h k (by omega) (by omega)

theorem FirstIndexed.grow (h : FirstIndexed E f db chain) : FirstIndexed E f db (chain ++ bs) where
  cursor := h.cursor.trans (by rw [List.length_append]; omega)
  indexed := by
    rw [List.take_append_of_le_length h.cursor]
    exact h.indexed

theorem FirstIndexed.next (h : FirstIndexed E f db chain) (hk : db.lastIndexedHeight.toNat < chain.length)
    (hheight : chain[db.lastIndexedHeight.toNat].header.height.toNat = db.lastIndexedHeight.toNat + 1)
    (rows : Nat → RowOrder) :
    FirstIndexed E f (f.indexBlock E rows db chain[db.lastIndexedHeight.toNat].header.height
      (blockToResponse E chain[db.lastIndexedHeight.toNat] true)) chain := by
  obtain ⟨orders, hdb⟩ := h.indexed
  have hcursor : (f.indexBlock E rows db chain[db.lastIndexedHeight.toNat].header.height
      (blockToResponse E chain[db.lastIndexedHeight.toNat] true)).lastIndexedHeight.toNat = db.lastIndexedHeight.toNat +
        1 := hheight
  refine ⟨hcursor ▸ hk, Function.update orders db.lastIndexedHeight.toNat rows, ?_⟩
  rw [hcursor, List.take_add_one, List.getElem?_eq_getElem hk, Option.toList_some, indexBlocks_append]
  have hlength : (chain.take db.lastIndexedHeight.toNat).length = db.lastIndexedHeight.toNat :=
    List.length_take_of_le h.cursor
  have hold : f.indexBlocks E (Function.update orders db.lastIndexedHeight.toNat rows) 0 {}
      (chain.take db.lastIndexedHeight.toNat) = db := by
    refine Eq.trans (indexBlocks_congr fun k _ hlt => ?_) hdb.symm
    rw [hlength, Nat.zero_add] at hlt
    exact Function.update_of_ne (Nat.ne_of_lt hlt) _ _
  rw [hold, hlength, Nat.zero_add, Follower.indexBlocks, Follower.indexBlocks, Function.update_self]

/-! ## Polls -/

/-- The database is that of a first part of the chain; in a poll the next height
is that after the cursor, and the last one is on the chain. -/
structure Tails (E : Env) (f : Follower) (p : Polling) (chain : List Block) : Prop where
  first : FirstIndexed E f p.db chain
  loop : ∀ h latest, p.loop = some (h, latest) → h = p.db.lastIndexedHeight + 1 ∧ latest.toNat ≤ chain.length

/-- Blocks as they are on the chain. -/
def Serves (E : Env) (fetch : UInt64 → Except String BlockResponse) (chain : List Block) : Prop :=
  ∀ h r, fetch h = .ok r → ∃ b ∈ chain, b.header.height = h ∧ blockToResponse E b true = r

namespace Tails

theorem start : Tails E f {} [] where
  first := ⟨Nat.le_refl 0, fun _ _ => ⟨fun m => m.pairs.toList, fun _ => Multiset.coe_toList _⟩, rfl⟩
  loop h latest hloop := by cases hloop

theorem grow (h : Tails E f p chain) : Tails E f p (chain ++ bs) where
  first := h.first.grow
  loop x latest hloop := ⟨(h.loop x latest hloop).1, (h.loop x latest hloop).2.trans (by rw [List.length_append]; omega)⟩

theorem breakOff (h : Tails E f p chain) : Tails E f { p with loop := none } chain where
  first := h.first
  loop x latest hloop := by cases hloop

theorem poll {nodeInfo : Except String NodeInfoResponse} (h : Tails E f p chain)
    (hinfo : ∀ r, nodeInfo = .ok r → r.latestHeight.toNat = chain.length) :
    Tails E f (Follower.poll p nodeInfo) chain := by
  unfold Follower.poll
  split
  · next r _ =>
    split
    · exact h
    · refine ⟨h.first, fun x latest hloop => ?_⟩
      cases hloop
      exact ⟨rfl, (hinfo r rfl).le⟩
  · exact h

/-- What is fetched in a turn is the block after the cursor. -/
theorem fetched {fetch : UInt64 → Except String BlockResponse} {x latest : UInt64} {r : BlockResponse}
    (h : Tails E f p chain)
    (hserves : Serves E fetch chain) (hheights : ∀ k (hk : k < chain.length), chain[k].header.height.toNat = k + 1)
    (hloop : p.loop = some (x, latest)) (hfetch : fetch x = .ok r) :
    ∃ hk : p.db.lastIndexedHeight.toNat < chain.length,
      chain[p.db.lastIndexedHeight.toNat].header.height = x ∧
      blockToResponse E chain[p.db.lastIndexedHeight.toNat] true = r := by
  obtain ⟨b, hb, hheight, hr⟩ := hserves x r hfetch
  obtain ⟨k, hk, rfl⟩ := List.getElem_of_mem hb
  obtain rfl : k = p.db.lastIndexedHeight.toNat := by
    have hnext := hheights k hk
    rw [hheight, (h.loop x latest hloop).1, UInt64.toNat_add, UInt64.toNat_one] at hnext
    have hlt := p.db.lastIndexedHeight.toNat_lt
    omega
  exact ⟨hk, hheight, hr⟩

theorem turn {fetch : UInt64 → Except String BlockResponse} (h : Tails E f p chain) (hserves : Serves E fetch chain)
    (hheights : ∀ k (hk : k < chain.length), chain[k].header.height.toNat = k + 1) (rows : Nat → RowOrder) :
    Tails E f (f.turn E rows p fetch) chain := by
  unfold Follower.turn
  split
  · exact h
  · next x latest hloop =>
    split
    · exact h.breakOff
    · next r hfetch =>
      obtain ⟨hk, rfl, rfl⟩ := h.fetched hserves hheights hloop hfetch
      refine ⟨h.first.next hk (hheights _ hk) rows, fun y latest' hnext => ?_⟩
      dsimp only at hnext
      split at hnext
      · cases hnext
        exact ⟨rfl, (h.loop _ _ hloop).2⟩
      · cases hnext

/-- At the end of the chain, or in a poll that goes to its end. -/
def Reaching (p : Polling) (chain : List Block) : Prop :=
  p.db.lastIndexedHeight.toNat = chain.length ∨
    ∃ latest, p.loop = some (p.db.lastIndexedHeight + 1, latest) ∧ latest.toNat = chain.length

/-- **A turn of such a poll** indexes one block more, as long as there is one. -/
theorem turn_reaching {fetch : UInt64 → Except String BlockResponse} (h : Tails E f p chain)
    (hserves : Serves E fetch chain)
    (hall : ∀ b ∈ chain, fetch b.header.height = .ok (blockToResponse E b true))
    (hheights : ∀ k (hk : k < chain.length), chain[k].header.height.toNat = k + 1) (rows : Nat → RowOrder)
    (hp : Reaching p chain) :
    Reaching (f.turn E rows p fetch) chain ∧
      (f.turn E rows p fetch).db.lastIndexedHeight.toNat = min (p.db.lastIndexedHeight.toNat + 1) chain.length := by
  by_cases hk : p.db.lastIndexedHeight.toNat < chain.length
  · obtain ⟨latest, hloop, hlatest⟩ := hp.resolve_left (Nat.ne_of_lt hk)
    have hnext := hheights _ hk
    have hx : chain[p.db.lastIndexedHeight.toNat].header.height = p.db.lastIndexedHeight + 1 := by
      apply UInt64.toNat_inj.mp
      rw [hnext, UInt64.toNat_add, UInt64.toNat_one]
      have hlt := chain[p.db.lastIndexedHeight.toNat].header.height.toNat_lt
      omega
    have hfetch := hall _ (List.getElem_mem hk)
    rw [hx] at hfetch
    have hturn : f.turn E rows p fetch =
        ⟨f.indexBlock E rows p.db (p.db.lastIndexedHeight + 1)
          (blockToResponse E chain[p.db.lastIndexedHeight.toNat] true),
          if p.db.lastIndexedHeight + 1 + 1 ≤ latest then some (p.db.lastIndexedHeight + 1 + 1, latest) else none⟩ := by
      unfold Follower.turn
      simp only [hloop, hfetch]
    have hcursor : (f.turn E rows p fetch).db.lastIndexedHeight = p.db.lastIndexedHeight + 1 := by
      rw [hturn]
      rfl
    refine ⟨?_, by rw [hcursor, ← hx, hnext, min_eq_left hk]⟩
    by_cases hend : p.db.lastIndexedHeight.toNat + 1 = chain.length
    · exact .inl (by rw [hcursor, ← hx, hnext, hend])
    · refine .inr ⟨latest, ?_, hlatest⟩
      have hle : p.db.lastIndexedHeight + 1 + 1 ≤ latest := by
        rw [UInt64.le_iff_toNat_le, UInt64.toNat_add, UInt64.toNat_one, ← hx, hnext, hlatest]
        have hlt := latest.toNat_lt
        omega
      rw [hcursor, hturn, if_pos hle]
  · have hcursor : p.db.lastIndexedHeight.toNat = chain.length := Nat.le_antisymm h.first.cursor (Nat.le_of_not_lt hk)
    have hsame : (f.turn E rows p fetch).db.lastIndexedHeight.toNat = chain.length := by
      unfold Follower.turn
      split
      · exact hcursor
      · next x latest hloop =>
        split
        · exact hcursor
        · next r hfetch => exact absurd (h.fetched hserves hheights hloop hfetch).1 hk
    exact ⟨.inl hsame, by rw [hsame, hcursor, min_eq_right (Nat.le_succ _)]⟩

theorem turns_reaching {fetch : UInt64 → Except String BlockResponse} (h : Tails E f p chain)
    (hserves : Serves E fetch chain)
    (hall : ∀ b ∈ chain, fetch b.header.height = .ok (blockToResponse E b true))
    (hheights : ∀ k (hk : k < chain.length), chain[k].header.height.toNat = k + 1) (rows : Nat → RowOrder)
    (hp : Reaching p chain) {n : Nat} (hn : chain.length ≤ p.db.lastIndexedHeight.toNat + n) :
    FirstIndexed E f ((fun p => f.turn E rows p fetch)^[n] p).db chain ∧
      ((fun p => f.turn E rows p fetch)^[n] p).db.lastIndexedHeight.toNat = chain.length := by
  induction n generalizing p with
  | zero => exact ⟨h.first, Nat.le_antisymm h.first.cursor hn⟩
  | succ n ih =>
    rw [Function.iterate_succ_apply]
    obtain ⟨hreach, hmore⟩ := h.turn_reaching hserves hall hheights rows hp
    exact ih (h.turn hserves hheights rows) hreach (by rw [hmore]; omega)

end Tails

/-! ## Runs -/

namespace Fleet

variable [DecidableEq ι] {cfg : ι → NodeConfig} {s : Fleet ι} {e e₀ e' : Engine} {i : ι} {ps : List (Phase ι)}
  {ph : Phase ι}

omit [DecidableEq ι] in
theorem Coherent.heights (h : Coherent E params cfg e₀ s chain e) (k : Nat) (hk : k < chain.length) :
    chain[k].header.height.toNat = k + 1 := by
  rcases h.whole with rfl | ⟨i, hi⟩
  · cases hk
  · exact hi.stored.getElem_height hk

theorem Coherent.nodeInfo {r : NodeInfoResponse} (h : Coherent E params cfg e₀ s chain e) (hr : s.nodeInfo E i = .ok r) :
    r.latestHeight.toNat = chain.length := by
  rw [Fleet.nodeInfo] at hr
  split at hr
  · next hi =>
    cases hr
    exact (h.up i hi).stored.height
  · cases hr

theorem Coherent.fullBlock (h : Coherent E params cfg e₀ s chain e) (hi : i ∈ s.live) {height : UInt64}
    {r : BlockResponse} :
    s.fullBlock E i height = .ok r ↔ ∃ b ∈ chain, b.header.height = height ∧ blockToResponse E b true = r := by
  rw [Fleet.fullBlock, if_pos hi, handleGetBlockByHeight_ok]
  simp only [(h.up i hi).stored.indexes.getBlockByHeight_ok, and_assoc]

theorem Coherent.serves (h : Coherent E params cfg e₀ s chain e) (i : ι) : Serves E (s.fullBlock E i) chain := by
  intro height r hr
  by_cases hi : i ∈ s.live
  · exact (h.fullBlock hi).mp hr
  · rw [Fleet.fullBlock, if_neg hi] at hr
    cases hr

theorem Coherent.step (h : Coherent E params cfg e₀ s chain e) (h₀ : AtGenesis E params e₀) (hcounts : CountsFit e₀.state)
    (hconfig : ∀ i, (cfg i).genesis = params) (hbytes : params.maxPostBytes.toInt < 2 ^ 32)
    (hkeys : ∀ i, (cfg i).HoldsKey E)
    (haddr : Function.Injective fun i => (cfg i).address) (ho : s.Orderly E ph) :
    ∃ bs e', Coherent E params cfg e₀ (s.step E cfg ph) (chain ++ bs) e' ∧
      bs.map (·.header.timestamp) = ([ph].filterMap Phase.round?).map (·.timestamp) := by
  have hone : OrderlyAlong E cfg s [ph] := ⟨ho, trivial⟩
  obtain ⟨bs, e', hrun, htimes, -⟩ := h.run h₀ hcounts hconfig hbytes hkeys haddr hone
  exact ⟨bs, e', hrun, htimes⟩

end Fleet

namespace Followed

variable [DecidableEq ι] {cfg : ι → NodeConfig} {s : Followed ι} {e e₀ : Engine} {i : ι} {evs : List (FollowEvent ι)}
  {ws₀ : WorldState}

theorem run_append {evs' : List (FollowEvent ι)} : s.run E f cfg (evs ++ evs') = (s.run E f cfg evs).run E f cfg evs' :=
  List.foldl_append

/-- The follower changes nothing at the nodes. -/
theorem run_fleet : (s.run E f cfg evs).fleet = s.fleet.run E cfg (evs.filterMap FollowEvent.phase?) := by
  induction evs generalizing s with
  | nil => rfl
  | cons ev evs ih => cases ev <;> exact ih

theorem run_turns {rows : Nat → RowOrder} {n : Nat} : s.run E f cfg (List.replicate n (.index i rows)) =
    ⟨s.fleet, (fun p => f.turn E rows p (s.fleet.fullBlock E i))^[n] s.polling⟩ := by
  induction n generalizing s with
  | zero => rfl
  | succ n ih =>
    rw [Function.iterate_succ_apply]
    exact ih

/-- A node that is down ends the poll. -/
theorem turn_refused {rows : Nat → RowOrder} (hi : i ∉ (s.run E f cfg (evs ++ [.index i rows])).fleet.live) :
    (s.run E f cfg (evs ++ [.index i rows])).polling.loop = none := by
  rw [run_append] at hi ⊢
  have hrefused : (s.run E f cfg evs).fleet.fullBlock E i = fun _ => .error "connection refused" :=
    funext fun _ => if_neg hi
  show (f.turn E rows (s.run E f cfg evs).polling ((s.run E f cfg evs).fleet.fullBlock E i)).loop = none
  rw [hrefused, Follower.turn]
  split
  · assumption
  · rfl

/-- The nodes are on one chain, and the follower behind them. -/
structure Coherent (E : Env) (params : GenesisConfig) (f : Follower) (cfg : ι → NodeConfig) (e₀ : Engine) (s : Followed ι)
    (chain : List Block) (e : Engine) : Prop where
  fleet : s.fleet.Coherent E params cfg e₀ chain e
  polling : Tails E f s.polling chain

/-- Every event. -/
theorem Coherent.run (h : Coherent E params f cfg e₀ s chain e) (h₀ : AtGenesis E params e₀)
    (hcounts : CountsFit e₀.state)
    (hconfig : ∀ i, (cfg i).genesis = params) (hbytes : params.maxPostBytes.toInt < 2 ^ 32)
    (hkeys : ∀ i, (cfg i).HoldsKey E)
    (haddr : Function.Injective fun i => (cfg i).address)
    (ho : Fleet.OrderlyAlong E cfg s.fleet (evs.filterMap FollowEvent.phase?)) :
    ∃ bs e', Coherent E params f cfg e₀ (s.run E f cfg evs) (chain ++ bs) e' ∧
      bs.map (·.header.timestamp) = (rounds evs).map (·.timestamp) := by
  induction evs generalizing s chain e with
  | nil => exact ⟨[], e, by rwa [List.append_nil], rfl⟩
  | cons ev evs ih =>
    cases ev with
    | phase ph =>
      obtain ⟨hph, ho⟩ := ho
      obtain ⟨bs, e', hstep, htimes⟩ := h.fleet.step h₀ hcounts hconfig hbytes hkeys haddr hph
      have hnext : Coherent E params f cfg e₀ (s.step E f cfg (.phase ph)) (chain ++ bs) e' := ⟨hstep, h.polling.grow⟩
      obtain ⟨bs', e'', hrun, htimes'⟩ := ih hnext ho
      refine ⟨bs ++ bs', e'', by rwa [← List.append_assoc], ?_⟩
      have hrounds : rounds (.phase ph :: evs) = [ph].filterMap Phase.round? ++ rounds evs := by
        rw [rounds, rounds, ← List.filterMap_append]
        rfl
      rw [hrounds, List.map_append, List.map_append, htimes, htimes']
    | poll i =>
      have hnext : Coherent E params f cfg e₀ (s.step E f cfg (.poll i)) chain e :=
        ⟨h.fleet, h.polling.poll fun r hr => h.fleet.nodeInfo hr⟩
      exact ih hnext ho
    | index i rows =>
      have hnext : Coherent E params f cfg e₀ (s.step E f cfg (.index i rows)) chain e :=
        ⟨h.fleet, h.polling.turn (h.fleet.serves i) h.fleet.heights rows⟩
      exact ih hnext ho
    | breakOff =>
      have hnext : Coherent E params f cfg e₀ (s.step E f cfg .breakOff) chain e := ⟨h.fleet, h.polling.breakOff⟩
      exact ih hnext ho

/-- A poll that one node answers to the end. -/
theorem Coherent.wholePoll (h : Coherent E params f cfg e₀ s chain e) (hi : i ∈ s.fleet.live)
    (hidle : s.polling.loop = none)
    (rows : Nat → RowOrder) {turns : Nat} (hturns : chain.length ≤ s.polling.db.lastIndexedHeight.toNat + turns) :
    FirstIndexed E f (s.run E f cfg (wholePoll i rows turns)).polling.db chain ∧
      (s.run E f cfg (wholePoll i rows turns)).polling.db.lastIndexedHeight.toNat = chain.length := by
  have hinfo : s.fleet.nodeInfo E i = .ok (handleGetNodeInfo E (s.fleet.nodes i)) := if_pos hi
  have hlatest : (handleGetNodeInfo E (s.fleet.nodes i)).latestHeight.toNat = chain.length := h.fleet.nodeInfo hinfo
  have hpoll : Tails E f (Follower.poll s.polling (s.fleet.nodeInfo E i)) chain :=
    h.polling.poll fun r hr => h.fleet.nodeInfo hr
  have hsame : (Follower.poll s.polling (s.fleet.nodeInfo E i)).db = s.polling.db := by
    unfold Follower.poll
    split
    · split <;> rfl
    · rfl
  have hreach : Tails.Reaching (Follower.poll s.polling (s.fleet.nodeInfo E i)) chain := by
    have hle := h.polling.first.cursor
    unfold Follower.poll
    simp only [hidle, hinfo]
    split
    · next hup =>
      rw [UInt64.le_iff_toNat_le, hlatest] at hup
      exact .inl (Nat.le_antisymm hle hup)
    · exact .inr ⟨_, rfl, hlatest⟩
  have hall : ∀ b ∈ chain, s.fleet.fullBlock E i b.header.height = .ok (blockToResponse E b true) :=
    fun b hb => (h.fleet.fullBlock hi).mpr ⟨b, hb, rfl, rfl⟩
  have hrun : s.run E f cfg (Followed.wholePoll i rows turns) = (s.step E f cfg (.poll i)).run E f cfg
      (List.replicate turns (.index i rows)) := rfl
  rw [hrun, run_turns]
  exact hpoll.turns_reaching (h.fleet.serves i) hall h.fleet.heights rows hreach (by rwa [hsame])

/-- Every run comes to this. -/
theorem Unstarted.run (hs : s.fleet.Unstarted) (hp : s.polling = {}) (h₀ : initializeState E params = .ok ws₀)
    (hconfig : ∀ i, (cfg i).genesis = params) (hvalidators : params.validators.length < 2 ^ 32)
    (hbytes : params.maxPostBytes.toInt < 2 ^ 32) (hkeys : ∀ i, (cfg i).HoldsKey E)
    (haddr : Function.Injective fun i => (cfg i).address)
    (ho : Fleet.OrderlyAlong E cfg s.fleet (evs.filterMap FollowEvent.phase?)) :
    ∃ chain e, AtGenesis E params (newEngine ⟨params, .zero, .zero⟩ ws₀ none) ∧
      Coherent E params f cfg (newEngine ⟨params, .zero, .zero⟩ ws₀ none) (s.run E f cfg evs) chain e ∧
      chain.map (·.header.timestamp) = (rounds evs).map (·.timestamp) := by
  obtain ⟨hgenesis, hcounts, hfleet⟩ := hs.coherent cfg h₀ hvalidators
  have hpolling : Tails E f s.polling [] := hp ▸ .start
  obtain ⟨chain, e, hrun, htimes⟩ := Coherent.run ⟨hfleet, hpolling⟩ hgenesis hcounts hconfig hbytes hkeys haddr ho
  exact ⟨chain, e, hgenesis, hrun, htimes⟩

/-- **The index follows the chain, whoever answers**: nodes start, stop, crash
and make blocks, each request of the follower finds any of them or none, and
polls break off between blocks. In an orderly run the database always is what a
first part of the one chain makes, each block indexed once and in order; and a
poll that one node answers to the end leaves the whole of it. -/
theorem index_follows (h₀ : initializeState E params = .ok ws₀) (hconfig : ∀ i, (cfg i).genesis = params)
    (hvalidators : params.validators.length < 2 ^ 32) (hbytes : params.maxPostBytes.toInt < 2 ^ 32)
    (hkeys : ∀ i, (cfg i).HoldsKey E) (haddr : Function.Injective fun i => (cfg i).address) (hs : s.fleet.Unstarted)
    (hp : s.polling = {}) (ho : Fleet.OrderlyAlong E cfg s.fleet (evs.filterMap FollowEvent.phase?)) :
    ∃ chain, (s.run E f cfg evs).fleet.OneChain chain ∧ chain.map (·.header.timestamp) = (rounds evs).map (·.timestamp) ∧
      FirstIndexed E f (s.run E f cfg evs).polling.db chain ∧
      ∀ i ∈ (s.run E f cfg evs).fleet.live, (s.run E f cfg evs).polling.loop = none → ∀ rows turns,
        chain.length ≤ (s.run E f cfg evs).polling.db.lastIndexedHeight.toNat + turns →
        FirstIndexed E f (s.run E f cfg (evs ++ wholePoll i rows turns)).polling.db chain ∧
        (s.run E f cfg (evs ++ wholePoll i rows turns)).polling.db.lastIndexedHeight.toNat = chain.length := by
  obtain ⟨chain, e, hgenesis, hrun, htimes⟩ := Unstarted.run (f := f) hs hp h₀ hconfig hvalidators hbytes hkeys haddr ho
  refine ⟨chain, hrun.fleet.oneChain hgenesis, htimes, hrun.polling.first, fun i hi hidle rows turns hturns => ?_⟩
  rw [run_append]
  exact hrun.wholePoll hi hidle rows hturns

/-! ## What the index shows -/

end Followed

variable {e e' e'' : Engine}

theorem Grown.split {bs' : List Block} (h : Grown E e (bs ++ bs') e'') : ∃ e', Grown E e bs e' ∧ Grown E e' bs' e'' := by
  induction bs generalizing e with
  | nil => exact ⟨e, .nil, h⟩
  | cons b bs ih =>
    cases h with
    | cons hfits hrest =>
      obtain ⟨e', hg, hg'⟩ := ih hrest
      exact ⟨e', .cons hfits hg, hg'⟩

/-- A history is a run of the executor. -/
theorem Grown.applyBlocks (h : Grown E e bs e') : ∃ l : List ((Nat → RangeOrder) × Block), l.map (·.2) = bs ∧
    applyBlocks E .go e.params e.state l = .ok e'.state := by
  induction h with
  | nil => exact ⟨[], rfl, rfl⟩
  | cons hfits _ ih =>
    obtain ⟨ord, happly⟩ := hfits.applies
    obtain ⟨l, hl, hrun⟩ := ih
    exact ⟨(ord, _) :: l, by rw [List.map_cons, hl], applyBlocks_cons_ok_iff.mpr ⟨_, happly, hrun⟩⟩

namespace Followed

variable [DecidableEq ι] {cfg : ι → NodeConfig} {s : Followed ι} {evs : List (FollowEvent ι)} {ws₀ : WorldState}

/-- **The index shows the chain's state, from whichever nodes it was told**: its
posts and stakes are those of the state after as many blocks as the cursor says,
if the follower has the chain's percentages and nothing was taken back. At the
end of the chain that is the state of every node that is up. The run is orderly. -/
theorem index_shows (hf : f.SameFees params) (h₀ : initializeState E params = .ok ws₀)
    (hconfig : ∀ i, (cfg i).genesis = params)
    (hvalidators : params.validators.length < 2 ^ 32) (hbytes : params.maxPostBytes.toInt < 2 ^ 32)
    (hkeys : ∀ i, (cfg i).HoldsKey E) (haddr : Function.Injective fun i => (cfg i).address) (hs : s.fleet.Unstarted)
    (hp : s.polling = {}) (ho : Fleet.OrderlyAlong E cfg s.fleet (evs.filterMap FollowEvent.phase?)) :
    ∃ chain, (s.run E f cfg evs).fleet.OneChain chain ∧ chain.map (·.header.timestamp) = (rounds evs).map (·.timestamp) ∧
      ∃ (l : List ((Nat → RangeOrder) × Block)) (ws : WorldState),
      l.map (·.2) = chain.take (s.run E f cfg evs).polling.db.lastIndexedHeight.toNat ∧
      applyBlocks E .go params ws₀ l = .ok ws ∧
      (chain.length < 2 ^ 63 → (∀ e ∈ appliedInRun E .go params ws₀ l, SmallAmounts params e ∧ Followable E e) →
        Agrees (s.run E f cfg evs).polling.db ws) ∧
      ((s.run E f cfg evs).polling.db.lastIndexedHeight.toNat = chain.length →
        ∀ i ∈ (s.run E f cfg evs).fleet.live, ((s.run E f cfg evs).fleet.engines i).state = ws) := by
  obtain ⟨chain, e, hgenesis, hrun, htimes⟩ := Unstarted.run (f := f) hs hp h₀ hconfig hvalidators hbytes hkeys haddr ho
  obtain ⟨rows, hdb⟩ := hrun.polling.first.indexed
  have hgrown := hrun.fleet.grown
  rw [← List.take_append_drop (s.run E f cfg evs).polling.db.lastIndexedHeight.toNat chain] at hgrown
  obtain ⟨e', hg, hg'⟩ := hgrown.split
  obtain ⟨l, hl, happly⟩ := hg.applyBlocks
  refine ⟨chain, hrun.fleet.oneChain hgenesis, htimes, l, e'.state, hl, happly, fun hshort hall => ?_,
    fun hend i hi => ?_⟩
  · have hheights : ∀ b ∈ l, b.2.header.height.toNat < 2 ^ 63 := by
      intro b hb
      have hmem : b.2 ∈ chain.take (s.run E f cfg evs).polling.db.lastIndexedHeight.toNat := hl ▸ List.mem_map_of_mem hb
      obtain ⟨k, hk, heq⟩ := List.getElem_of_mem (List.mem_of_mem_take hmem)
      rw [← heq, hrun.fleet.heights k hk]
      omega
    have hfresh := (initializeState_fresh h₀).1
    rw [hdb, ← hl]
    exact (applyBlocks_mirrors hf hheights hfresh.mirrors hfresh.keyed hall happly).agrees
  · rw [hend, List.drop_length] at hg'
    cases hg'
    rw [Fleet.engines, (hrun.fleet.up i hi).engine]
    rfl

end Followed

section

open Sample

namespace Followed

/-- Nothing is started or indexed. -/
def unstarted : Followed (Fin 4) := ⟨Fleet.unstarted, {}⟩

/-- Three nodes make a block; the third of them crashes in the middle of a poll,
which the second goes on with. -/
def watched (i j k : Fin 4) : List (FollowEvent (Fin 4)) :=
  (Fleet.opening i j k).map .phase ++ [.poll k, .phase (.crash k), .index k fun _ => rowOrder]

theorem watched_phases (i j k : Fin 4) : (watched i j k).filterMap FollowEvent.phase? = Fleet.opening i j k ++
    [.crash k] := rfl

theorem watched_times (i j k : Fin 4) : (rounds (watched i j k)).map (·.timestamp) = [10] := rfl

theorem watched_orderly : Fleet.OrderlyAlong env Fleet.seat unstarted.fleet
    ((watched 0 1 2).filterMap FollowEvent.phase?) := by
  rw [watched_phases]
  exact Fleet.opening_orderly.1.append ⟨trivial, trivial⟩

theorem watched_live : (unstarted.run env Sample.follower Fleet.seat (watched 0 1 2)).fleet.live = present.erase 2 := by
  rw [run_fleet, watched_phases, Fleet.run_append]
  exact congrArg (·.erase 2) Fleet.opening_orderly.2

/-- The request that finds nobody ends the poll. -/
theorem watched_idle {i j k : Fin 4} (hk : k ∉
      (unstarted.run env Sample.follower Fleet.seat (watched i j k)).fleet.live) :
    (unstarted.run env Sample.follower Fleet.seat (watched i j k)).polling.loop = none := by
  have hsplit : watched i j k =
      ((Fleet.opening i j k).map .phase ++ [.poll k, .phase (.crash k)]) ++ [.index k fun _ => rowOrder] := by
    rw [List.append_assoc]
    rfl
  rw [hsplit] at hk ⊢
  exact turn_refused hk

/-- The block that was not indexed in the broken poll is indexed in the next. -/
theorem index_follows_watched : ∃ chain,
    (unstarted.run env Sample.follower Fleet.seat (watched 0 1 2)).fleet.OneChain chain ∧
    chain.map (·.header.timestamp) = [10] ∧
    FirstIndexed env Sample.follower
      (unstarted.run env Sample.follower Fleet.seat (watched 0 1 2 ++ wholePoll 0 (fun _ => rowOrder) 1)).polling.db
      chain ∧
    (unstarted.run env Sample.follower Fleet.seat
      (watched 0 1 2 ++ wholePoll 0 (fun _ => rowOrder) 1)).polling.db.lastIndexedHeight.toNat = chain.length := by
  obtain ⟨chain, hchain, htimes, -, hpoll⟩ :=
    index_follows (f := Sample.follower) genesis4_ok Fleet.seat_genesis (by decide) (by decide)
    Fleet.seat_holdsKey Fleet.seat_injective Fleet.unstarted_unstarted rfl watched_orderly
  rw [watched_times] at htimes
  have hlength : chain.length = 1 := by
    rw [← List.length_map, htimes]
    rfl
  have hlive : ∀ i, i ∈ present.erase 2 → i ∈ (unstarted.run env Sample.follower Fleet.seat (watched 0 1 2)).fleet.live :=
    fun i hi => watched_live ▸ hi
  have hidle := watched_idle (i := 0) (j := 1) (k := 2) (by rw [watched_live]; decide)
  exact ⟨chain, hchain, htimes, hpoll 0 (hlive 0 (by decide)) hidle _ 1 (by omega)⟩

theorem sameFees4 : Sample.follower.SameFees config4 := ⟨by decide, by decide⟩

theorem index_shows_watched : ∃ chain,
    (unstarted.run env Sample.follower Fleet.seat (watched 0 1 2)).fleet.OneChain chain ∧
    chain.map (·.header.timestamp) = [10] ∧ ∃ (l : List ((Nat → RangeOrder) × Block)) (ws : WorldState),
    l.map (·.2) = chain.take (unstarted.run env Sample.follower Fleet.seat
      (watched 0 1 2)).polling.db.lastIndexedHeight.toNat ∧
    applyBlocks env .go config4 genesis4 l = .ok ws ∧
    ((∀ e ∈ appliedInRun env .go config4 genesis4 l, SmallAmounts config4 e ∧ Followable env e) →
      Agrees (unstarted.run env Sample.follower Fleet.seat (watched 0 1 2)).polling.db ws) := by
  obtain ⟨chain, hchain, htimes, l, ws, hl, happly, hagrees, -⟩ :=
    index_shows sameFees4 genesis4_ok Fleet.seat_genesis (by decide)
    (by decide) Fleet.seat_holdsKey Fleet.seat_injective Fleet.unstarted_unstarted rfl watched_orderly
  rw [watched_times] at htimes
  have hlength : chain.length = 1 := by
    rw [← List.length_map, htimes]
    rfl
  exact ⟨chain, hchain, htimes, l, ws, hl, happly, hagrees (by omega)⟩

end Followed

end

end Drana
