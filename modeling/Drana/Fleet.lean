/-
Nodes that come and go: they start on what is on their disks, catch up with
those that are up, make blocks with them, and stop or crash again. All the while
there is one chain.
-/
import Drana.History

namespace Drana

open Network

variable {ι : Type} {E : Env} {params : GenesisConfig}

/-! ## Several -/

/-- Nodes with their stores, and those whose process runs. Of the others only
the stores are left. -/
structure Fleet (ι : Type) where
  nodes : ι → Node
  live : Finset ι

inductive Phase (ι : Type)
  /-- A round of the `Run` loop among those that are up; each saves in its own order. -/
  | round (r : Round ι) (ord : ι → RangeOrder)
  /-- `NewNode`, then `Start`: the node asks these peers. -/
  | start (i : ι) (ord : RangeOrder) (peers : List ι) (met : Nat → Nat → Circumstances) (saveOrd : UInt64 → RangeOrder)
  | stop (i : ι) (ord : RangeOrder)
  /-- The process ends between two commits. -/
  | crash (i : ι)

def Phase.round? : Phase ι → Option (Round ι)
  | .round r _ => some r
  | _ => none

namespace Fleet

def engines (s : Fleet ι) (i : ι) : Engine := (s.nodes i).engine

variable [DecidableEq ι]

/-- A node as a peer to ask: no answer comes from one that is down. -/
def peer (s : Fleet ι) (i : ι) : SyncPeer :=
  if i ∈ s.live then responder (s.nodes i) else ⟨none, fun _ _ _ => .error "unavailable"⟩

/-- A start and its `SyncToNetwork` are one step: no block is made meanwhile. -/
def step (E : Env) (cfg : ι → NodeConfig) (s : Fleet ι) : Phase ι → Fleet ι
  | .round r ord =>
    { s with nodes := fun i =>
        if i ∈ s.live then (s.nodes i).run E (fun _ => ord i) (eventsAt (r.steps E s.engines) i) else s.nodes i }
  | .start i ord peers met saveOrd =>
    if i ∈ s.live then s
    else
      match newNode E (cfg i) ord (s.nodes i).blockStore (s.nodes i).kv with
      | .error _ => s
      | .ok n => ⟨Function.update s.nodes i (n.syncToNetwork E saveOrd (peers.map s.peer) met), insert i s.live⟩
  | .stop i ord =>
    if i ∈ s.live then ⟨Function.update s.nodes i ((s.nodes i).stop ord), s.live.erase i⟩ else s
  | .crash i => { s with live := s.live.erase i }

def run (E : Env) (cfg : ι → NodeConfig) (s : Fleet ι) (phases : List (Phase ι)) : Fleet ι := phases.foldl (step E cfg) s

/-- A round is fair, and its block can be stored. A node that starts asks one that
is up, unless it has no less on its disk than any other; its clock is not behind
the chain. -/
def Orderly (E : Env) (s : Fleet ι) : Phase ι → Prop
  | .round r _ => Fair E s.live s.engines r ∧ Sane r.timestamp ∧
    ∀ c, r.assemble E (s.engines r.proposer) = .ok c → Storable (s.engines r.proposer) c
  | .start i _ peers met _ =>
    ((∃ j ∈ peers, j ∈ s.live) ∨ ∀ j, (s.nodes j).diskHeight ≤ (s.nodes i).diskHeight) ∧
    (∀ k m, Sane (met k m).now) ∧
    ∀ j ∈ s.live, ∀ last ∈ (s.engines j).lastBlock, ∀ k m, last.header.timestamp ≤ (met k m).now
  | .stop _ _ => True
  | .crash _ => True

/-- All along a run. -/
def OrderlyAlong (E : Env) (cfg : ι → NodeConfig) : Fleet ι → List (Phase ι) → Prop
  | _, [] => True
  | s, p :: ps => s.Orderly E p ∧ OrderlyAlong E cfg (s.step E cfg p) ps

/-- Nothing has been started yet. -/
structure Unstarted (s : Fleet ι) : Prop where
  live : s.live = ∅
  blockStore : ∀ i, (s.nodes i).blockStore = {}
  kv : ∀ i, (s.nodes i).kv = ∅

/-- Nodes that are up stand at the end of the chain, in states that nobody can
tell apart, and have all of it on disk. The others have a first part of it. -/
structure OneChain (s : Fleet ι) (chain : List Block) : Prop where
  height : ∀ i ∈ s.live, (s.engines i).currentHeight.toNat = chain.length
  lastBlock : ∀ i ∈ s.live, (s.engines i).lastBlock = chain.getLast?
  state : ∀ i ∈ s.live, ∀ j ∈ s.live, (s.engines i).state = (s.engines j).state
  disk : ∀ i, ∃ bs, bs <+: chain ∧ (i ∈ s.live → bs = chain) ∧
    ∀ h b, (s.nodes i).blockStore.getBlockByHeight h = .ok b ↔ b ∈ bs ∧ b.header.height = h

end Fleet

namespace Fleet

variable [DecidableEq ι] {cfg : ι → NodeConfig} {s : Fleet ι} {e e₀ e' : Engine} {chain bs : List Block}
  {c : Block × WorldState}
  {n : Node} {i : ι} {p : Phase ι} {ps : List (Phase ι)}

/-- **A round among nodes on the chain** makes a block that fits, and each of them commits it. -/
theorem round_fits {r : Round ι} (hup : ∀ i ∈ s.live, s.engines i = e.seat (cfg i)) (hs : Sound params e)
    (hkeys : ∀ i, (cfg i).HoldsKey E) (haddr : Function.Injective fun i => (cfg i).address)
    (hf : Fair E s.live s.engines r)
    (hsane : Sane r.timestamp) (hstorable : ∀ c, r.assemble E (s.engines r.proposer) = .ok c →
      Storable (s.engines r.proposer) c) :
    ∃ c, Fits E e c ∧ c.1.header.timestamp = r.timestamp ∧ c.1.header.proposerAddr = (cfg r.proposer).address ∧
      ∀ i ∈ s.live, ((s.engines i).commitsAlong E (eventsAt (r.steps E s.engines) i)).map (·.1) = [c.1] := by
  have hproposer := hup _ hf.proposer
  have htracks : ∀ {a b : NodeConfig}, Tracks (e.seat a) (e.seat b) :=
    fun {a b} => ⟨rfl, rfl, .refl, hs.indexed.keyed, rfl, rfl⟩
  have hin : LockStep s.live s.engines := by
    intro i hi j hj
    rw [hup i hi, hup j hj]
    exact htracks
  have hcur : (s.engines r.proposer).Current := by
    rw [hproposer]
    exact hs.current
  have hholds : ∀ i ∈ s.live, HoldsKey E (s.engines i) := by
    intro i hi
    rw [hup i hi]
    exact ⟨(hkeys i).address, (hkeys i).verifies⟩
  have hinj : Set.InjOn (fun i => (s.engines i).address) s.live := by
    intro i hi j hj heq
    simp only [hup i hi, hup j hj] at heq
    exact haddr heq
  obtain ⟨⟨block, newState⟩, h⟩ := Except.exists_ok hf.executes
  obtain ⟨qc, hcert, hall⟩ := hf.commits hin hcur hholds hinj h
  obtain ⟨hevidence, hnew⟩ := hf.above h
  obtain ⟨hblock, happly⟩ := Engine.assembleBlock_ok h
  dsimp only at hblock happly
  have hvalid := hf.valid hin hcur h hf.proposer (onTime_self hsane) (o := r.o) (some qc)
  have hstored := hstorable _ h
  rw [hproposer] at hcert hnew happly hvalid hstored
  have hback : Tracks (e.seat (cfg r.proposer)) e := ⟨rfl, rfl, .refl, hs.indexed.keyed, rfl, rfl⟩
  have hchecked : e.validateBlock E r.o r.timestamp { block with qc := some qc } = .ok () :=
    hback.validateBlock hvalid (Int64.le_refl _) hsane
  have htimestamp : block.header.timestamp = r.timestamp := by rw [hblock]
  have haccepted : e.acceptFinalized E r.o r.o.block r.timestamp (Block.finalized { block with qc := some qc }) =
      .ok (some ({ block with qc := some qc }, newState)) := acceptFinalized_of rfl hevidence hnew hcert hchecked happly
  rw [← htimestamp] at haccepted
  refine ⟨({ block with qc := some qc }, newState),
    ⟨⟨r.o, r.o.block, haccepted⟩, ⟨hstored.stakes, hstored.counts, hstored.texts⟩⟩,
    htimestamp, ?_, fun i hi => ?_⟩
  · rw [hblock, hproposer]
    rfl
  · obtain ⟨ord, ws, -, hcommits⟩ := hall i hi
    rw [hcommits]
    rfl

/-! ## All of them -/

/-- A node has a first part of a history on its disk. -/
def HasPart (E : Env) (params : GenesisConfig) (cfg : NodeConfig) (e₀ : Engine) (n : Node) (chain : List Block)
    (e : Engine) : Prop :=
  ∃ bs bs' e', chain = bs ++ bs' ∧ Grown E e₀ bs e' ∧ Grown E e' bs' e ∧ (bs = [] ∧ Blank n ∨ Up E params cfg e' n bs)

/-- Those that are up are at the end of one history, of which each disk has a
first part, and some disk the whole. -/
structure Coherent (E : Env) (params : GenesisConfig) (cfg : ι → NodeConfig) (e₀ : Engine) (s : Fleet ι)
    (chain : List Block)
    (e : Engine) : Prop where
  grown : Grown E e₀ chain e
  up : ∀ i ∈ s.live, Up E params (cfg i) e (s.nodes i) chain
  disk : ∀ i, HasPart E params (cfg i) e₀ (s.nodes i) chain e
  whole : chain = [] ∨ ∃ i, Up E params (cfg i) e (s.nodes i) chain

theorem HasPart.of_up {cfg : NodeConfig} (h : Up E params cfg e n chain) (hg : Grown E e₀ chain e) :
    HasPart E params cfg e₀ n chain e := ⟨chain, [], e, (List.append_nil _).symm, hg, .nil, .inr h⟩

theorem HasPart.snoc {cfg : NodeConfig} (h : HasPart E params cfg e₀ n chain e) (hfits : Fits E e c) :
    HasPart E params cfg e₀ n (chain ++ [c.1]) (e.commitBlock c.1 c.2) := by
  obtain ⟨bs, bs', e', rfl, hg, hg', hdisk⟩ := h
  exact ⟨bs, bs' ++ [c.1], e', List.append_assoc _ _ _, hg, hg'.snoc hfits, hdisk⟩

theorem diskHeight_up {cfg : NodeConfig} (h : Up E params cfg e n bs) : n.diskHeight.toNat = bs.length := by
  have hlatest : n.diskHeight = chainHeight bs := by
    rw [Node.diskHeight, h.stored.indexes.latest, chainHeight]
    cases bs.getLast? <;> rfl
  rw [hlatest, h.stored.chainHeight, h.stored.height]

/-- One round. -/
theorem Coherent.round {r : Round ι} {ord : ι → RangeOrder} (h : Coherent E params cfg e₀ s chain e) (hs : Sound params e)
    (hkeys : ∀ i, (cfg i).HoldsKey E) (haddr : Function.Injective fun i => (cfg i).address)
    (ho : s.Orderly E (.round r ord)) :
    ∃ c : Block × WorldState, Coherent E params cfg e₀ (s.step E cfg (.round r ord)) (chain ++ [c.1])
    (e.commitBlock c.1 c.2) ∧
      c.1.header.timestamp = r.timestamp ∧ c.1.header.proposerAddr = (cfg r.proposer).address := by
  obtain ⟨hf, hsane, hstorable⟩ := ho
  obtain ⟨c, hfits, htime, hproposer, hcommits⟩ :=
    round_fits (fun i hi => (h.up i hi).engine) hs hkeys haddr hf hsane hstorable
  have hgrown := h.grown.snoc hfits
  have hafter : ∀ i ∈ s.live, Up E params (cfg i) (e.commitBlock c.1 c.2) ((s.step E cfg (.round r ord)).nodes i)
      (chain ++ [c.1]) := by
    intro i hi
    have hrun : Up E params (cfg i) (e.commitBlock c.1 c.2)
        ((s.nodes i).run E (fun _ => ord i) (eventsAt (r.steps E s.engines) i))
        (chain ++ [c.1]) := (h.up i hi).run hs (.cons hfits .nil) (hcommits i hi)
    simpa only [step, if_pos hi] using hrun
  refine ⟨c, ⟨hgrown, hafter, fun i => ?_, .inr ⟨r.proposer, hafter _ hf.proposer⟩⟩, htime, hproposer⟩
  by_cases hi : i ∈ s.live
  · exact .of_up (hafter i hi) hgrown
  · simpa only [step, if_neg hi] using (h.disk i).snoc hfits

/-- A node changes, and stays on the chain. -/
theorem Coherent.update {live : Finset ι} (h : Coherent E params cfg e₀ s chain e) (hn : Up E params (cfg i) e n chain)
    (hlive : ∀ j ∈ live, j ∈ s.live ∨ j = i) : Coherent E params cfg e₀ ⟨Function.update s.nodes i n, live⟩ chain e := by
  have hat : ∀ j, j = i ∨ Up E params (cfg j) e (s.nodes j) chain →
      Up E params (cfg j) e (Function.update s.nodes i n j) chain := by
    intro j hj
    by_cases hji : j = i
    · subst hji
      rwa [Function.update_self]
    · rw [Function.update_of_ne hji]
      exact hj.resolve_left hji
  refine ⟨h.grown, fun j hj => hat j ((hlive j hj).symm.imp_right (h.up j)), fun j => ?_, ?_⟩
  · by_cases hji : j = i
    · exact .of_up (hat j (.inl hji)) h.grown
    · simpa only [Function.update_of_ne hji] using h.disk j
  · exact h.whole.imp_right fun ⟨j, hj⟩ => ⟨j, hat j (.inr hj)⟩

theorem HasPart.newNode {cfg : NodeConfig} (h : HasPart E params cfg e₀ n chain e) (h₀ : AtGenesis E params e₀)
    (hcounts : CountsFit e₀.state) (hconfig : cfg.genesis = params) (hvalidator : cfg.IsValidator)
    (hbytes : params.maxPostBytes.toInt < 2 ^ 32) (ord : RangeOrder) :
    ∃ bs bs' e' n', chain = bs ++ bs' ∧ Grown E e' bs' e ∧ Sound params e' ∧
      Drana.newNode E cfg ord n.blockStore n.kv = .ok n' ∧ Up E params cfg e' n' bs ∧ bs.length = n.diskHeight.toNat := by
  obtain ⟨bs, bs', e', hchain, hg, hg', hdisk⟩ := h
  have hs := hg.sound (h₀.sound hcounts)
  rcases hdisk with ⟨rfl, hblank⟩ | hup
  · cases hg
    obtain ⟨n', hnew, hn'⟩ := hblank.newNode h₀ hconfig hvalidator hcounts ord
    refine ⟨[], bs', e₀, n', hchain, hg', hs, hnew, hn', ?_⟩
    rw [Node.diskHeight, hblank.blockStore]
    rfl
  · obtain ⟨n', hnew, hn'⟩ := hup.newNode hs h₀ hg hconfig hvalidator hbytes ord
    exact ⟨bs, bs', e', n', hchain, hg', hs, hnew, hn', (diskHeight_up hup).symm⟩

/-- One node starts. -/
theorem Coherent.start {ord : RangeOrder} {peers : List ι} {met : Nat → Nat → Circumstances}
    {saveOrd : UInt64 → RangeOrder}
    (h : Coherent E params cfg e₀ s chain e) (h₀ : AtGenesis E params e₀) (hcounts : CountsFit e₀.state)
    (hconfig : ∀ i, (cfg i).genesis = params) (hbytes : params.maxPostBytes.toInt < 2 ^ 32)
    (ho : s.Orderly E (.start i ord peers met saveOrd)) :
    Coherent E params cfg e₀ (s.step E cfg (.start i ord peers met saveOrd)) chain e := by
  rw [step]
  split
  · exact h
  · by_cases hvalidator : (cfg i).IsValidator
    case neg =>
      rw [newNode, Except.throwIf_of hvalidator]
      exact h
    obtain ⟨hreach, hsane, hclock⟩ := ho
    obtain ⟨bs, bs', e', n, rfl, hg, hs, hnew, hn, hlength⟩ :=
      (h.disk i).newNode h₀ hcounts (hconfig i) hvalidator hbytes ord
    rw [hnew]
    dsimp only
    have hanswers : ∀ p ∈ peers.map s.peer, AnswersFor E params e (bs ++ bs') p := by
      intro p hp
      obtain ⟨j, -, rfl⟩ := List.mem_map.mp hp
      rw [peer]
      split
      · next hj => exact .inr ⟨cfg j, s.nodes j, rfl, h.up j hj⟩
      · exact .inl rfl
    -- Where nobody answers the node has the whole chain.
    have hwhole : (∃ j ∈ peers, j ∈ s.live) ∨ bs' = [] := by
      refine hreach.imp_right fun hmost => ?_
      rcases h.whole with hnil | ⟨j, hj⟩
      · exact (List.append_eq_nil_iff.mp hnil).2
      · have hle := UInt64.le_iff_toNat_le.mp (hmost j)
        rw [diskHeight_up hj, ← hlength, List.length_append] at hle
        exact List.length_eq_zero_iff.mp (by omega)
    have hsome : bs' = [] ∨ ∃ p ∈ peers.map s.peer, p.latestHeight.isSome := by
      refine hwhole.symm.imp_right fun hpeer => ?_
      obtain ⟨j, hj, hlive⟩ := hpeer
      refine ⟨s.peer j, List.mem_map_of_mem hj, ?_⟩
      rw [peer, if_pos hlive]
      rfl
    have hearly : ∀ b ∈ bs', ∀ k m, b.header.timestamp ≤ (met k m).now := by
      intro b hb k m
      obtain ⟨j, -, hlive⟩ := hwhole.resolve_right (List.ne_nil_of_mem hb)
      have hlast : e.lastBlock = some (bs'.getLast (List.ne_nil_of_mem hb)) := by
        rw [hg.lastBlock, List.getLast?_eq_some_getLast (List.ne_nil_of_mem hb)]
        rfl
      have hengine : (s.engines j).lastBlock = e.lastBlock := congrArg (·.lastBlock) (h.up j hlive).engine
      have htime := hclock j hlive _ (hengine.trans hlast) k m
      exact Int64.le_trans (hg.times b (List.mem_append_right _ hb) _ hlast) htime
    exact h.update (hn.sync hs hg hanswers hsome hearly hsane saveOrd) fun j hj => (Finset.mem_insert.mp hj).symm

theorem Coherent.stop {ord : RangeOrder} (h : Coherent E params cfg e₀ s chain e) (hs : Sound params e) :
    Coherent E params cfg e₀ (s.step E cfg (.stop i ord)) chain e := by
  rw [step]
  split
  · next hi => exact h.update ((h.up i hi).stop hs) fun j hj => .inl (Finset.mem_of_mem_erase hj)
  · exact h

theorem Coherent.crash (h : Coherent E params cfg e₀ s chain e) :
    Coherent E params cfg e₀ (s.step E cfg (.crash i)) chain e :=
  ⟨h.grown, fun j hj => h.up j (Finset.mem_of_mem_erase hj), h.disk, h.whole⟩

/-- All phases: one block for each round. -/
theorem Coherent.run (h : Coherent E params cfg e₀ s chain e) (h₀ : AtGenesis E params e₀) (hcounts : CountsFit e₀.state)
    (hconfig : ∀ i, (cfg i).genesis = params) (hbytes : params.maxPostBytes.toInt < 2 ^ 32)
    (hkeys : ∀ i, (cfg i).HoldsKey E)
    (haddr : Function.Injective fun i => (cfg i).address) (ho : OrderlyAlong E cfg s ps) :
    ∃ bs e', Coherent E params cfg e₀ (s.run E cfg ps) (chain ++ bs) e' ∧
      bs.map (·.header.timestamp) = (ps.filterMap Phase.round?).map (·.timestamp) ∧
      bs.map (·.header.proposerAddr) = (ps.filterMap Phase.round?).map fun r => (cfg r.proposer).address := by
  induction ps generalizing s chain e with
  | nil => exact ⟨[], e, by rwa [List.append_nil], rfl, rfl⟩
  | cons p ps ih =>
    obtain ⟨hp, ho⟩ := ho
    have hs := h.grown.sound (h₀.sound hcounts)
    cases p with
    | round r ord =>
      obtain ⟨c, hround, htime, hproposer⟩ := h.round hs hkeys haddr hp
      obtain ⟨bs, e', hrun, htimes, hproposers⟩ := ih hround ho
      rw [List.append_assoc] at hrun
      refine ⟨c.1 :: bs, e', hrun, ?_, ?_⟩
      · rw [List.map_cons, htimes, htime]
        rfl
      · rw [List.map_cons, hproposers, hproposer]
        rfl
    | start i ord peers met saveOrd => exact ih (h.start h₀ hcounts hconfig hbytes hp) ho
    | stop i ord => exact ih (h.stop hs) ho
    | crash i => exact ih h.crash ho

theorem Coherent.oneChain (h : Coherent E params cfg e₀ s chain e) (h₀ : AtGenesis E params e₀) : s.OneChain chain where
  height i hi := by
    obtain ⟨hsame, hlength⟩ := (h.up i hi).height
    rw [engines, hsame, hlength]
  lastBlock i hi := by
    rw [engines, (h.up i hi).engine]
    show e.lastBlock = _
    rw [h.grown.lastBlock, h₀.lastBlock, Option.or_none]
  state i hi j hj := by
    rw [engines, engines, (h.up i hi).engine, (h.up j hj).engine]
    rfl
  disk i := by
    by_cases hi : i ∈ s.live
    · exact ⟨chain, List.prefix_refl _, fun _ => rfl, fun height b => (h.up i hi).stored.indexes.getBlockByHeight_ok⟩
    · obtain ⟨bs, bs', e', hchain, -, -, hdisk⟩ := h.disk i
      refine ⟨bs, ⟨bs', hchain.symm⟩, fun hlive => absurd hlive hi, fun height b => ?_⟩
      rcases hdisk with ⟨rfl, hblank⟩ | hup
      · have hempty : Indexes E {} [] := .empty
        rw [hblank.blockStore]
        exact hempty.getBlockByHeight_ok
      · exact hup.stored.indexes.getBlockByHeight_ok

omit [DecidableEq ι] in
/-- Before anything is started, all is coherent. -/
theorem Unstarted.coherent {ws₀ : WorldState} (hs : s.Unstarted) (cfg : ι → NodeConfig)
    (h₀ : initializeState E params = .ok ws₀)
    (hvalidators : params.validators.length < 2 ^ 32) :
    AtGenesis E params (newEngine ⟨params, .zero, .zero⟩ ws₀ none) ∧ CountsFit ws₀ ∧
      Coherent E params cfg (newEngine ⟨params, .zero, .zero⟩ ws₀ none) s []
      (newEngine ⟨params, .zero, .zero⟩ ws₀ none) := by
  refine ⟨⟨rfl, rfl, h₀, rfl, initializeState_chainHeight h₀⟩, ?_, ?_⟩
  · have hschedule := initializeState_schedule h₀
    have hactive : ws₀.activeValidators = params.validators.map initialValidator := congrArg Schedule.validators hschedule
    have hqueue : ws₀.unbondingQueue = [] := congrArg Schedule.queue hschedule
    rw [CountsFit, hactive, hqueue, List.length_map]
    exact ⟨hvalidators, by decide⟩
  · refine ⟨.nil, fun i hi => ?_, fun i => ⟨[], [], _, rfl, .nil, .nil, .inl ⟨rfl, hs.blockStore i, hs.kv i⟩⟩, .inl rfl⟩
    rw [hs.live] at hi
    cases hi

/-- **One chain, whoever comes and goes**: nodes start, on disks of any age,
stop and crash, and those that are up go round after round. Each round adds its
block, those that are up are always at the end of the chain, in one state, and
every disk has a first part of it. The run is orderly: a node starts and syncs
in one step, from a peer that is up or with the longest disk, and what a
proposer has selected executes. -/
theorem one_chain {ws₀ : WorldState} (h₀ : initializeState E params = .ok ws₀) (hconfig : ∀ i, (cfg i).genesis = params)
    (hvalidators : params.validators.length < 2 ^ 32) (hbytes : params.maxPostBytes.toInt < 2 ^ 32)
    (hkeys : ∀ i, (cfg i).HoldsKey E) (haddr : Function.Injective fun i => (cfg i).address) (hs : s.Unstarted)
    (ho : OrderlyAlong E cfg s ps) :
    ∃ chain, (s.run E cfg ps).OneChain chain ∧
      chain.map (·.header.timestamp) = (ps.filterMap Phase.round?).map (·.timestamp) ∧
      chain.map (·.header.proposerAddr) = (ps.filterMap Phase.round?).map fun r => (cfg r.proposer).address := by
  obtain ⟨hgenesis, hcounts, hcoherent⟩ := hs.coherent cfg h₀ hvalidators
  obtain ⟨chain, e, hrun, htimes, hproposers⟩ := hcoherent.run hgenesis hcounts hconfig hbytes hkeys haddr ho
  exact ⟨chain, hrun.oneChain hgenesis, htimes, hproposers⟩

/-! ## Four nodes -/

theorem run_append {ps' : List (Phase ι)} : s.run E cfg (ps ++ ps') = (s.run E cfg ps).run E cfg ps' := List.foldl_append

theorem run_singleton {p : Phase ι} : s.run E cfg [p] = s.step E cfg p := rfl

theorem OrderlyAlong.append {ps' : List (Phase ι)} (h : OrderlyAlong E cfg s ps)
    (h' : OrderlyAlong E cfg (s.run E cfg ps) ps') :
    OrderlyAlong E cfg s (ps ++ ps') := by
  induction ps generalizing s with
  | nil => exact h'
  | cons p ps ih => exact ⟨h.1, ih h.2 h'⟩

/-- The first to start ask nobody. -/
theorem start_alone (ord : RangeOrder) (met : Nat → Nat → Circumstances) (saveOrd : UInt64 → RangeOrder)
    (h₀ : AtGenesis E params e)
    (hcounts : CountsFit e.state) (hconfig : (cfg i).genesis = params) (hvalidator : (cfg i).IsValidator)
    (hi : i ∉ s.live) (hb : Blank (s.nodes i)) :
    ∃ n, n.engine = e.seat (cfg i) ∧ n.diskHeight = 0 ∧
      s.step E cfg (.start i ord [] met saveOrd) = ⟨Function.update s.nodes i n, insert i s.live⟩ := by
  obtain ⟨n, hnew, hup⟩ := hb.newNode h₀ hconfig hvalidator hcounts ord
  refine ⟨n, hup.engine, UInt64.toNat_inj.mp (diskHeight_up hup), ?_⟩
  rw [step, if_neg hi, hnew]
  rfl

/-- Who is up stays up, unless it stops or crashes. -/
theorem live_start {ord : RangeOrder} {peers : List ι} {met : Nat → Nat → Circumstances} {saveOrd : UInt64 → RangeOrder}
    {j : ι}
    (hj : j ∈ s.live) : j ∈ (s.step E cfg (.start i ord peers met saveOrd)).live := by
  rw [step]
  split
  · exact hj
  · split
    · exact hj
    · exact Finset.mem_insert_of_mem hj

omit [DecidableEq ι] in
theorem OneChain.clock {t : Int64} (h : s.OneChain chain) (ht : ∀ b ∈ chain, b.header.timestamp ≤ t) :
    ∀ j ∈ s.live, ∀ last ∈ (s.engines j).lastBlock, last.header.timestamp ≤ t := by
  intro j hj last hlast
  rw [h.lastBlock j hj] at hlast
  exact ht last (List.mem_of_getLast? hlast)

end Fleet

section

open Sample

namespace Fleet

def seat (i : Fin 4) : NodeConfig := ⟨config4, key (UInt8.ofNat (i + 1)), address (UInt8.ofNat (i + 1))⟩

/-- Four empty disks. -/
def unstarted : Fleet (Fin 4) := ⟨fun i => ⟨quad i, {}, ∅⟩, ∅⟩

/-- A node asks these peers, soon after the first block. -/
def startAt (i : Fin 4) (peers : List (Fin 4)) : Phase (Fin 4) := .start i order peers later fun _ => order

def opening (i j k : Fin 4) : List (Phase (Fin 4)) :=
  [startAt i [], startAt j [], startAt k [], .round (threeOfFour i j k 10) fun _ => order]

/-- One of the three crashes and comes back, and the fourth comes. -/
def comings (i j l : Fin 4) : List (Phase (Fin 4)) := [.crash j, startAt j [i], startAt l [i]]

theorem opening_times (i j k : Fin 4) : ((opening i j k).filterMap Phase.round?).map (·.timestamp) = [10] := rfl

theorem comings_rounds (i j l : Fin 4) : (comings i j l).filterMap Phase.round? = [] := rfl

theorem unstarted_unstarted : unstarted.Unstarted := ⟨rfl, fun _ => rfl, fun _ => rfl⟩

theorem seat_genesis (i : Fin 4) : (seat i).genesis = config4 := rfl

theorem seat_quad (i : Fin 4) : (quad 0).seat (seat i) = quad i := rfl

theorem seat_validator (i : Fin 4) : (seat i).IsValidator := by
  revert i
  decide

theorem quad_atGenesis (i : Fin 4) : AtGenesis env config4 (quad i) := ⟨rfl, rfl, genesis4_ok, rfl, rfl⟩

theorem quad_counts (i : Fin 4) : CountsFit (quad i).state := by
  have hcounts : CountsFit genesis4 := by decide +kernel
  exact hcounts

/-- Before the first block. -/
structure Opened (s : Fleet (Fin 4)) : Prop where
  engines : s.engines = quad
  disks : ∀ i, (s.nodes i).diskHeight = 0
  blank : ∀ i, i ∉ s.live → Blank (s.nodes i)

variable {s : Fleet (Fin 4)} {i j : Fin 4} {chain : List Block}

theorem later_sane (n m : Nat) : Sane (later n m).now := by
  show (12 : Int64).toInt + 16 < 2 ^ 63
  decide

theorem Opened.start (h : s.Opened) (hi : i ∉ s.live) : s.Orderly env (startAt i []) ∧
    (s.step env seat (startAt i [])).Opened ∧
    (s.step env seat (startAt i [])).live = insert i s.live := by
  obtain ⟨n, hengine, hdisk, hstep⟩ : ∃ n : Node, n.engine = (quad 0).seat (seat i) ∧ n.diskHeight = 0 ∧
      s.step env seat (startAt i []) = ⟨Function.update s.nodes i n, insert i s.live⟩ :=
    start_alone order later (fun _ => order) (quad_atGenesis 0) (quad_counts 0) rfl (seat_validator i) hi (h.blank i hi)
  rw [hstep]
  refine ⟨⟨.inr fun j => ?_, later_sane, fun j hj last hlast => ?_⟩, ⟨funext fun j => ?_, fun j => ?_, fun j hj => ?_⟩,
    rfl⟩
  · rw [h.disks, h.disks]
    exact UInt64.le_refl 0
  · rw [h.engines] at hlast
    cases hlast
  · show (Function.update s.nodes i n j).engine = quad j
    by_cases hji : j = i
    · subst hji
      rw [Function.update_self, hengine, seat_quad]
    · rw [Function.update_of_ne hji]
      exact congrFun h.engines j
  · show (Function.update s.nodes i n j).diskHeight = 0
    by_cases hji : j = i
    · subst hji
      rwa [Function.update_self]
    · rw [Function.update_of_ne hji]
      exact h.disks j
  · obtain ⟨hji, hj⟩ := not_or.mp fun hmem => hj (Finset.mem_insert.mpr hmem)
    show Blank (Function.update s.nodes i n j)
    rw [Function.update_of_ne hji]
    exact h.blank j hj

theorem first_storable : ∀ c, (threeOfFour 0 1 2 10).assemble env (quad 0) = .ok c → Storable (quad 0) c := by
  have hrun : ((threeOfFour 0 1 2 10).assemble env (quad 0)).isOk = true ∧
      CountsFit ((threeOfFour 0 1 2 10).assemble env (quad 0)).value.2 ∧
      (∀ tx ∈ ((threeOfFour 0 1 2 10).assemble env (quad 0)).value.1.transactions,
        validString tx.text = true ∧ validString tx.channel = true) := by
    decide +kernel
  intro c hc
  obtain ⟨-, hcounts, htexts⟩ := hrun
  rw [hc] at hcounts htexts
  refine ⟨fun p a hs => ?_, hcounts, htexts⟩
  -- Nothing is staked at genesis.
  have hnone : genesis4.postStakes = ∅ := (initializeState_fresh genesis4_ok).1.postStakes
  have hs : (genesis4.getPostStake p a).isSome := hs
  rw [WorldState.getPostStake, hnone, Finmap.lookup_empty] at hs
  cases hs

theorem opening_orderly : OrderlyAlong env seat unstarted (opening 0 1 2) ∧
    (unstarted.run env seat (opening 0 1 2)).live = present := by
  have hopened : unstarted.Opened := ⟨rfl, fun _ => rfl, fun _ _ => ⟨rfl, rfl⟩⟩
  obtain ⟨h₁, ho₁, hl₁⟩ := hopened.start (i := 0) (Finset.notMem_empty 0)
  obtain ⟨h₂, ho₂, hl₂⟩ := ho₁.start (i := 1) (by rw [hl₁]; decide)
  obtain ⟨h₃, ho₃, hl₃⟩ := ho₂.start (i := 2) (by rw [hl₂, hl₁]; decide)
  have hlive : (((unstarted.step env seat (startAt 0 [])).step env seat (startAt 1 [])).step env seat
      (startAt 2 [])).live = present := by
    rw [hl₃, hl₂, hl₁]
    decide
  refine ⟨⟨h₁, h₂, h₃, ⟨?_, (by decide : OnTime 10 10).2, ?_⟩, trivial⟩, hlive⟩
  · rw [hlive, ho₃.engines]
    exact threeOfFour_fair (by decide) threeOfFour_fairly
  · rw [ho₃.engines]
    exact first_storable

/-- Who starts when there is a block asks the first. -/
theorem later_orderly (h : s.OneChain chain) (htimes : chain.map (·.header.timestamp) = [10]) (hi : i ∈ s.live) :
    s.Orderly env (startAt j [i]) := by
  refine ⟨.inl ⟨i, List.mem_singleton_self i, hi⟩, later_sane, fun j hj last hlast k m => ?_⟩
  refine h.clock (t := 12) (fun b hb => ?_) j hj last hlast
  have hmem : b.header.timestamp ∈ chain.map (·.header.timestamp) := List.mem_map_of_mem hb
  rw [htimes, List.mem_singleton] at hmem
  rw [hmem]
  decide

theorem seat_holdsKey (i : Fin 4) : (seat i).HoldsKey env := ⟨rfl, fun _ => verify_sign⟩

theorem seat_injective : Function.Injective fun i => (seat i).address := by
  have hinj : ∀ i j : Fin 4, (seat i).address = (seat j).address → i = j := by decide +kernel
  exact fun i j h => hinj i j h

/-- After an opening with one block the others may come and go. -/
theorem comings_orderly {s₀ : Fleet (Fin 4)} {ps : List (Phase (Fin 4))} {l : Fin 4} {live : Finset (Fin 4)}
    (hrun : ∀ qs, OrderlyAlong env seat s₀ qs → ∃ chain, (s₀.run env seat qs).OneChain chain ∧
      chain.map (·.header.timestamp) = (qs.filterMap Phase.round?).map (·.timestamp))
    (ho : OrderlyAlong env seat s₀ ps) (htimes : (ps.filterMap Phase.round?).map (·.timestamp) = [10]) (hij : i ≠ j)
    (hlive : (s₀.run env seat ps).live = live) (hi : i ∈ live) : OrderlyAlong env seat s₀ (ps ++ comings i j l) := by
  have hnone : ∀ {p : Phase (Fin 4)}, p.round? = none → [p].filterMap Phase.round? = [] :=
    fun hp => List.filterMap_cons_none hp
  have hcrash : OrderlyAlong env seat s₀ (ps ++ [.crash j]) := ho.append ⟨trivial, trivial⟩
  have hstays : i ∈ (s₀.run env seat (ps ++ [.crash j])).live := by
    rw [run_append]
    exact Finset.mem_erase.mpr ⟨hij, hlive ▸ hi⟩
  obtain ⟨chain, hchain, heq⟩ := hrun _ hcrash
  have hback : OrderlyAlong env seat s₀ (ps ++ [.crash j] ++ [startAt j [i]]) := by
    refine hcrash.append ⟨later_orderly hchain ?_ hstays, trivial⟩
    rwa [heq, List.filterMap_append, hnone rfl, List.append_nil]
  have hagain : i ∈ (s₀.run env seat (ps ++ [.crash j] ++ [startAt j [i]])).live := by
    rw [run_append, run_singleton]
    exact live_start hstays
  obtain ⟨chain, hchain, heq⟩ := hrun _ hback
  have hall : OrderlyAlong env seat s₀ (ps ++ [.crash j] ++ [startAt j [i]] ++ [startAt l [i]]) := by
    refine hback.append ⟨later_orderly hchain ?_ hagain, trivial⟩
    rwa [heq, List.filterMap_append, List.filterMap_append, hnone rfl, hnone rfl, List.append_nil, List.append_nil]
  rw [List.append_assoc, List.append_assoc] at hall
  exact hall

/-- The node that crashes and the one that comes late have the block, too. -/
theorem one_chain_comings : ∃ chain, (unstarted.run env seat (opening 0 1 2 ++ comings 0 1 3)).OneChain chain ∧
    chain.map (·.header.timestamp) = [10] := by
  have hrun : ∀ ps, OrderlyAlong env seat unstarted ps → ∃ chain, (unstarted.run env seat ps).OneChain chain ∧
      chain.map (·.header.timestamp) = (ps.filterMap Phase.round?).map (·.timestamp) := by
    intro ps hps
    obtain ⟨chain, hchain, htimes, -⟩ := one_chain genesis4_ok seat_genesis (by decide) (by decide) seat_holdsKey
      seat_injective unstarted_unstarted hps
    exact ⟨chain, hchain, htimes⟩
  obtain ⟨hopening, hlive⟩ := opening_orderly
  obtain ⟨chain, hchain, htimes⟩ := hrun _ (comings_orderly hrun hopening (opening_times 0 1 2) zero_ne_one hlive
    (by decide))
  rw [List.filterMap_append, comings_rounds, List.append_nil, opening_times] at htimes
  exact ⟨chain, hchain, htimes⟩

end Fleet

end

end Drana
