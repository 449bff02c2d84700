/-
Progress: while nodes with a quorum between them hear each other, each round of
the `Run` loop (`internal/consensus/engine.go`) whose proposer is one of them
adds a block, and it is the same block at all of them. The other peers may be
down, or reply to a proposal what they like.
-/
import Drana.CatchUp

namespace Drana

open Network

variable {ι : Type} {E : Env}

/-! ## Rounds -/

/-- A peer that is asked for its vote: a node, and the circumstances in which the
proposal meets it, or somebody else, and what comes back. -/
inductive Peer (ι : Type)
  | node (j : ι) (o : Orders) (now : Int64)
  | stranger (reply : Option BlockVote)

/-- A node that `NotifyFinalized` reaches. -/
structure Notice (ι : Type) where
  node : ι
  met : Circumstances

/-- One iteration of the `Run` loop, at the node whose turn it is; its peers in
the order of `Peers()`. -/
structure Round (ι : Type) where
  proposer : ι
  mempool : Mempool
  reapOrder : Mempool.ReapOrder
  o : Orders
  timestamp : Int64
  peers : List (Peer ι)
  notices : List (Notice ι)

namespace Peer

def proposal (block : PbBlock) : Peer ι → Option (ι × Event)
  | .node j o now => some (j, .proposal o now block)
  | .stranger _ => none

def reply (E : Env) (nodes : ι → Engine) (block : PbBlock) : Peer ι → Option BlockVote
  | .node j o now => ((nodes j).onProposal E o now block).toOption
  | .stranger reply => reply

def node? : Peer ι → Option ι
  | .node j _ _ => some j
  | .stranger _ => none

def stranger? : Peer ι → Option BlockVote
  | .node _ _ _ => none
  | .stranger reply => reply

end Peer

/-- A block as it arrives. -/
def Block.sent (b : Block) : PbBlock := ⟨b.header, b.transactions, b.qc⟩

/-- A committed block as it arrives with its certificate. -/
def Block.finalized (b : Block) : FinalizedBlock := ⟨b.sent, b.qc⟩

namespace Round

def txs (E : Env) (r : Round ι) (e : Engine) : List Transaction :=
  r.mempool.reapForBlock E r.reapOrder e.state.reader e.params e.params.maxTxPerBlock

def assemble (E : Env) (r : Round ι) (e : Engine) : Except String (Block × WorldState) :=
  e.assembleBlock E r.o (e.currentHeight + 1) (r.txs E e) r.timestamp

def replies (E : Env) (r : Round ι) (nodes : ι → Engine) (block : Block) : List BlockVote :=
  r.peers.filterMap (Peer.reply E nodes block.sent)

def notify (r : Round ι) (block : Block) : List (ι × Event) :=
  r.notices.map fun n => (n.node, .finalized n.met.o n.met.ord n.met.now block.finalized)

/-- What happens in the round: nothing, if it is not the node's turn or its own
selection does not execute; no block, if the votes are too few. -/
def steps (E : Env) (nodes : ι → Engine) (r : Round ι) : List (ι × Event) :=
  let e := nodes r.proposer
  let height := e.currentHeight + 1
  if isProposer e.activeValidators height e.address then
    match r.assemble E e with
    | .error _ => []
    | .ok (block, newState) =>
      let replies := r.replies E nodes block
      r.peers.filterMap (Peer.proposal block.sent) ++
        (r.proposer, .propose r.o height (r.txs E e) r.timestamp replies) ::
          match e.certifyProposal E block newState replies with
          | .error _ => []
          | .ok c => r.notify c.1
  else []

/-- Rounds one after the other. -/
def stepsAll [DecidableEq ι] (E : Env) : (ι → Engine) → List (Round ι) → List (ι × Event)
  | _, [] => []
  | nodes, r :: rs => r.steps E nodes ++ stepsAll E (after E nodes (r.steps E nodes)) rs

end Round

/-! ## What a round needs -/

/-- Nodes on one block, in states that nobody can tell apart. -/
def LockStep (live : Finset ι) (nodes : ι → Engine) : Prop := ∀ i ∈ live, ∀ j ∈ live, Tracks (nodes i) (nodes j)

/-- A clock at which a block of this time is not too far ahead. -/
def OnTime (timestamp now : Int64) : Prop := timestamp ≤ now + allowedFutureDrift ∧ Sane now

/-- The round is of the node whose turn it is, its selection executes, it is
later than the last block, and the clocks of the others are not behind by more
than the drift. The live nodes that it reaches make a quorum, and each of them
hears of the block. -/
structure Fair (E : Env) (live : Finset ι) (nodes : ι → Engine) (r : Round ι) : Prop where
  proposer : r.proposer ∈ live
  turn : isProposer (nodes r.proposer).activeValidators ((nodes r.proposer).currentHeight + 1)
    (nodes r.proposer).address = true
  executes : (r.assemble E (nodes r.proposer)).isOk = true
  height : (nodes r.proposer).currentHeight.toNat + 1 < 2 ^ 64
  later : ∀ last ∈ (nodes r.proposer).lastBlock, last.header.timestamp < r.timestamp
  asked : ∀ j o now, Peer.node j o now ∈ r.peers → j ∈ live ∧ OnTime r.timestamp now
  once : (r.proposer :: r.peers.filterMap Peer.node?).Nodup
  quorum : (quorumThreshold (nodes r.proposer).activeValidators).toNat ≤
    ((r.proposer :: r.peers.filterMap Peer.node?).map fun j => stakeOf (nodes r.proposer).activeValidators
      (nodes j).address).sum
  /-- Not so many votes of others that the sum wraps. -/
  room : ((r.proposer :: r.peers.filterMap Peer.node?).map fun j =>
      stakeOf (nodes r.proposer).activeValidators (nodes j).address).sum +
    ((r.peers.filterMap Peer.stranger?).map fun vote => stakeOf (nodes r.proposer).activeValidators vote.voterAddr).sum <
      2 ^ 64
  total : Quorum.weight (stakeOf (nodes r.proposer).activeValidators) (members (nodes r.proposer).activeValidators) <
    2 ^ 64
  noticed : ∀ i ∈ live, i ≠ r.proposer → ∃ n ∈ r.notices, n.node = i
  onTime : ∀ n ∈ r.notices, n.node ∈ live → OnTime r.timestamp n.met.now

def FairAll [DecidableEq ι] (E : Env) (live : Finset ι) : (ι → Engine) → List (Round ι) → Prop
  | _, [] => True
  | nodes, r :: rs => Fair E live nodes r ∧ FairAll E live (after E nodes (r.steps E nodes)) rs

/-! ## What a run commits -/

namespace Engine

variable {e : Engine} {ev : Event} {evs evs' : List Event} {c : Block × WorldState}

/-- The blocks that a run commits, and the states after them. -/
def commitsAlong (E : Env) : Engine → List Event → List (Block × WorldState)
  | _, [] => []
  | e, ev :: evs => (e.commits E ev).toList ++ commitsAlong E (e.next E ev) evs

theorem commitsAlong_none (h : e.commits E ev = none) : e.commitsAlong E (ev :: evs) = e.commitsAlong E evs := by
  rw [commitsAlong, next_of_none h, h]
  rfl

theorem commitsAlong_some (h : e.commits E ev = some c) :
    e.commitsAlong E (ev :: evs) = c :: (e.commitBlock c.1 c.2).commitsAlong E evs := by
  rw [commitsAlong, next_of_commits h, h]
  rfl

theorem commitsAlong_append : e.commitsAlong E (evs ++ evs') = e.commitsAlong E evs ++
    (e.run E evs).commitsAlong E evs' := by
  induction evs generalizing e with
  | nil => rfl
  | cons ev evs ih => rw [List.cons_append, commitsAlong, commitsAlong, ih, List.append_assoc, run, run, List.foldl_cons]

theorem run_eq : e.run E evs = (e.commitsAlong E evs).foldl (fun e c => e.commitBlock c.1 c.2) e := by
  induction evs generalizing e with
  | nil => rfl
  | cons ev evs ih =>
    rw [run, List.foldl_cons, ← run, ih]
    cases h : e.commits E ev with
    | none => rw [next_of_none h, commitsAlong_none h]
    | some c => rw [next_of_commits h, commitsAlong_some h, List.foldl_cons]

theorem run_of_nil (h : e.commitsAlong E evs = []) : e.run E evs = e := by
  rw [run_eq, h]
  rfl

end Engine

/-! ## The votes -/

section Votes

variable {vs : List ValidatorStake} {h : UInt64} {hash : Hash} {votes votes' : List BlockVote} {vote : BlockVote}

theorem repeatedStake_cons : repeatedStake E vs h hash (vote :: votes) =
    (if IsVoteFor E h hash vote then stakeOf vs vote.voterAddr else 0) + repeatedStake E vs h hash votes := by
  unfold repeatedStake votesOf
  split
  · next hv => rw [List.filter_cons_of_pos (by simpa using hv), List.map_cons, List.sum_cons]
  · next hv => rw [List.filter_cons_of_neg (by simpa using hv), Nat.zero_add]

/-- A voter's stake is counted with each of its votes. -/
theorem voterStake_le : voterStake E vs h hash votes ≤ repeatedStake E vs h hash votes := by
  induction votes with
  | nil => exact Nat.le_refl _
  | cons vote votes ih =>
    rw [repeatedStake_cons, voterStake, votersOf_cons]
    split
    · have hinsert : Quorum.weight (stakeOf vs) (insert vote.voterAddr (votersOf E h hash votes)) ≤
          stakeOf vs vote.voterAddr + voterStake E vs h hash votes := by
        by_cases hmem : vote.voterAddr ∈ votersOf E h hash votes
        · rw [Finset.insert_eq_of_mem hmem]
          exact Nat.le_add_left _ _
        · rw [Quorum.weight, Finset.sum_insert hmem]
          rfl
      omega
    · rw [Nat.zero_add]
      exact ih

theorem repeatedStake_le : repeatedStake E vs h hash votes ≤ (votes.map fun vote => stakeOf vs vote.voterAddr).sum :=
  (List.filter_sublist.map _).sum_le_sum fun _ _ => Nat.zero_le _

/-- Distinct voters who are among the votes' are no more than they. -/
theorem sum_le_voterStake {as : List Address} (hn : as.Nodup) (hmem : ∀ a ∈ as, a ∈ votersOf E h hash votes) :
    (as.map (stakeOf vs)).sum ≤ voterStake E vs h hash votes := by
  rw [← List.sum_toFinset _ hn]
  exact Quorum.weight_mono fun a ha => hmem a (List.mem_toFinset.mp ha)

theorem voterStake_le_members : voterStake E vs h hash votes ≤ Quorum.weight (stakeOf vs) (members vs) := by
  have hback := @weight_backers E vs ⟨h, hash, votes⟩
  dsimp only at hback
  rw [← hback]
  exact Quorum.weight_mono Finset.inter_subset_right

end Votes

/-! ## One round -/

section Step

variable {live : Finset ι} {nodes : ι → Engine} {r : Round ι} {e : Engine} {block : Block} {newState : WorldState}
  {o : Orders} {height : UInt64} {txs : List Transaction} {timestamp now : Int64}

theorem LockStep.tracks (h : LockStep live nodes) {i j : ι} (hi : i ∈ live) (hj : j ∈ live) :
    Tracks (nodes i) (nodes j) := h i hi j hj

/-- A proposer's own block passes its own checks, certified or not. -/
theorem assembled_valid (hcur : e.Current)
    (hturn : isProposer e.activeValidators (e.currentHeight + 1) e.address = true)
    (hcount : e.params.maxTxPerBlock > 0 → (txs.length : Int) ≤ e.params.maxTxPerBlock.toInt)
    (hlater : ∀ last ∈ e.lastBlock, last.header.timestamp < timestamp) (htime : timestamp ≤ now + allowedFutureDrift)
    (h : e.assembleBlock E o (e.currentHeight + 1) txs timestamp = .ok (block, newState))
    (qc : Option QuorumCertificate) :
    e.validateBlock E o now { block with qc := qc } = .ok () := by
  obtain ⟨hblock, happly⟩ := Engine.assembleBlock_ok h
  dsimp only at hblock happly
  subst hblock
  have hafter : checkAfterParent timestamp e.lastBlock = .ok () := by
    cases hlast : e.lastBlock with
    | none => rfl
    | some last => exact Except.throwIf_ok_iff.mpr (Int64.not_le.mpr (hlater last hlast))
  have hproposer : e.address = (proposerForHeight e.activeValidators (e.currentHeight + 1)).address :=
    (of_decide_eq_true hturn).symm
  simp only [Engine.validateBlock, validateProposedBlock, hcur.nextHeight, Except.bind_ok_iff, Except.throwIf_ok_iff,
    Except.wrapErr_ok_iff]
  refine ⟨(), not_not.mpr rfl, (), not_not.mpr rfl, (), not_not.mpr hproposer, (), hafter, (), ?_, (), not_not.mpr rfl,
    (), ?_, newState, ?_, not_not.mpr rfl⟩
  · exact Int64.not_lt.mpr htime
  · rintro ⟨hpos, hmore⟩
    exact absurd (hcount hpos) (Int.not_le.mpr hmore)
  · rw [← happly]
    exact applyBlock_header rfl rfl rfl rfl rfl

theorem Round.txs_length (hpos : e.params.maxTxPerBlock > 0) :
    ((r.txs E e).length : Int) ≤ e.params.maxTxPerBlock.toInt := Mempool.reapForBlock_length hpos

/-- What the proposer of a fair round sends out, the live nodes accept. -/
theorem Fair.valid (hf : Fair E live nodes r) (hin : LockStep live nodes) (hcur : (nodes r.proposer).Current)
    (h : r.assemble E (nodes r.proposer) = .ok (block, newState)) {j : ι} (hj : j ∈ live) (htime : OnTime r.timestamp now)
    (qc : Option QuorumCertificate) : (nodes j).validateBlock E o now { block with qc := qc } = .ok () := by
  have htracks := hin.tracks hf.proposer hj
  have hown := @assembled_valid E _ _ _ _ _ _ now hcur hf.turn (fun hpos => Round.txs_length hpos) hf.later
    htime.1 h qc
  exact htracks.validateBlock hown (Int64.le_refl now) htime.2

/-- So they vote for it. -/
theorem Fair.reply (hf : Fair E live nodes r) (hin : LockStep live nodes) (hcur : (nodes r.proposer).Current)
    (h : r.assemble E (nodes r.proposer) = .ok (block, newState)) {j : ι} (hasked : Peer.node j o now ∈ r.peers) :
    (nodes j).onProposal E o now block.sent = .ok ((nodes j).castVote E block.header) := by
  obtain ⟨hj, htime⟩ := hf.asked j o now hasked
  have hvalid : (nodes j).validateBlock E o now { block with qc := block.qc } = .ok () :=
    hf.valid hin hcur h hj htime block.qc
  have hsame : blockFromProto block.sent = { block with qc := block.qc } := by
    obtain ⟨hblock, -⟩ := Engine.assembleBlock_ok h
    dsimp only at hblock
    rw [hblock]
    rfl
  simp only [Engine.onProposal, hsame, hvalid, Except.wrapErr, Except.ok_bind]
  rfl

/-- The nodes of a round that vote. -/
def Round.voters (r : Round ι) : List ι := r.proposer :: r.peers.filterMap Peer.node?

theorem Fair.voter_live (hf : Fair E live nodes r) {j : ι} (hj : j ∈ r.voters) : j ∈ live := by
  rcases List.mem_cons.mp hj with rfl | hj
  · exact hf.proposer
  · obtain ⟨p, hp, hnode⟩ := List.mem_filterMap.mp hj
    cases p with
    | node k o now =>
      cases hnode
      exact (hf.asked j o now hp).1
    | stranger reply => cases hnode

/-- Each has its vote among the votes. -/
theorem Fair.voted (hf : Fair E live nodes r) (hin : LockStep live nodes) (hcur : (nodes r.proposer).Current)
    (h : r.assemble E (nodes r.proposer) = .ok (block, newState)) {j : ι} (hj : j ∈ r.voters) :
    (nodes j).castVote E block.header ∈ (nodes r.proposer).proposalVotes E block (r.replies E nodes block) := by
  rcases List.mem_cons.mp hj with rfl | hj
  · exact List.mem_cons_self
  · obtain ⟨p, hp, hnode⟩ := List.mem_filterMap.mp hj
    cases p with
    | node k o now =>
      cases hnode
      refine List.mem_cons_of_mem _ (List.mem_filterMap.mpr ⟨_, hp, ?_⟩)
      rw [Peer.reply, hf.reply hin hcur h hp]
      rfl
    | stranger reply => cases hnode

theorem Fair.votes_le (hf : Fair E live nodes r) (hin : LockStep live nodes) (hcur : (nodes r.proposer).Current)
    (h : r.assemble E (nodes r.proposer) = .ok (block, newState)) {vs : List ValidatorStake} :
    (((nodes r.proposer).proposalVotes E block (r.replies E nodes block)).map fun vote => stakeOf vs vote.voterAddr).sum ≤
      (r.voters.map fun j => stakeOf vs (nodes j).address).sum +
        ((r.peers.filterMap Peer.stranger?).map fun vote => stakeOf vs vote.voterAddr).sum := by
  have hpeers : ∀ ps : List (Peer ι), (∀ p ∈ ps, p ∈ r.peers) →
      ((ps.filterMap (Peer.reply E nodes block.sent)).map fun vote => stakeOf vs vote.voterAddr).sum ≤
        ((ps.filterMap Peer.node?).map fun j => stakeOf vs (nodes j).address).sum +
          ((ps.filterMap Peer.stranger?).map fun vote => stakeOf vs vote.voterAddr).sum := by
    intro ps
    induction ps with
    | nil => exact fun _ => Nat.le_refl _
    | cons p ps ih =>
      intro hps
      have ih := ih fun p hp => hps p (List.mem_cons_of_mem _ hp)
      cases p with
      | node j o now =>
        have hreply : Peer.reply E nodes block.sent (.node j o now) = some ((nodes j).castVote E block.header) := by
          rw [Peer.reply, hf.reply hin hcur h (hps _ List.mem_cons_self)]
          rfl
        have hnode : Peer.node? (.node j o now) = some j := rfl
        have hother : Peer.stranger? (.node j o now) = none := rfl
        rw [List.filterMap_cons_some hreply, List.filterMap_cons_some hnode, List.filterMap_cons_none hother]
        simp only [List.map_cons, List.sum_cons]
        have hvoter : ((nodes j).castVote E block.header).voterAddr = (nodes j).address := rfl
        rw [hvoter]
        omega
      | stranger reply =>
        have hnode : (Peer.stranger reply : Peer ι).node? = none := rfl
        rw [List.filterMap_cons_none hnode]
        cases reply with
        | none =>
          rw [List.filterMap_cons_none rfl, List.filterMap_cons_none rfl]
          exact ih
        | some vote =>
          have hreply : Peer.reply E nodes block.sent (.stranger (some vote)) = some vote := rfl
          have hother : (Peer.stranger (some vote) : Peer ι).stranger? = some vote := rfl
          rw [List.filterMap_cons_some hreply, List.filterMap_cons_some hother]
          simp only [List.map_cons, List.sum_cons]
          omega
  have hsum := hpeers r.peers fun _ hp => hp
  simp only [Engine.proposalVotes, Round.voters, List.map_cons, List.sum_cons]
  have hvoter : ((nodes r.proposer).castVote E block.header).voterAddr = (nodes r.proposer).address := rfl
  rw [hvoter]
  unfold Round.replies
  omega

/-- The proposer finds its quorum, and the certificate is one that everybody accepts. -/
theorem Fair.certified (hf : Fair E live nodes r) (hin : LockStep live nodes) (hcur : (nodes r.proposer).Current)
    (hkeys : ∀ i ∈ live, HoldsKey E (nodes i)) (haddr : Set.InjOn (fun i => (nodes i).address) live)
    (h : r.assemble E (nodes r.proposer) = .ok (block, newState)) :
    ∃ qc, (nodes r.proposer).certifyProposal E block newState (r.replies E nodes block) =
        .ok ({ block with qc := some qc }, newState) ∧
      validateQuorumCertificate E qc (block.header.hash E) (nodes r.proposer).activeValidators = .ok () := by
  have hvoters : ((r.voters.map fun j => (nodes j).address).map
      (stakeOf (nodes r.proposer).activeValidators)).sum ≤
        voterStake E (nodes r.proposer).activeValidators block.header.height (block.header.hash E)
          ((nodes r.proposer).proposalVotes E block (r.replies E nodes block)) := by
    refine sum_le_voterStake (hf.once.map_on fun i hi j hj heq => haddr (hf.voter_live hi) (hf.voter_live hj) heq) ?_
    intro a ha
    obtain ⟨j, hj, rfl⟩ := List.mem_map.mp ha
    exact mem_votersOf.mpr ⟨_, hf.voted hin hcur h hj, (hkeys j (hf.voter_live hj)).castVote _, rfl⟩
  have hquorum := hf.quorum
  have hroom := hf.room
  have htotal := hf.total
  have hle := @voterStake_le E (nodes r.proposer).activeValidators block.header.height (block.header.hash E)
    ((nodes r.proposer).proposalVotes E block (r.replies E nodes block))
  have hmembers := @voterStake_le_members E (nodes r.proposer).activeValidators block.header.height (block.header.hash E)
    ((nodes r.proposer).proposalVotes E block (r.replies E nodes block))
  have hrepeated := @repeatedStake_le E (nodes r.proposer).activeValidators block.header.height (block.header.hash E)
    ((nodes r.proposer).proposalVotes E block (r.replies E nodes block))
  have hvotes := @Fair.votes_le ι E live nodes r block newState hf hin hcur h (nodes r.proposer).activeValidators
  rw [List.map_map] at hvoters
  change (r.voters.map fun j => stakeOf _ (nodes j).address).sum ≤ _ at hvoters
  change _ ≤ (r.voters.map fun j => stakeOf _ (nodes j).address).sum at hquorum
  change (r.voters.map fun j => stakeOf _ (nodes j).address).sum + _ < _ at hroom
  refine ⟨⟨block.header.height, block.header.hash E, (nodes r.proposer).proposalVotes E block (r.replies E nodes block)⟩,
    certifyProposal_ok_iff.mpr ⟨?_, rfl⟩, validateQuorumCertificate_ok_iff.mpr ⟨rfl, ?_⟩⟩
  · rw [Nat.mod_eq_of_lt (by omega)]
    omega
  · rw [weight_backers]
    dsimp only
    rw [Nat.mod_eq_of_lt (by omega)]
    exact hquorum.trans hvoters

/-! ## What it leaves -/

theorem commits_proposal {block : PbBlock} : e.commits E (.proposal o now block) = none := rfl

/-- Proposals commit nothing, at whatever node. -/
theorem commits_proposals {ps : List (Peer ι)} {block : PbBlock} [DecidableEq ι] {j : ι} :
    e.commitsAlong E (eventsAt (ps.filterMap (Peer.proposal block)) j) = [] := by
  induction ps with
  | nil => rfl
  | cons p ps ih =>
    cases p with
    | node k o now =>
      have hsent : Peer.proposal block (.node k o now) = some (k, .proposal o now block) := rfl
      rw [List.filterMap_cons_some hsent]
      by_cases hk : k = j
      · subst hk
        rw [eventsAt_same, Engine.commitsAlong_none commits_proposal, ih]
      · rw [eventsAt_other hk, ih]
    | stranger reply =>
      have hsent : Peer.proposal block (.stranger reply : Peer ι) = none := rfl
      rw [List.filterMap_cons_none hsent, ih]

/-- A finalized block that is not above the chain is left alone. -/
theorem commits_old {ord : Nat → RangeOrder} {fb : FinalizedBlock} (hle : fb.block.header.height ≤ e.currentHeight) :
    e.commits E (.finalized o ord now fb) = none := by
  cases hc : e.commits E (.finalized o ord now fb) with
  | none => rfl
  | some c =>
    obtain ⟨-, -, hnot⟩ := commits_finalized hc
    simp only [Engine.commits, Option.join_eq_some_iff, Except.toOption_eq_some_iff] at hc
    obtain ⟨qc, -, hblock, -⟩ := acceptFinalized_ok hc
    rw [hblock] at hnot
    exact absurd hle hnot

theorem commits_olds [DecidableEq ι] {ns : List (Notice ι)} {j : ι} (hle : block.header.height ≤ e.currentHeight) :
    e.commitsAlong E (eventsAt (ns.map fun n => (n.node, .finalized n.met.o n.met.ord n.met.now block.finalized)) j) =
      [] := by
  induction ns with
  | nil => rfl
  | cons n ns ih =>
    rw [List.map_cons]
    by_cases hn : n.node = j
    · subst hn
      rw [eventsAt_same, Engine.commitsAlong_none (commits_old hle), ih]
    · rw [eventsAt_other hn, ih]

/-- A node accepts a finalized block that passes its checks. -/
theorem acceptFinalized_of {ord : Nat → RangeOrder} {qc : QuorumCertificate} (hqc : block.qc = some qc)
    (hevidence : block.evidence = []) (hnew : ¬ block.header.height ≤ e.currentHeight)
    (hcert : validateQuorumCertificate E qc (block.header.hash E) e.activeValidators = .ok ())
    (hvalid : e.validateBlock E o now block = .ok ())
    (happly : applyBlock E .go e.params ord e.state block = .ok newState) :
    e.acceptFinalized E o ord now block.finalized = .ok (some (block, newState)) := by
  have hsame : blockFromProto block.finalized.block = block := by
    cases block
    cases hevidence
    rfl
  have hgiven : block.finalized.qc = some qc := hqc
  have hkept : ({ block with qc := some qc } : Block) = block := by rw [← hqc]
  simp only [Engine.acceptFinalized, hsame, hgiven, Except.orThrow, hcert, hvalid, happly, Except.wrapErr, if_neg hnew,
    Except.ok_bind, hkept]
  rfl

/-- A node that hears of a block it accepts commits it, once. -/
theorem commits_notices [DecidableEq ι] {ns : List (Notice ι)} {j : ι} {qc : QuorumCertificate} (hqc : block.qc = some qc)
    (hevidence : block.evidence = []) (hnew : ¬ block.header.height ≤ e.currentHeight)
    (hcert : validateQuorumCertificate E qc (block.header.hash E) e.activeValidators = .ok ())
    (hvalid : ∀ n ∈ ns, n.node = j → e.validateBlock E n.met.o n.met.now block = .ok ())
    (happly : ∀ ord, ∃ newState, applyBlock E .go e.params ord e.state block = .ok newState)
    (hheard : ∃ n ∈ ns, n.node = j) :
    ∃ ord newState, applyBlock E .go e.params ord e.state block = .ok newState ∧
      e.commitsAlong E (eventsAt (ns.map fun n => (n.node, .finalized n.met.o n.met.ord n.met.now block.finalized)) j) =
        [(block, newState)] := by
  induction ns with
  | nil =>
    obtain ⟨n, hn, -⟩ := hheard
    cases hn
  | cons n ns ih =>
    rw [List.map_cons]
    by_cases hn : n.node = j
    · subst hn
      obtain ⟨newState, hstate⟩ := happly n.met.ord
      have hcommits : e.commits E (.finalized n.met.o n.met.ord n.met.now block.finalized) = some (block, newState) := by
        rw [Engine.commits, acceptFinalized_of hqc hevidence hnew hcert (hvalid n List.mem_cons_self rfl) hstate]
        rfl
      refine ⟨n.met.ord, newState, hstate, ?_⟩
      rw [eventsAt_same, Engine.commitsAlong_some hcommits, commits_olds (UInt64.le_refl _)]
    · rw [eventsAt_other hn]
      refine ih (fun m hm => hvalid m (List.mem_cons_of_mem _ hm)) ?_
      obtain ⟨m, hm, hmj⟩ := hheard
      rcases List.mem_cons.mp hm with rfl | hm
      · exact absurd hmj hn
      · exact ⟨m, hm, hmj⟩

/-- The proposer's block is above its chain. -/
theorem Fair.above (hf : Fair E live nodes r) (h : r.assemble E (nodes r.proposer) = .ok (block, newState)) :
    block.evidence = [] ∧ ¬ block.header.height ≤ (nodes r.proposer).currentHeight := by
  obtain ⟨hblock, -⟩ := Engine.assembleBlock_ok h
  dsimp only at hblock
  have hlt := hf.height
  refine ⟨by rw [hblock], ?_⟩
  rw [hblock, UInt64.le_iff_toNat_le, UInt64.toNat_add, UInt64.toNat_one, Nat.mod_eq_of_lt hlt]
  omega

/-- What the nodes see: requests for votes, one proposal, and what is made of it. -/
theorem Round.steps_eq {qc : QuorumCertificate}
    (hturn : isProposer (nodes r.proposer).activeValidators ((nodes r.proposer).currentHeight + 1)
      (nodes r.proposer).address = true)
    (h : r.assemble E (nodes r.proposer) = .ok (block, newState))
    (hcertify : (nodes r.proposer).certifyProposal E block newState (r.replies E nodes block) =
      .ok ({ block with qc := some qc }, newState)) :
    r.steps E nodes = r.peers.filterMap (Peer.proposal block.sent) ++
      (r.proposer, .propose r.o ((nodes r.proposer).currentHeight + 1) (r.txs E (nodes r.proposer)) r.timestamp
        (r.replies E nodes block)) :: r.notify { block with qc := some qc } := by
  simp only [Round.steps, hturn, if_true, h, hcertify]

theorem Round.proposer_commits [DecidableEq ι] {qc : QuorumCertificate}
    (hturn : isProposer (nodes r.proposer).activeValidators ((nodes r.proposer).currentHeight + 1)
      (nodes r.proposer).address = true)
    (h : r.assemble E (nodes r.proposer) = .ok (block, newState))
    (hcertify : (nodes r.proposer).certifyProposal E block newState (r.replies E nodes block) =
      .ok ({ block with qc := some qc }, newState)) :
    (nodes r.proposer).commitsAlong E (eventsAt (r.steps E nodes) r.proposer) =
      [({ block with qc := some qc }, newState)] := by
  have hcommits : (nodes r.proposer).commits E (.propose r.o ((nodes r.proposer).currentHeight + 1)
      (r.txs E (nodes r.proposer)) r.timestamp (r.replies E nodes block)) =
        some ({ block with qc := some qc }, newState) := by
    have hassemble : (nodes r.proposer).assembleBlock E r.o ((nodes r.proposer).currentHeight + 1)
      (r.txs E (nodes r.proposer)) r.timestamp = .ok (block, newState) := h
    rw [Engine.commits, hassemble]
    simp only [hcertify]
    rfl
  rw [Round.steps_eq hturn h hcertify, eventsAt_append, Engine.commitsAlong_append, commits_proposals, List.nil_append,
    Engine.run_of_nil commits_proposals, eventsAt_same, Engine.commitsAlong_some hcommits]
  exact congrArg _ (commits_olds (UInt64.le_refl _))

/-- **One round**: the live nodes commit the proposer's block, each in its own
map order, and nothing else. -/
theorem Fair.commits [DecidableEq ι] (hf : Fair E live nodes r) (hin : LockStep live nodes)
    (hcur : (nodes r.proposer).Current) (hkeys : ∀ i ∈ live, HoldsKey E (nodes i))
    (haddr : Set.InjOn (fun i => (nodes i).address) live) (h : r.assemble E (nodes r.proposer) = .ok (block, newState)) :
    ∃ qc, validateQuorumCertificate E qc (block.header.hash E) (nodes r.proposer).activeValidators = .ok () ∧
      ∀ i ∈ live, ∃ ord ws, applyBlock E .go (nodes i).params ord (nodes i).state { block with qc := some qc } = .ok ws ∧
        (nodes i).commitsAlong E (eventsAt (r.steps E nodes) i) = [({ block with qc := some qc }, ws)] := by
  obtain ⟨qc, hcertify, hcert⟩ := hf.certified hin hcur hkeys haddr h
  obtain ⟨hevidence, hnew⟩ := hf.above h
  obtain ⟨-, happly⟩ := Engine.assembleBlock_ok h
  dsimp only at happly
  refine ⟨qc, hcert, fun i hi => ?_⟩
  by_cases hip : r.proposer = i
  · subst hip
    exact ⟨r.o.block, newState, happly, Round.proposer_commits hf.turn h hcertify⟩
  · have htracks := hin.tracks hf.proposer hi
    have hexecutes : ∀ ord, ∃ ws, applyBlock E .go (nodes i).params ord (nodes i).state { block with qc := some qc } =
        .ok ws := by
      intro ord
      exact (htracks.applyBlock happly).imp fun ws hws => hws.1
    rw [Round.steps_eq hf.turn h hcertify, eventsAt_append, Engine.commitsAlong_append, commits_proposals,
      List.nil_append, Engine.run_of_nil commits_proposals, eventsAt_other hip]
    refine commits_notices rfl hevidence ?_ ?_ (fun n hn hni => ?_) hexecutes (hf.noticed i hi (Ne.symm hip))
    · rw [htracks.currentHeight]
      exact hnew
    · rw [htracks.activeValidators]
      exact hcert
    · subst hni
      exact hf.valid hin hcur h hi (hf.onTime n hn hi) (some qc)

/-- The proposer after its round. -/
theorem Fair.proposer_after [DecidableEq ι] {c : Block × WorldState} (hf : Fair E live nodes r)
    (hin : LockStep live nodes)
    (hcur : (nodes r.proposer).Current) (hkeys : ∀ i ∈ live, HoldsKey E (nodes i))
    (haddr : Set.InjOn (fun i => (nodes i).address) live) (h : r.assemble E (nodes r.proposer) = .ok c) :
    after E nodes (r.steps E nodes) r.proposer = (nodes r.proposer).commitBlock
      { c.1 with qc := some ⟨c.1.header.height, c.1.header.hash E,
          (nodes r.proposer).proposalVotes E c.1 (r.replies E nodes c.1)⟩ } c.2 := by
  obtain ⟨block, newState⟩ := c
  obtain ⟨qc, hcertify, -⟩ := hf.certified hin hcur hkeys haddr h
  rw [after, Engine.run_eq, Round.proposer_commits hf.turn h hcertify, (certifyProposal_ok_iff.mp hcertify).2]
  rfl

/-- What the round leaves. -/
theorem Fair.step [DecidableEq ι] (hf : Fair E live nodes r) (hin : LockStep live nodes)
    (hcur : ∀ i ∈ live, (nodes i).Current) (hkeys : ∀ i ∈ live, HoldsKey E (nodes i))
    (haddr : Set.InjOn (fun i => (nodes i).address) live) :
    ∃ b : Block, b.header.height = (nodes r.proposer).currentHeight + 1 ∧
      b.header.proposerAddr = (nodes r.proposer).address ∧ b.header.timestamp = r.timestamp ∧
      ∀ i ∈ live, ∃ ord newState, applyBlock E .go (nodes i).params ord (nodes i).state b = .ok newState ∧
        after E nodes (r.steps E nodes) i = (nodes i).commitBlock b newState := by
  obtain ⟨⟨block, newState⟩, h⟩ := Except.exists_ok hf.executes
  obtain ⟨qc, -, hall⟩ := hf.commits hin (hcur _ hf.proposer) hkeys haddr h
  obtain ⟨hblock, -⟩ := Engine.assembleBlock_ok h
  dsimp only at hblock
  refine ⟨{ block with qc := some qc }, by rw [hblock], by rw [hblock], by rw [hblock], fun i hi => ?_⟩
  obtain ⟨ord, ws, happly, hcommits⟩ := hall i hi
  refine ⟨ord, ws, happly, ?_⟩
  rw [after, Engine.run_eq, hcommits]
  rfl

end Step

/-! ## Rounds in a row -/

/-- An engine that has executed and committed these blocks, one after the other. -/
inductive Extends (E : Env) : Engine → List Block → Engine → Prop
  | nil {e : Engine} : Extends E e [] e
  | cons {e e' : Engine} {ord : Nat → RangeOrder} {b : Block} {ws : WorldState} {bs : List Block} :
    applyBlock E .go e.params ord e.state b = .ok ws → Extends E (e.commitBlock b ws) bs e' → Extends E e (b :: bs) e'

variable [DecidableEq ι] {live : Finset ι} {nodes : ι → Engine} {r : Round ι} {rs : List (Round ι)} {b : Block}

omit [DecidableEq ι] in
theorem LockStep.commit {nodes' : ι → Engine} (hin : LockStep live nodes)
    (h : ∀ i ∈ live, ∃ ord newState, applyBlock E .go (nodes i).params ord (nodes i).state b = .ok newState ∧
      nodes' i = (nodes i).commitBlock b newState) : LockStep live nodes' := by
  intro i hi j hj
  obtain ⟨ord, ws, happly, hnode⟩ := h i hi
  obtain ⟨ord', ws', happly', hnode'⟩ := h j hj
  have htracks := hin.tracks hi hj
  have hfollows : ∃ ws₂, applyBlock E .go (nodes j).params ord' (nodes j).state b = .ok ws₂ ∧
      Twin true {x | x ∉ (∅ : Finset (Address × UInt64))} ws ws₂ := htracks.applyBlock happly
  obtain ⟨ws₂, happly₂, htwin⟩ := hfollows
  rw [happly'] at happly₂
  cases happly₂
  rw [hnode, hnode']
  exact ⟨htracks.params, htracks.genesisValSet, htwin, (applyBlock_writes happly).keyed htracks.keyed, rfl, rfl⟩

/-- **Progress**: nodes that stand on one block commit a block in each fair
round, the one of the node whose turn it is, and stand on one block again. In a
fair round what the proposer has selected executes. -/
theorem rounds_progress (hkeys : ∀ i ∈ live, HoldsKey E (nodes i)) (haddr : Set.InjOn (fun i => (nodes i).address) live)
    (hcur : ∀ i ∈ live, (nodes i).Current) (hin : LockStep live nodes) (hfair : FairAll E live nodes rs) :
    LockStep live (after E nodes (Round.stepsAll E nodes rs)) ∧
      ∃ bs : List Block, bs.map (·.header.proposerAddr) = rs.map (fun r => (nodes r.proposer).address) ∧
        bs.map (·.header.timestamp) = rs.map (·.timestamp) ∧
        ∀ i ∈ live, Extends E (nodes i) bs (after E nodes (Round.stepsAll E nodes rs) i) ∧
          (after E nodes (Round.stepsAll E nodes rs) i).currentHeight.toNat = (nodes i).currentHeight.toNat +
          rs.length := by
  induction rs generalizing nodes with
  | nil => exact ⟨hin, [], rfl, rfl, fun i _ => ⟨.nil, rfl⟩⟩
  | cons r rs ih =>
    obtain ⟨hf, hfair⟩ := hfair
    obtain ⟨b, hheight, hproposer, htime, hcommit⟩ := hf.step hin hcur hkeys haddr
    -- A round changes neither keys nor addresses.
    have haddress : ∀ i, (after E nodes (r.steps E nodes) i).address = (nodes i).address := fun i => after_address
    have hkeys' : ∀ i ∈ live, HoldsKey E (after E nodes (r.steps E nodes) i) := by
      intro i hi
      obtain ⟨ord, ws, -, hnode⟩ := hcommit i hi
      rw [hnode]
      exact ⟨(hkeys i hi).address, (hkeys i hi).verifies⟩
    have haddr' : Set.InjOn (fun i => (after E nodes (r.steps E nodes) i).address) live := by
      simp only [haddress]
      exact haddr
    have hcur' : ∀ i ∈ live, (after E nodes (r.steps E nodes) i).Current := by
      intro i hi
      obtain ⟨ord, ws, -, hnode⟩ := hcommit i hi
      rw [hnode]
      rfl
    obtain ⟨hin', bs, hproposers, htimes, hrest⟩ := ih hkeys' haddr' hcur' (hin.commit hcommit) hfair
    have hsplit : ∀ i, after E nodes (Round.stepsAll E nodes (r :: rs)) i =
        after E (after E nodes (r.steps E nodes)) (Round.stepsAll E (after E nodes (r.steps E nodes)) rs) i := by
      intro i
      rw [Round.stepsAll, after, eventsAt_append, Engine.run, List.foldl_append]
      rfl
    have hafter : after E nodes (Round.stepsAll E nodes (r :: rs)) =
        after E (after E nodes (r.steps E nodes)) (Round.stepsAll E (after E nodes (r.steps E nodes)) rs) := funext hsplit
    rw [hafter]
    refine ⟨hin', b :: bs, ?_, ?_, fun i hi => ?_⟩
    · rw [List.map_cons, List.map_cons, hproposers, hproposer]
      simp only [haddress]
    · rw [List.map_cons, List.map_cons, htimes, htime]
    · obtain ⟨hextends, hcount⟩ := hrest i hi
      obtain ⟨ord, ws, happly, hnode⟩ := hcommit i hi
      rw [hnode] at hextends
      refine ⟨.cons happly hextends, ?_⟩
      have hlt := hf.height
      rw [← (hin.tracks hf.proposer hi).currentHeight] at hheight hlt
      have hone : ((nodes i).commitBlock b ws).currentHeight.toNat = (nodes i).currentHeight.toNat + 1 := by
        show b.header.height.toNat = _
        rw [hheight, UInt64.toNat_add, UInt64.toNat_one, Nat.mod_eq_of_lt hlt]
      rw [hcount, hnode, hone, List.length_cons]
      omega

section

open Sample

instance (timestamp now : Int64) : Decidable (OnTime timestamp now) :=
  inferInstanceAs (Decidable (_ ∧ now.toInt + 16 < 2 ^ 63))

theorem genesis4_ok : initializeState env config4 = .ok genesis4 := Except.ok_value (by decide +kernel)

/-- Three of four nodes. -/
def present : Finset (Fin 4) := Finset.univ.erase (Fin.last 3)

/-- A round of one node while only two others are up. -/
def threeOfFour (i j k : Fin 4) (timestamp : Int64) : Round (Fin 4) where
  proposer := i
  mempool := pool
  reapOrder := reapOrder
  o := orders
  timestamp
  peers := [.node j orders timestamp, .stranger none, .node k orders timestamp]
  notices := [⟨k, orders, fun _ => order, timestamp⟩, ⟨j, orders, fun _ => order, timestamp⟩]

/-- What of `Fair` depends on the nodes. -/
def Fairly (nodes : Fin 4 → Engine) (r : Round (Fin 4)) : Prop :=
  isProposer (nodes r.proposer).activeValidators ((nodes r.proposer).currentHeight + 1)
    (nodes r.proposer).address = true ∧
  (r.assemble env (nodes r.proposer)).isOk = true ∧
  (nodes r.proposer).currentHeight.toNat + 1 < 2 ^ 64 ∧
  (∀ last ∈ (nodes r.proposer).lastBlock, last.header.timestamp < r.timestamp) ∧
  (quorumThreshold (nodes r.proposer).activeValidators).toNat ≤
    (r.voters.map fun j => stakeOf (nodes r.proposer).activeValidators (nodes j).address).sum ∧
  (r.voters.map fun j => stakeOf (nodes r.proposer).activeValidators (nodes j).address).sum +
    ((r.peers.filterMap Peer.stranger?).map fun vote => stakeOf (nodes r.proposer).activeValidators vote.voterAddr).sum <
      2 ^ 64 ∧
  Quorum.weight (stakeOf (nodes r.proposer).activeValidators) (members (nodes r.proposer).activeValidators) < 2 ^ 64

instance (nodes : Fin 4 → Engine) (r : Round (Fin 4)) : Decidable (Fairly nodes r) := inferInstanceAs (Decidable (_ ∧ _))

theorem threeOfFour_fairly : Fairly quad (threeOfFour 0 1 2 10) := by
  decide +kernel

theorem threeOfFour_fair {nodes : Fin 4 → Engine} {timestamp : Int64} (htime : OnTime timestamp timestamp)
    (h : Fairly nodes (threeOfFour 0 1 2 timestamp)) : Fair env present nodes (threeOfFour 0 1 2 timestamp) := by
  obtain ⟨hturn, hexecutes, hheight, hlater, hquorum, hroom, htotal⟩ := h
  have hfirst : (0 : Fin 4) ∈ present := by decide
  refine ⟨hfirst, hturn, hexecutes, hheight, hlater, fun j o now hp => ?_, ?_, hquorum, hroom, htotal, ?_,
    fun n hn _ => ?_⟩
  · simp only [threeOfFour, List.mem_cons, Peer.node.injEq, reduceCtorEq, false_or, List.not_mem_nil, or_false] at hp
    rcases hp with ⟨rfl, rfl, rfl⟩ | ⟨rfl, rfl, rfl⟩
    · exact ⟨by decide, htime⟩
    · exact ⟨by decide, htime⟩
  · exact (by decide : [(0 : Fin 4), 1, 2].Nodup)
  · intro i hi hne
    have hcases : ∀ i ∈ present, i ≠ 0 → i = 1 ∨ i = 2 := by decide
    rcases hcases i hi hne with rfl | rfl
    · exact ⟨_, List.mem_cons_of_mem _ List.mem_cons_self, rfl⟩
    · exact ⟨_, List.mem_cons_self, rfl⟩
  · simp only [threeOfFour, List.mem_cons, List.not_mem_nil, or_false] at hn
    rcases hn with rfl | rfl
    · exact htime
    · exact htime

theorem quad_lockStep : LockStep present quad := fun _ _ _ _ =>
  ⟨rfl, rfl, .refl, (initializeState_indexed genesis4_ok).keyed, rfl, rfl⟩

theorem quad_addresses : Set.InjOn (fun i => (quad i).address) present := by
  have hinj : ∀ i j : Fin 4, (quad i).address = (quad j).address → i = j := by decide +kernel
  exact fun i _ j _ h => hinj i j h

theorem threeOfFour_fairly_next :
    Fairly (after env quad ((threeOfFour 0 1 2 10).steps env quad)) (threeOfFour 0 1 2 20) := by
  have hfair : Fair env present quad (threeOfFour 0 1 2 10) := threeOfFour_fair (by decide) threeOfFour_fairly
  have hassemble := Except.ok_value hfair.executes
  have hafter : after env quad ((threeOfFour 0 1 2 10).steps env quad) (threeOfFour 0 1 2 20).proposer = _ :=
    hfair.proposer_after quad_lockStep rfl (fun i _ => ⟨rfl, fun _ => verify_sign⟩) quad_addresses hassemble
  -- Of the nodes that vote only the addresses count, which stay.
  simp only [Fairly, after_address]
  rw [hafter]
  decide +kernel

/-- Without node 4, two rounds make two blocks. -/
theorem rounds_progress_present : ∃ bs : List Block, bs.length = 2 ∧ ∀ i ∈ present,
    Extends env (quad i) bs (after env quad (Round.stepsAll env quad [threeOfFour 0 1 2 10, threeOfFour 0 1 2 20])
      i) := by
  have htime : OnTime 10 10 ∧ OnTime 20 20 := by decide
  have hfair : FairAll env present quad [threeOfFour 0 1 2 10, threeOfFour 0 1 2 20] :=
    ⟨threeOfFour_fair htime.1 threeOfFour_fairly, threeOfFour_fair htime.2 threeOfFour_fairly_next, trivial⟩
  obtain ⟨-, bs, -, htimes, hall⟩ :=
    rounds_progress (fun i _ => ⟨rfl, fun _ => verify_sign⟩) quad_addresses (fun i _ => rfl) quad_lockStep hfair
  have hlen := congrArg List.length htimes
  rw [List.length_map] at hlen
  exact ⟨bs, hlen, fun i hi => (hall i hi).1⟩

end

end Drana
