/-
The chain one node commits and the votes it signs. A proposal is made at the
height its loop read before it waited, and nothing remembers a vote; a run is
linear and free of double votes as long as neither matters.
-/
import Drana.Certificates
import Drana.Conservation

namespace Drana

variable {E : Env} {e : Engine} {ev : Event} {evs : List Event} {c : Block × WorldState}

/-! ## Heights -/

/-- The engine's height is its last block's. -/
def Engine.Current (e : Engine) : Prop := e.currentHeight = e.lastBlock.elim 0 (·.header.height)

theorem Engine.Current.nextHeight (h : e.Current) : nextHeight e.lastBlock = e.currentHeight + 1 := by
  unfold Engine.Current at h
  rw [h]
  cases e.lastBlock <;> rfl

theorem Engine.next_current (h : e.Current) : (e.next E ev).Current := by
  unfold Engine.next
  cases e.commits E ev with
  | none => exact h
  | some c => rfl

theorem Engine.next_of_commits (h : e.commits E ev = some c) : e.next E ev = e.commitBlock c.1 c.2 := by
  rw [Engine.next, h]
  rfl

theorem Engine.next_of_none (h : e.commits E ev = none) : e.next E ev = e := by
  rw [Engine.next, h]
  rfl

/-! ## What is committed -/

/-- What `ValidateProposedBlock` says of the place of a block in the chain. -/
theorem validateProposedBlock_place {ord : Nat → RangeOrder} {rootOrd : RangeOrder} {now : Int64} {block : Block}
    {state : WorldState} {last : Option Block} {vs : List ValidatorStake} {params : GenesisConfig} {u : Unit}
    (h : validateProposedBlock E ord rootOrd now block state last vs params = .ok u) :
    block.header.height = nextHeight last ∧ block.header.prevHash = lastHash E last := by
  simp only [validateProposedBlock, Except.bind_ok_iff, Except.throwIf_ok_iff, ne_eq, not_not] at h
  obtain ⟨-, hheight, -, hprev, -⟩ := h
  exact ⟨hheight, hprev⟩

theorem assembleBlock_ok {o : Orders} {height : UInt64} {txs : List Transaction} {timestamp : Int64}
    {r : Block × WorldState} (h : e.assembleBlock E o height txs timestamp = .ok r) :
    r.1.header.height = height ∧ r.1.header.prevHash = lastHash E e.lastBlock ∧ r.2.chainHeight = height := by
  simp only [Engine.assembleBlock, Except.bind_ok_iff, Except.wrapErr_ok_iff, Except.pure_ok_iff] at h
  obtain ⟨newState, happly, rfl⟩ := h
  exact ⟨rfl, rfl, applyBlock_height happly⟩

/-- What a proposal commits: what it assembled, at the height it was asked for. -/
theorem commits_propose {o : Orders} {height : UInt64} {txs : List Transaction} {timestamp : Int64}
    {replies : List BlockVote} (h : e.commits E (.propose o height txs timestamp replies) = some c) :
    ∃ block, e.assembleBlock E o height txs timestamp = .ok (block, c.2) ∧ c.1.header = block.header := by
  simp only [Engine.commits] at h
  split at h
  · next block newState hr =>
    rw [Except.toOption_eq_some_iff] at h
    obtain ⟨-, rfl⟩ := certifyProposal_ok_iff.mp h
    exact ⟨block, hr, rfl⟩
  · cases h

/-- A committed block follows the last; a finalized one is also higher. -/
structure Follows (E : Env) (e : Engine) (c : Block × WorldState) : Prop where
  prevHash : c.1.header.prevHash = lastHash E e.lastBlock
  chainHeight : c.2.chainHeight = c.1.header.height

theorem commits_finalized {o : Orders} {ord : Nat → RangeOrder} {now : Int64} {fb : FinalizedBlock}
    (h : e.commits E (.finalized o ord now fb) = some c) :
    Follows E e c ∧ c.1.header.height = nextHeight e.lastBlock ∧ ¬ c.1.header.height ≤ e.currentHeight := by
  simp only [Engine.commits, Option.join_eq_some_iff, Except.toOption_eq_some_iff] at h
  have hnew := h
  simp only [Engine.acceptFinalized, Except.bind_ok_iff, Except.orThrow_ok_iff, Except.wrapErr_ok_iff] at hnew
  obtain ⟨_, _, _, _, hnew⟩ := hnew
  obtain ⟨qc, -, hblock, -, hvalid, happly⟩ := acceptFinalized_ok h
  obtain ⟨hheight, hprev⟩ := validateProposedBlock_place hvalid
  split at hnew
  · cases hnew
  · next hle => exact ⟨⟨by rw [hblock]; exact hprev, by rw [hblock]; exact applyBlock_height happly⟩,
      by rw [hblock]; exact hheight, by rw [hblock]; exact hle⟩

theorem commits_synced {o : Orders} {ord : Nat → RangeOrder} {now : Int64} {fb : FinalizedBlock}
    (h : e.commits E (.synced o ord now fb) = some c) :
    Follows E e c ∧ c.1.header.height = nextHeight e.lastBlock := by
  simp only [Engine.commits, Except.toOption_eq_some_iff] at h
  obtain ⟨-, -, hvalid, happly⟩ := acceptSynced_ok h
  obtain ⟨hheight, hprev⟩ := validateProposedBlock_place hvalid
  exact ⟨⟨hprev, applyBlock_height happly⟩, hheight⟩

/-! ## The loop -/

/-- The engine and its `Run` loop: the height read, where the loop waits for
its turn to propose at it. -/
structure RunLoop where
  engine : Engine
  nextHeight : Option UInt64 := none

/-- Steps of the loop and calls of the handlers, in any order. -/
inductive LoopEvent
  | read
  | propose (o : Orders) (txs : List Transaction) (timestamp : Int64) (replies : List BlockVote)
  | proposal (o : Orders) (now : Int64) (block : PbBlock)
  | finalized (o : Orders) (ord : Nat → RangeOrder) (now : Int64) (fb : FinalizedBlock)

namespace RunLoop

/-- What a step makes the engine do. -/
def event (l : RunLoop) : LoopEvent → Option Event
  | .read => none
  | .propose o txs timestamp replies => l.nextHeight.map fun height => .propose o height txs timestamp replies
  | .proposal o now block => some (.proposal o now block)
  | .finalized o ord now fb => some (.finalized o ord now fb)

/-- The loop reads the next height, without the lock, and waits if the node is
to propose there; then it proposes, and reads again. -/
def wait (l : RunLoop) : LoopEvent → Option UInt64
  | .read =>
    match l.nextHeight with
    | some height => some height
    | none =>
      let nextHeight := l.engine.currentHeight + 1
      if isProposer l.engine.activeValidators nextHeight l.engine.address then some nextHeight else none
  | .propose _ _ _ _ => none
  | _ => l.nextHeight

def commits (E : Env) (l : RunLoop) (ev : LoopEvent) : Option (Block × WorldState) :=
  (l.event ev).bind (l.engine.commits E)

def next (E : Env) (l : RunLoop) (ev : LoopEvent) : RunLoop :=
  ⟨(l.event ev).elim l.engine (l.engine.next E), l.wait ev⟩

/-- The blocks a run commits, with the states after them. -/
def committed (E : Env) : RunLoop → List LoopEvent → List (Block × WorldState)
  | _, [] => []
  | l, ev :: evs => (l.commits E ev).toList ++ committed E (l.next E ev) evs

/-- `P` of every step of a run. -/
def Along (E : Env) (P : RunLoop → LoopEvent → Prop) : RunLoop → List LoopEvent → Prop
  | _, [] => True
  | l, ev :: evs => P l ev ∧ Along E P (l.next E ev) evs

instance decidableAlong {P : RunLoop → LoopEvent → Prop} [∀ l ev, Decidable (P l ev)] :
    ∀ (l : RunLoop) (evs : List LoopEvent), Decidable (Along E P l evs)
  | _, [] => inferInstanceAs (Decidable True)
  | l, ev :: evs => @instDecidableAnd _ _ _ (decidableAlong (l.next E ev) evs)

end RunLoop

/-- Blocks of heights `h`, `h + 1`, …, each on the one before, the first on
`prev`, with states at their heights. -/
inductive Linear (E : Env) : Nat → Hash → List (Block × WorldState) → Prop
  | nil {h : Nat} {prev : Hash} : Linear E h prev []
  | cons {h : Nat} {prev : Hash} {c : Block × WorldState} {cs : List (Block × WorldState)} :
    c.1.header.height.toNat = h → c.1.header.prevHash = prev → c.2.chainHeight = c.1.header.height →
    Linear E (h + 1) (c.1.header.hash E) cs → Linear E h prev (c :: cs)

/-- The loop proposes at the height after the last block: no handler has
committed since it read it. -/
def Timely (l : RunLoop) : LoopEvent → Prop
  | .propose _ _ _ _ => ∀ height ∈ l.nextHeight, height.toNat = l.engine.currentHeight.toNat + 1
  | _ => True

instance {l : RunLoop} : ∀ {ev : LoopEvent}, Decidable (Timely l ev)
  | .propose _ _ _ _ => Option.decidableForallMem l.nextHeight
  | .read | .proposal _ _ _ | .finalized _ _ _ _ => inferInstanceAs (Decidable True)

theorem next_height {n m : UInt64} (h : m = n + 1) (hle : ¬ m ≤ n) : m.toNat = n.toNat + 1 := by
  rw [UInt64.le_iff_toNat_le] at hle
  rw [h, UInt64.toNat_add, UInt64.toNat_one] at hle ⊢
  have := n.toNat_lt
  omega

theorem RunLoop.commits_timely {l : RunLoop} {ev : LoopEvent} (hcur : l.engine.Current) (ht : Timely l ev)
    (h : l.commits E ev = some c) : c.1.header.height.toNat = l.engine.currentHeight.toNat + 1 ∧
      Follows E l.engine c := by
  cases ev with
  | read => cases h
  | propose o txs timestamp replies =>
    simp only [commits, event, Option.bind_map, Option.bind_eq_some_iff] at h
    obtain ⟨height, hpending, h⟩ := h
    obtain ⟨block, hr, hheader⟩ := commits_propose h
    obtain ⟨hheight, hprev, hchain⟩ := assembleBlock_ok hr
    refine ⟨by rw [hheader, hheight]; exact ht height hpending, by rw [hheader]; exact hprev, ?_⟩
    rw [hheader, hheight]
    exact hchain
  | proposal o now block => cases h
  | finalized o ord now fb =>
    obtain ⟨hfollows, hheight, hle⟩ := commits_finalized h
    rw [hcur.nextHeight] at hheight
    exact ⟨next_height hheight hle, hfollows⟩

theorem RunLoop.next_of_commits {l : RunLoop} {ev : LoopEvent} (h : l.commits E ev = some c) :
    (l.next E ev).engine = l.engine.commitBlock c.1 c.2 := by
  simp only [commits, Option.bind_eq_some_iff] at h
  obtain ⟨ev', hev, h⟩ := h
  simp only [next, hev, Option.elim_some]
  exact Engine.next_of_commits h

theorem RunLoop.next_of_none {l : RunLoop} {ev : LoopEvent} (h : l.commits E ev = none) :
    (l.next E ev).engine = l.engine := by
  unfold commits at h
  unfold next
  cases hev : l.event ev with
  | none => rfl
  | some ev' =>
    rw [hev] at h
    exact Engine.next_of_none h

/-- A run carries the node's chain on. -/
theorem chain_extends {l : RunLoop} {evs : List LoopEvent} (hcur : l.engine.Current) (h : RunLoop.Along E Timely l evs) :
    Linear E (l.engine.currentHeight.toNat + 1) (lastHash E l.engine.lastBlock) (l.committed E evs) := by
  induction evs generalizing l with
  | nil => exact .nil
  | cons ev evs ih =>
    obtain ⟨ht, hrest⟩ := h
    unfold RunLoop.committed
    cases hc : l.commits E ev with
    | none =>
      have heng := RunLoop.next_of_none hc
      have hih := ih (heng ▸ hcur) hrest
      rwa [heng] at hih
    | some c =>
      obtain ⟨hheight, hfollows⟩ := RunLoop.commits_timely hcur ht hc
      have heng := RunLoop.next_of_commits hc
      have hih := ih (by rw [heng]; rfl) hrest
      rw [heng] at hih
      simp only [Option.toList_some, List.singleton_append]
      refine .cons hheight hfollows.prevHash hfollows.chainHeight ?_
      rw [← hheight]
      exact hih

/-- **One node's chain is linear** from genesis on, in every run in which its
loop proposes in time. -/
theorem chain_linear {evs : List LoopEvent} (hlast : e.lastBlock = none) (hheight : e.currentHeight = 0)
    (h : RunLoop.Along E Timely ⟨e, none⟩ evs) : Linear E 1 .zero (RunLoop.committed E ⟨e, none⟩ evs) := by
  have hcur : e.Current := by
    rw [Engine.Current, hlast, hheight]
    rfl
  have hchain : Linear E (e.currentHeight.toNat + 1) (lastHash E e.lastBlock) (RunLoop.committed E ⟨e, none⟩ evs) :=
    chain_extends hcur h
  rwa [hlast, hheight] at hchain

theorem not_linear_of_heights {prev : Hash} {cs : List (Block × WorldState)}
    (h : cs.map (·.1.header.height) = [1, 1]) : ¬ Linear E 1 prev cs := by
  obtain - | ⟨c₁, - | ⟨c₂, cs⟩⟩ := cs
  · simp at h
  · simp at h
  · intro hlinear
    simp only [List.map_cons, List.cons.injEq] at h
    cases hlinear with
    | cons _ _ _ hrest =>
      cases hrest with
      | cons htwo => simp [h.2.1] at htwo

section

open Sample

/-- The one validator of `config`. -/
def soloNode : Engine := { node 1 with params := config, genesisValSet := config.validators, state := genesis }

/-- A block of its own for height 1, which a peer puts to its vote. -/
def soloBlock : PbBlock := ⟨(soloNode.assembleBlock env orders 1 [] 10).value.1.header, [], none⟩

/-- The block comes back with that vote while the loop waits at height 1. -/
def soloFinalized : LoopEvent :=
  .finalized orders (fun _ => order) 10
    ⟨soloBlock, some ⟨1, soloBlock.header.hash env, [soloNode.castVote env soloBlock.header]⟩⟩

/-- Then the loop proposes: a second block at height 1. -/
def lateProposal : List LoopEvent := [.read, .proposal orders 10 soloBlock, soloFinalized, .propose orders [] 12 []]

theorem soloNode_lastBlock : soloNode.lastBlock = none := rfl

theorem soloNode_currentHeight : soloNode.currentHeight = 0 := rfl

theorem chain_repeats : soloNode.lastBlock = none ∧ soloNode.currentHeight = 0 ∧
    (soloNode.onProposal env orders 10 soloBlock).toOption = some (soloNode.castVote env soloBlock.header) ∧
    ¬ Linear env 1 .zero (RunLoop.committed env ⟨soloNode, none⟩ lateProposal) := by
  have hrun : (soloNode.onProposal env orders 10 soloBlock).toOption = some (soloNode.castVote env soloBlock.header) ∧
      (RunLoop.committed env ⟨soloNode, none⟩ lateProposal).map (·.1.header.height) = [1, 1] := by decide +kernel
  exact ⟨soloNode_lastBlock, soloNode_currentHeight, hrun.1, not_linear_of_heights hrun.2⟩

/-- Read again after the commit, the loop proposes at height 2. -/
def timelyProposal : List LoopEvent := [.proposal orders 10 soloBlock, soloFinalized, .read, .propose orders [] 12 []]

theorem chain_linear_solo : (RunLoop.committed env ⟨soloNode, none⟩ timelyProposal).map (·.1.header.height) = [1, 2] ∧
    Linear env 1 .zero (RunLoop.committed env ⟨soloNode, none⟩ timelyProposal) := by
  have hrun : (RunLoop.committed env ⟨soloNode, none⟩ timelyProposal).map (·.1.header.height) = [1, 2] ∧
      RunLoop.Along env Timely ⟨soloNode, none⟩ timelyProposal := by decide +kernel
  exact ⟨hrun.1, chain_linear soloNode_lastBlock soloNode_currentHeight hrun.2⟩

end

/-! ## Votes -/

/-- The header last voted for since the last commit, after an event. -/
def voteLock (E : Env) (e : Engine) (lock : Option BlockHeader) (ev : Event) : Option BlockHeader :=
  if (e.commits E ev).isSome then none else (e.votesFor E ev).or lock

/-- The block put to the node's vote, by a peer or by itself, is at the next
height and no other than one it has voted for there. -/
def VotesOnce (E : Env) (e : Engine) (lock : Option BlockHeader) (ev : Event) : Prop :=
  e.currentHeight.toNat + 1 < 2 ^ 64 ∧
    ∀ header ∈ e.votesFor E ev, header.height = e.currentHeight + 1 ∧ ∀ voted ∈ lock, header = voted

/-- So it is all along a run. -/
def VotesOnceAlong (E : Env) : Engine → Option BlockHeader → List Event → Prop
  | _, _, [] => True
  | e, lock, ev :: evs => VotesOnce E e lock ev ∧ VotesOnceAlong E (e.next E ev) (voteLock E e lock ev) evs

instance {lock : Option BlockHeader} : Decidable (VotesOnce E e lock ev) := inferInstanceAs (Decidable (_ ∧ _))

instance decidableVotesOnceAlong : ∀ (e : Engine) (lock : Option BlockHeader) (evs : List Event),
    Decidable (VotesOnceAlong E e lock evs)
  | _, _, [] => inferInstanceAs (Decidable True)
  | e, lock, ev :: evs => @instDecidableAnd _ _ _ (decidableVotesOnceAlong (e.next E ev) (voteLock E e lock ev) evs)

/-- A block the node commits is at the next height. -/
theorem commits_height {lock : Option BlockHeader} (hcur : e.Current) (h : VotesOnce E e lock ev)
    (hc : e.commits E ev = some c) : c.1.header.height = e.currentHeight + 1 := by
  cases ev with
  | propose o height txs timestamp replies =>
    obtain ⟨block, hr, hheader⟩ := commits_propose hc
    have hvote : e.votesFor E (.propose o height txs timestamp replies) = some block.header := by
      rw [Engine.votesFor, hr]
      rfl
    rw [hheader]
    exact (h.2 _ hvote).1
  | proposal o now block => cases hc
  | finalized o ord now fb => rw [(commits_finalized hc).2.1, hcur.nextHeight]
  | synced o ord now fb => rw [(commits_synced hc).2, hcur.nextHeight]

/-- Votes are for later heights, at the next one for the block voted for there. -/
theorem signed_later {lock : Option BlockHeader} (hcur : e.Current) (h : VotesOnceAlong E e lock evs) {vote : BlockVote}
    (hv : vote ∈ e.signed E evs) : e.currentHeight.toNat + 1 ≤ vote.height.toNat ∧
      (vote.height = e.currentHeight + 1 → ∀ voted ∈ lock, vote.blockHash = voted.hash E) := by
  induction evs generalizing e lock with
  | nil => simp [Engine.signed] at hv
  | cons ev evs ih =>
    obtain ⟨⟨hroom, hnext⟩, hrest⟩ := h
    have hsucc : (e.currentHeight + 1).toNat = e.currentHeight.toNat + 1 := by
      rw [UInt64.toNat_add, UInt64.toNat_one]
      exact Nat.mod_eq_of_lt hroom
    rw [Engine.signed, List.mem_append] at hv
    rcases hv with hv | hv
    · simp only [Option.mem_toList, Option.map_eq_some_iff] at hv
      obtain ⟨header, hheader, rfl⟩ := hv
      obtain ⟨hheight, hsame⟩ := hnext header hheader
      have hvote : ((e.castVote E header).height).toNat = e.currentHeight.toNat + 1 := by
        rw [← hsucc, ← hheight]
        rfl
      refine ⟨hvote.ge, fun _ voted hvoted => ?_⟩
      rw [← hsame voted hvoted]
      rfl
    · have hih := ih (Engine.next_current hcur) hrest hv
      cases hc : e.commits E ev with
      | some c =>
        have hheight := commits_height hcur ⟨hroom, hnext⟩ hc
        rw [Engine.next_of_commits hc] at hih
        have hlater : (e.currentHeight + 1).toNat + 1 ≤ vote.height.toNat := by
          rw [← hheight]
          exact hih.1
        refine ⟨by omega, fun heq => ?_⟩
        rw [heq] at hlater
        omega
      | none =>
        rw [Engine.next_of_none hc] at hih
        refine ⟨hih.1, fun heq voted hvoted => ?_⟩
        -- The lock is the new vote, which is the old one, or still the old one.
        cases hvote : e.votesFor E ev with
        | none => exact hih.2 heq voted (by simp [voteLock, hc, hvote, Option.mem_def.mp hvoted])
        | some header =>
          rw [← (hnext header hvote).2 voted hvoted]
          exact hih.2 heq header (by simp [voteLock, hc, hvote])

theorem signed_agree {lock : Option BlockHeader} (hcur : e.Current) (h : VotesOnceAlong E e lock evs) :
    (e.signed E evs).Pairwise fun v w => v.height = w.height → v.blockHash = w.blockHash := by
  induction evs generalizing e lock with
  | nil => exact .nil
  | cons ev evs ih =>
    have hrest := ih (Engine.next_current hcur) h.2
    rw [Engine.signed]
    cases hvote : e.votesFor E ev with
    | none => exact hrest
    | some header =>
      obtain ⟨hheight, -⟩ := h.1.2 header hvote
      refine List.pairwise_cons.mpr ⟨fun w hw heq => ?_, hrest⟩
      have heq : w.height = e.currentHeight + 1 := by
        rw [← heq, ← hheight]
        rfl
      have hlater := signed_later (Engine.next_current hcur) h.2 hw
      cases hc : e.commits E ev with
      | some c =>
        have hup := commits_height hcur h.1 hc
        rw [Engine.next_of_commits hc] at hlater
        have hless : c.1.header.height.toNat + 1 ≤ w.height.toNat := hlater.1
        rw [hup, heq] at hless
        omega
      | none =>
        rw [Engine.next_of_none hc] at hlater
        exact (hlater.2 heq header (by simp [voteLock, hc, hvote])).symm

/-- **An honest node never equivocates** in a run in which it is asked to vote
for one block a height: no two of its votes are evidence against it. -/
theorem never_equivocates (hcur : e.Current) (h : VotesOnceAlong E e none evs) :
    (∀ v ∈ e.signed E evs, ∀ w ∈ e.signed E evs, v.height = w.height → v.blockHash = w.blockHash) ∧
    ∀ v ∈ e.signed E evs, ∀ w ∈ e.signed E evs, SlashEvidence.isValid E ⟨v, w⟩ = false := by
  have hagree : ∀ v ∈ e.signed E evs, ∀ w ∈ e.signed E evs, v.height = w.height → v.blockHash = w.blockHash := by
    intro v hv w hw
    have hsymm : Std.Symm fun v w : BlockVote => v.height = w.height → v.blockHash = w.blockHash :=
      ⟨fun v w hvw heq => (hvw heq.symm).symm⟩
    exact (signed_agree hcur h).forall_of_forall (fun v _ _ => rfl) hv hw
  refine ⟨hagree, fun v hv w hw => ?_⟩
  rw [Bool.eq_false_iff]
  intro hvalid
  obtain ⟨-, hheight, hhash, -, -⟩ := SlashEvidence.isValid_iff.mp hvalid
  exact hhash (hagree v hv w hw hheight)

section

open Sample

/-- Node 1 gets no votes for its proposal, and two seconds later proposes again,
with a transaction that has come in. -/
def retried : List Event := [.propose orders 1 [] 10 [], .propose orders 1 [createPost 1 100 1] 12 []]

theorem equivocates_retried : (node 1).lastBlock = none ∧ (node 1).currentHeight = 0 ∧
    ∃ v ∈ (node 1).signed env retried, ∃ w ∈ (node 1).signed env retried,
      v.height = w.height ∧ v.blockHash ≠ w.blockHash ∧ SlashEvidence.isValid env ⟨v, w⟩ = true := by
  refine ⟨rfl, rfl, ?_⟩
  decide +kernel

/-- With the votes of the others it commits, and proposes at the next height. -/
def certifiedAtOnce : List Event :=
  [.propose orders 1 [] 10 ([2, 3].map fun n => (node n).castVote env uncertified.block.header),
    .propose orders 2 [createPost 1 100 1] 12 []]

theorem never_equivocates_certified : ((node 1).signed env certifiedAtOnce).map (·.height) = [1, 2] ∧
    ∀ v ∈ (node 1).signed env certifiedAtOnce, ∀ w ∈ (node 1).signed env certifiedAtOnce,
      SlashEvidence.isValid env ⟨v, w⟩ = false := by
  have hcur : (node 1).Current := rfl
  have hrun : ((node 1).signed env certifiedAtOnce).map (·.height) = [1, 2] ∧
      VotesOnceAlong env (node 1) none certifiedAtOnce := by decide +kernel
  exact ⟨hrun.1, (never_equivocates hcur hrun.2).2⟩

end

end Drana
