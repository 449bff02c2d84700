/-
Whose blocks are committed. A proposal says whose it is, but nothing shows that
it is (`ValidateProposedBlock` compares the header's proposer), and a vote goes
back to whoever asks. So a block is its proposer's where no quorum is without
the proposer's own vote.
-/
import Drana.Network

namespace Drana

open Network

variable {ι : Type} [DecidableEq ι] {E : Env} {nodes : ι → Engine} {run before rest : List (ι × Event)} {i : ι}
  {ev : Event} {e : Engine} {c : Block × WorldState}

/-- The block has the vote of the validator whose height it is. -/
def ProposerVoted (E : Env) (vs : List ValidatorStake) (block : Block) : Prop :=
  ∃ qc, block.qc = some qc ∧ ∃ vote ∈ qc.votes, IsVoteFor E block.header.height (block.header.hash E) vote ∧
    vote.voterAddr = (proposerForHeight vs block.header.height).address

/-- The node signs what verifies, for its own address. -/
structure HoldsKey (E : Env) (e : Engine) : Prop where
  address : addressFromPublicKey E e.privKey.publicKey = e.address
  verifies : ∀ message, verify E e.privKey.publicKey message (sign E e.privKey message) = true

/-- At the next height the others make no quorum. -/
def ProposerNeeded (e : Engine) : Prop :=
  Quorum.weight (stakeOf e.activeValidators)
      ((members e.activeValidators).erase (proposerForHeight e.activeValidators (nextHeight e.lastBlock)).address) <
    (quorumThreshold e.activeValidators).toNat

/-- The node proposes in its own slot, after its last block, and takes a
finalized block where its proposer is needed. It does not sync. -/
def Led (e : Engine) : Event → Prop
  | .propose _ height _ _ _ => height = nextHeight e.lastBlock ∧ isProposer e.activeValidators height e.address = true
  | .proposal _ _ _ => True
  | .finalized _ _ _ _ => ProposerNeeded e
  | .synced _ _ _ _ => False

/-- All active validators are honest nodes. -/
def AllHonest (nodes : ι → Engine) (e : Engine) : Prop := ∀ v ∈ e.activeValidators, ∃ k, (nodes k).address = v.address

theorem HoldsKey.castVote (h : HoldsKey E e) (header : BlockHeader) :
    IsVoteFor E header.height (header.hash E) (e.castVote E header) := by
  refine ⟨?_, rfl, rfl⟩
  have hverifies := h.verifies (e.castVote E header).signableBytes
  have hlength : (e.castVote E header).signature.length ≠ 0 := by
    intro hzero
    have hshort : (sign E e.privKey (e.castVote E header).signableBytes).length ≠ 64 := by
      rw [show (sign E e.privKey (e.castVote E header).signableBytes).length = 0 from hzero]
      decide
    rw [verify, if_pos hshort] at hverifies
    cases hverifies
  have haddr : ¬ addressFromPublicKey E (e.castVote E header).voterPubKey ≠ (e.castVote E header).voterAddr :=
    not_not.mpr h.address
  rw [verifyBlockVote, if_neg hlength, if_neg haddr]
  exact hverifies

/-- A quorum that needs the proposer has it. -/
theorem ProposerNeeded.backs {qc : QuorumCertificate} {hash : Hash} {u : Unit} (h : ProposerNeeded e)
    (hv : validateQuorumCertificate E qc hash e.activeValidators = .ok u) :
    (proposerForHeight e.activeValidators (nextHeight e.lastBlock)).address ∈ backers E e.activeValidators qc := by
  by_contra hnot
  have hstake := (validateQuorumCertificate_ok_iff.mp hv).2
  have hmod := Nat.mod_le (Quorum.weight (stakeOf e.activeValidators) (backers E e.activeValidators qc)) (2 ^ 64)
  have hothers : Quorum.weight (stakeOf e.activeValidators) (backers E e.activeValidators qc) ≤
      Quorum.weight (stakeOf e.activeValidators)
        ((members e.activeValidators).erase (proposerForHeight e.activeValidators (nextHeight e.lastBlock)).address) :=
    Quorum.weight_mono fun a ha =>
      Finset.mem_erase.mpr ⟨fun heq => hnot (heq ▸ ha), Finset.inter_subset_right ha⟩
  have hlt : Quorum.weight (stakeOf e.activeValidators)
      ((members e.activeValidators).erase (proposerForHeight e.activeValidators (nextHeight e.lastBlock)).address) <
    (quorumThreshold e.activeValidators).toNat := h
  omega

/-- A vote for a committed block's hash that an honest node has signed is for
the height of the block. -/
theorem vote_height {vote : BlockVote} {k : ι} (hdistinct : HeadersDistinct E nodes run) (hc : Commits E nodes run i c)
    (hw : ∃ w ∈ signed E nodes run k, w.height = vote.height ∧ w.blockHash = vote.blockHash)
    (hhash : vote.blockHash = c.1.header.hash E) : vote.height = c.1.header.height := by
  obtain ⟨w, hw, hheight, hblock⟩ := hw
  obtain ⟨header, hvotes, hwheight, hwhash⟩ := signed_votes hw
  have heq : header = c.1.header := by
    refine hdistinct.eq (.inl ⟨k, hvotes⟩) (.inr ⟨i, c, hc, rfl⟩) ?_
    rw [← hwhash, hblock, hhash]
  rw [← hheight, hwheight, heq]

/-- **Committed blocks are their proposers'**: among honest validators, where
the proposer is needed whenever a block is finalized, every block that a node
commits has the vote of the validator whose height it is. -/
theorem proposer_voted (hkeys : ∀ i, HoldsKey E (nodes i)) (hunforged : Unforged E nodes run)
    (hdistinct : HeadersDistinct E nodes run)
    (hhonest : Always (fun before i _ => AllHonest nodes (after E nodes before i)) run)
    (hled : Always (fun before i ev => Led (after E nodes before i) ev) run) :
    Always (fun before i ev => ∀ c, (after E nodes before i).commits E ev = some c →
      ProposerVoted E (after E nodes before i).activeValidators c.1) run := by
  intro before i ev rest hrun c hc
  have hstep := hled before i ev rest hrun
  have hcommits : Commits E nodes run i c := ⟨before, ev, rest, hrun, hc⟩
  cases ev with
  | propose o height txs timestamp replies =>
    obtain ⟨rfl, hslot⟩ := hstep
    simp only [Engine.commits] at hc
    split at hc
    · next block newState hblock =>
      rw [Except.toOption_eq_some_iff] at hc
      obtain ⟨-, rfl⟩ := certifyProposal_ok_iff.mp hc
      have hheight := (assembleBlock_ok hblock).1
      have hkey : HoldsKey E (after E nodes before i) := by
        rcases after_cases E nodes before i with h | ⟨c', -, h⟩
        · rw [h]
          exact hkeys i
        · rw [h]
          exact ⟨(hkeys i).address, (hkeys i).verifies⟩
      refine ⟨_, rfl, _, List.mem_cons_self, hkey.castVote block.header, ?_⟩
      show (after E nodes before i).address = _
      rw [hheight]
      exact (of_decide_eq_true hslot).symm
    · cases hc
  | proposal o now block => cases hc
  | synced o ord now fb => exact absurd hstep id
  | finalized o ord now fb =>
    have hcf := commits_finalized hc
    simp only [Engine.commits, Option.join_eq_some_iff, Except.toOption_eq_some_iff] at hc
    obtain ⟨qc, hgiven, hblock, hvalid, -⟩ := acceptFinalized_ok hc
    have hbacks := ProposerNeeded.backs hstep hvalid
    rw [← hcf.2.1] at hbacks
    obtain ⟨hvoters, hmember⟩ := Finset.mem_inter.mp hbacks
    obtain ⟨vote, hmem, hvote, haddr⟩ := mem_votersOf.mp hvoters
    have hhash : vote.blockHash = c.1.header.hash E := hvote.2.2.trans (validateQuorumCertificate_ok_iff.mp hvalid).1
    obtain ⟨stake, hs⟩ := mem_members.mp hmember
    obtain ⟨v, hv, hva, -⟩ := exists_validator hs
    obtain ⟨k, hk⟩ := hhonest before i _ rest hrun v hv
    have hsent : vote ∈ (Event.finalized o ord now fb).votes := by
      rw [Event.votes, hgiven]
      exact List.mem_append_right _ hmem
    obtain ⟨w, hw, hsame⟩ := hunforged before i _ rest hrun vote hsent hvote.1 k (hk.trans (hva.trans haddr.symm))
    have hheight : vote.height = c.1.header.height := by
      have hw : w ∈ signed E nodes run k := by
        rw [hrun]
        exact signed_mono hw
      exact vote_height hdistinct hcommits ⟨w, hw, hsame⟩ hhash
    exact ⟨qc, by rw [hblock], vote, hmem, ⟨hvote.1, hheight, hhash⟩, haddr⟩

section

open Sample

theorem node_holdsKey (n : UInt8) : HoldsKey env (node n) := ⟨rfl, fun _ => verify_sign⟩

/-- Three validators of the same stake. -/
def trio (i : Fin 3) : Engine := node (UInt8.ofNat (i + 1))

abbrev second : Fin 3 := 1

abbrev third : Fin 3 := 2

/-- They vote for a block of node 1, and node 2 gets it back with their votes. -/
def trioRun : List (Fin 3 × Event) :=
  [(0, .proposal orders 10 uncertified.block), (second, .proposal orders 10 uncertified.block),
    (third, .proposal orders 10 uncertified.block), (second, .finalized orders (fun _ => order) 10 certified)]

instance (e : Engine) : Decidable (ProposerNeeded e) := inferInstanceAs (Decidable (_ < _))

instance (e : Engine) : ∀ ev, Decidable (Led e ev)
  | .propose _ _ _ _ _ => inferInstanceAs (Decidable (_ ∧ _))
  | .proposal _ _ _ => inferInstanceAs (Decidable True)
  | .finalized _ _ _ _ => inferInstanceAs (Decidable (ProposerNeeded e))
  | .synced _ _ _ _ => inferInstanceAs (Decidable False)

instance [Fintype ι] (e : Engine) : Decidable (AllHonest nodes e) := List.decidableBAll _ _

theorem trio_run : Unforged env trio trioRun ∧
    Always (fun before i ev => ∀ header ∈ headersAt env (after env trio before i) ev,
      header ∈ [certified.block.header]) trioRun ∧
    Always (fun before i _ => AllHonest trio (after env trio before i)) trioRun ∧
    Always (fun before i ev => Led (after env trio before i) ev) trioRun := by
  refine ⟨?_, ?_, ?_, ?_⟩ <;> decide +kernel

theorem proposer_voted_trio : Always (fun before i ev => ∀ c, (after env trio before i).commits env ev = some c →
    ProposerVoted env (after env trio before i).activeValidators c.1) trioRun := by
  obtain ⟨hunforged, hheaders, hhonest, hled⟩ := trio_run
  have hdistinct : HeadersDistinct env trio trioRun := by
    refine headersDistinct_of_mem (fun header h header' h' _ => ?_) hheaders
    rw [List.mem_singleton.mp h, List.mem_singleton.mp h']
  exact proposer_voted (fun i => node_holdsKey _) hunforged hdistinct hhonest hled

/-- Four validators of the same stake. -/
def config4 : GenesisConfig :=
  { config with
    accounts := config.accounts ++ [⟨address 4, 1000⟩]
    validators := [1, 2, 3, 4].map fun n => ⟨address n, (key n).publicKey, 100⟩ }

def genesis4 : WorldState := (initializeState env config4).value

def quad (i : Fin 4) : Engine :=
  { node (UInt8.ofNat (i + 1)) with params := config4, genesisValSet := config4.validators, state := genesis4 }

/-- A block that somebody else has made for node 1. -/
def outsiderBlock : PbBlock := ⟨((quad 0).assembleBlock env orders 1 [] 10).value.1.header, [], none⟩

/-- The others vote for it, for whoever has asked. -/
def outsiderVotes : List BlockVote := [1, 2, 3].map fun i => (quad i).castVote env outsiderBlock.header

def outsiderRun : List (Fin 4 × Event) :=
  [(1, .proposal orders 10 outsiderBlock), (2, .proposal orders 10 outsiderBlock), (3, .proposal orders 10 outsiderBlock),
    (1, .finalized orders (fun _ => order) 10 ⟨outsiderBlock, some ⟨1, outsiderBlock.header.hash env, outsiderVotes⟩⟩)]

theorem outsider_run : Unforged env quad outsiderRun ∧
    Always (fun before i _ => AllHonest quad (after env quad before i)) outsiderRun ∧
    ((after env quad (outsiderRun.take 3) 1).acceptFinalized env orders (fun _ => order) 10
      ⟨outsiderBlock, some ⟨1, outsiderBlock.header.hash env, outsiderVotes⟩⟩).toOption.join.isSome = true ∧
    ∀ vote ∈ outsiderVotes, vote.voterAddr ≠
      (proposerForHeight (after env quad (outsiderRun.take 3) 1).activeValidators
        outsiderBlock.header.height).address := by
  refine ⟨?_, ?_, ?_, ?_⟩ <;> decide +kernel

/-- A block that its proposer has not seen is committed. -/
theorem outsider_committed : (∀ i, HoldsKey env (quad i)) ∧ Unforged env quad outsiderRun ∧
    Always (fun before i _ => AllHonest quad (after env quad before i)) outsiderRun ∧
    ∃ c, (after env quad (outsiderRun.take 3) 1).commits env (outsiderRun.get ⟨3, by decide⟩).2 = some c ∧
      ¬ ProposerVoted env (after env quad (outsiderRun.take 3) 1).activeValidators c.1 := by
  obtain ⟨hunforged, hhonest, hsome, hvotes⟩ := outsider_run
  obtain ⟨c, hc⟩ := Option.isSome_iff_exists.mp hsome
  refine ⟨fun i => ⟨rfl, fun _ => verify_sign⟩, hunforged, hhonest, c, hc, ?_⟩
  rw [Option.join_eq_some_iff, Except.toOption_eq_some_iff] at hc
  obtain ⟨qc, hqc, hblock, -⟩ := acceptFinalized_ok hc
  cases hqc
  rintro ⟨qc, hqc, vote, hmem, -, haddr⟩
  rw [hblock] at hqc haddr
  cases hqc
  exact hvotes vote hmem haddr

end

end Drana
