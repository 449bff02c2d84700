/-
What the two quorum checks compute. A receiver counts the stake of the voters,
a proposer that of the votes; where a reply repeats a vote the two part.
-/
import Drana.Engine
import Drana.Lib.Quorum

namespace Drana

variable {E : Env} {vs : List ValidatorStake} {qc : QuorumCertificate} {a : Address} {h : UInt64} {hash : Hash}
  {votes : List BlockVote}

/-! ## Stake -/

/-- The stake both checks give an address: that of its last entry. -/
def stakeOf (vs : List ValidatorStake) (a : Address) : Nat := (stakeMap vs).at (fun _ stake => stake.toNat) a

/-- The addresses of the set. -/
def members (vs : List ValidatorStake) : Finset Address := (stakeMap vs).keys

theorem mem_members : a ∈ members vs ↔ ∃ stake, (stakeMap vs).lookup a = some stake := by
  rw [members, Finmap.mem_keys, ← Finmap.lookup_isSome, Option.isSome_iff_exists]

theorem stakeOf_lookup {stake : UInt64} (hs : (stakeMap vs).lookup a = some stake) : stakeOf vs a = stake.toNat :=
  GoMap.at_of_lookup hs

theorem stakeOf_of_notMem (ha : a ∉ members vs) : stakeOf vs a = 0 :=
  GoMap.at_of_none (Finmap.lookup_eq_none.mpr fun hm => ha (Finmap.mem_keys.mpr hm))

/-- What the map holds of an address, an entry of the set says. -/
theorem exists_validator {stake : UInt64} (hs : (stakeMap vs).lookup a = some stake) :
    ∃ v ∈ vs, v.address = a ∧ v.stakedBalance = stake := by
  rcases GoMap.mem_of_lookup_insertAll hs with hm | hm
  · obtain ⟨v, hv, he⟩ := List.mem_map.mp hm
    exact ⟨v, hv, congrArg Prod.fst he, congrArg Prod.snd he⟩
  · cases hm

theorem weight_members_le : Quorum.weight (stakeOf vs) (members vs) ≤ (vs.map (·.stakedBalance.toNat)).sum := by
  have htotal := GoMap.total_insertAll (f := fun _ stake => UInt64.toNat stake) (m := (∅ : GoMap Address UInt64))
    (l := vs.map fun v => (v.address, v.stakedBalance))
  rw [GoMap.total_empty, Nat.zero_add, List.map_map, GoMap.total_eq_sum_keys] at htotal
  exact htotal

theorem totalStake_toNat : (totalStake vs).toNat = (vs.map (·.stakedBalance.toNat)).sum % 2 ^ 64 := by
  have hfold : ∀ (vs : List ValidatorStake) (t : UInt64), (vs.foldl (fun total v => total + v.stakedBalance) t).toNat =
      (t.toNat + (vs.map (·.stakedBalance.toNat)).sum) % 2 ^ 64 := by
    intro vs
    induction vs with
    | nil => exact fun t => (Nat.mod_eq_of_lt t.toNat_lt).symm
    | cons v vs ih =>
      intro t
      rw [List.foldl_cons, ih, UInt64.toNat_add, List.map_cons, List.sum_cons]
      omega
  rw [totalStake, hfold, UInt64.toNat_zero, Nat.zero_add]

theorem quorumThreshold_toNat : (quorumThreshold vs).toNat = (totalStake vs).toNat * 2 / 3 + 1 := by
  have hlt := (totalStake vs).toNat_lt
  have hdiv : (mulDiv (totalStake vs) 2 3).toNat = (totalStake vs).toNat * 2 / 3 :=
    mulDiv_toNat_of_le (by decide) (by decide)
  rw [quorumThreshold, UInt64.toNat_add, hdiv, UInt64.toNat_one]
  omega

/-! ## Votes -/

/-- A vote for the block of this height and hash, properly signed. -/
def IsVoteFor (E : Env) (h : UInt64) (hash : Hash) (vote : BlockVote) : Prop :=
  verifyBlockVote E vote = true ∧ vote.height = h ∧ vote.blockHash = hash

instance (vote : BlockVote) : Decidable (IsVoteFor E h hash vote) := inferInstanceAs (Decidable (_ ∧ _))

/-- The votes for the block among `votes`. -/
def votesOf (E : Env) (h : UInt64) (hash : Hash) (votes : List BlockVote) : List BlockVote :=
  votes.filter fun vote => IsVoteFor E h hash vote

/-- Who cast them. -/
def votersOf (E : Env) (h : UInt64) (hash : Hash) (votes : List BlockVote) : Finset Address :=
  ((votesOf E h hash votes).map (·.voterAddr)).toFinset

theorem mem_votersOf : a ∈ votersOf E h hash votes ↔ ∃ vote ∈ votes, IsVoteFor E h hash vote ∧ vote.voterAddr = a := by
  simp only [votersOf, votesOf, List.mem_toFinset, List.mem_map, List.mem_filter, decide_eq_true_eq, and_assoc]

theorem votersOf_cons {vote : BlockVote} : votersOf E h hash (vote :: votes) =
    if IsVoteFor E h hash vote then insert vote.voterAddr (votersOf E h hash votes) else votersOf E h hash votes := by
  unfold votersOf votesOf
  split
  · next hv => rw [List.filter_cons_of_pos (by simpa using hv), List.map_cons, List.toFinset_cons]
  · next hv => rw [List.filter_cons_of_neg (by simpa using hv)]

/-- The stake of the voters, each once. -/
def voterStake (E : Env) (vs : List ValidatorStake) (h : UInt64) (hash : Hash) (votes : List BlockVote) : Nat :=
  Quorum.weight (stakeOf vs) (votersOf E h hash votes)

/-- The stake of the votes, that of a repeated vote again. -/
def repeatedStake (E : Env) (vs : List ValidatorStake) (h : UInt64) (hash : Hash) (votes : List BlockVote) : Nat :=
  ((votesOf E h hash votes).map fun vote => stakeOf vs vote.voterAddr).sum

theorem tallyVotes_toNat :
    (Engine.tallyVotes E (stakeMap vs) h hash votes).toNat = repeatedStake E vs h hash votes % 2 ^ 64 := by
  have hfold : ∀ (votes : List BlockVote) (t : UInt64), (votes.foldl (fun voteStake v =>
      if verifyBlockVote E v ∧ v.height = h ∧ v.blockHash = hash then
        voteStake + ((stakeMap vs).lookup v.voterAddr).getD 0
      else voteStake) t).toNat = (t.toNat + repeatedStake E vs h hash votes) % 2 ^ 64 := by
    intro votes
    induction votes with
    | nil => exact fun t => (Nat.mod_eq_of_lt t.toNat_lt).symm
    | cons vote votes ih =>
      intro t
      rw [List.foldl_cons, ih]
      by_cases hv : IsVoteFor E h hash vote
      · have hstake : (((stakeMap vs).lookup vote.voterAddr).getD 0).toNat = stakeOf vs vote.voterAddr := by
          rw [stakeOf, GoMap.at]
          cases (stakeMap vs).lookup vote.voterAddr <;> rfl
        have hif : verifyBlockVote E vote = true ∧ vote.height = h ∧ vote.blockHash = hash := hv
        rw [if_pos hif, UInt64.toNat_add, hstake, repeatedStake, repeatedStake, votesOf, votesOf,
          List.filter_cons_of_pos (by simpa using hv), List.map_cons, List.sum_cons]
        omega
      · have hif : ¬ (verifyBlockVote E vote = true ∧ vote.height = h ∧ vote.blockHash = hash) := hv
        rw [if_neg hif, repeatedStake, repeatedStake, votesOf, votesOf, List.filter_cons_of_neg (by simpa using hv)]
  rw [Engine.tallyVotes, hfold, UInt64.toNat_zero, Nat.zero_add]

/-- The vote is counted if its voter is a member not seen before. -/
theorem countVote_eq {acc : Finset Address × UInt64} {vote : BlockVote} :
    countVote E (stakeMap vs) qc acc vote =
      if vote.voterAddr ∈ members vs ∧ vote.voterAddr ∉ acc.1 ∧ IsVoteFor E qc.height qc.blockHash vote then
        (insert vote.voterAddr acc.1, acc.2 + ((stakeMap vs).lookup vote.voterAddr).getD 0)
      else acc := by
  unfold countVote
  cases hs : (stakeMap vs).lookup vote.voterAddr with
  | none =>
    have hnot : vote.voterAddr ∉ members vs := fun hm => by
      obtain ⟨stake, hs'⟩ := mem_members.mp hm
      rw [hs] at hs'
      cases hs'
    simp [hnot]
  | some stake =>
    have hmem : vote.voterAddr ∈ members vs := mem_members.mpr ⟨stake, hs⟩
    by_cases hseen : vote.voterAddr ∈ acc.1
    · simp [hseen]
    · by_cases hv : IsVoteFor E qc.height qc.blockHash vote
      · simp [hmem, hseen, hv, hv.1, hv.2.1, hv.2.2]
      · rw [if_neg fun hc => hv hc.2.2]
        simp only [hseen, if_false]
        split
        · rfl
        · next hm =>
          rw [not_or, not_not, not_not] at hm
          cases hver : verifyBlockVote E vote with
          | false => rfl
          | true => exact absurd ⟨hver, hm⟩ hv

theorem foldl_countVote {votes : List BlockVote} {acc : Finset Address × UInt64} :
    (votes.foldl (countVote E (stakeMap vs) qc) acc).2.toNat = (acc.2.toNat + Quorum.weight (stakeOf vs)
      ((votersOf E qc.height qc.blockHash votes ∩ members vs) \ acc.1)) % 2 ^ 64 := by
  induction votes generalizing acc with
  | nil =>
    have hlt := acc.2.toNat_lt
    rw [votersOf, votesOf, List.filter_nil, List.map_nil, List.toFinset_nil, Finset.empty_inter, Finset.empty_sdiff,
      Quorum.weight, Finset.sum_empty, Nat.add_zero, List.foldl_nil, Nat.mod_eq_of_lt hlt]
  | cons vote votes ih =>
    rw [List.foldl_cons, ih, countVote_eq, votersOf_cons]
    split
    · next hc =>
      obtain ⟨hmem, hseen, hv⟩ := hc
      obtain ⟨stake, hs⟩ := mem_members.mp hmem
      rw [if_pos hv]
      -- Of the voters not seen before, this one is counted now and the others later.
      have hset : (insert vote.voterAddr (votersOf E qc.height qc.blockHash votes) ∩ members vs) \ acc.1 =
          insert vote.voterAddr ((votersOf E qc.height qc.blockHash votes ∩ members vs) \ insert vote.voterAddr
            acc.1) := by
        ext b
        simp only [Finset.mem_sdiff, Finset.mem_inter, Finset.mem_insert]
        by_cases hb : b = vote.voterAddr
        · subst hb
          simp [hmem, hseen]
        · simp [hb]
      rw [hset, Quorum.weight, Quorum.weight, Finset.sum_insert (by simp), stakeOf_lookup hs, hs, Option.getD_some,
        UInt64.toNat_add]
      simp only
      omega
    · next hc =>
      have hset : ((if IsVoteFor E qc.height qc.blockHash vote then
            insert vote.voterAddr (votersOf E qc.height qc.blockHash votes)
          else votersOf E qc.height qc.blockHash votes) ∩ members vs) \ acc.1 =
          (votersOf E qc.height qc.blockHash votes ∩ members vs) \ acc.1 := by
        split
        · next hv =>
          ext b
          simp only [Finset.mem_sdiff, Finset.mem_inter, Finset.mem_insert]
          by_cases hb : b = vote.voterAddr
          · subst hb
            by_cases hm : vote.voterAddr ∈ members vs <;> by_cases hs : vote.voterAddr ∈ acc.1 <;> simp_all
          · simp [hb]
        · rfl
      rw [hset]

/-- Who stands behind a certificate. -/
def backers (E : Env) (vs : List ValidatorStake) (qc : QuorumCertificate) : Finset Address :=
  votersOf E qc.height qc.blockHash qc.votes ∩ members vs

/-- A certificate is valid if its backers' stake reaches the threshold. -/
theorem validateQuorumCertificate_ok_iff {u : Unit} : validateQuorumCertificate E qc hash vs = .ok u ↔
    qc.blockHash = hash ∧
      (quorumThreshold vs).toNat ≤ Quorum.weight (stakeOf vs) (backers E vs qc) % 2 ^ 64 := by
  simp only [validateQuorumCertificate, Except.bind_ok_iff, Except.throwIf_ok_iff, ne_eq, not_not, exists_const,
    UInt64.not_lt, UInt64.le_iff_toNat_le, foldl_countVote, Finset.sdiff_empty, UInt64.toNat_zero, Nat.zero_add, backers]

/-! ## A proposer's certificate -/

/-- Votes of others weigh nothing. -/
theorem weight_backers : Quorum.weight (stakeOf vs) (backers E vs qc) =
      voterStake E vs qc.height qc.blockHash qc.votes := by
  refine Finset.sum_subset Finset.inter_subset_left fun a ha hnot => stakeOf_of_notMem fun hm => hnot ?_
  exact Finset.mem_inter.mpr ⟨ha, hm⟩

theorem certifyProposal_ok_iff {e : Engine} {block : Block} {newState : WorldState} {replies : List BlockVote}
    {c : Block × WorldState} : e.certifyProposal E block newState replies = .ok c ↔
      (quorumThreshold e.activeValidators).toNat ≤ repeatedStake E e.activeValidators block.header.height
        (block.header.hash E) (e.proposalVotes E block replies) % 2 ^ 64 ∧
      c = ({ block with qc := some ⟨block.header.height, block.header.hash E, e.proposalVotes E block replies⟩ },
        newState) := by
  simp only [Engine.certifyProposal, Except.bind_ok_iff, Except.throwIf_ok_iff, Except.pure_ok_iff, exists_const,
    UInt64.not_lt, UInt64.le_iff_toNat_le, tallyVotes_toNat]
  exact and_congr_right fun _ => eq_comm

/-- **When a proposer's certificate is accepted**: unless the stake of the
voters misses the threshold that the stake of the votes, a repeated vote
counted again, reaches. -/
theorem certificate_accepted_iff (e : Engine) (block : Block) (newState : WorldState) (replies : List BlockVote) :
    (∀ c, e.certifyProposal E block newState replies = .ok c →
      ∃ qc, c.1.qc = some qc ∧ validateQuorumCertificate E qc (c.1.header.hash E) e.activeValidators = .ok ()) ↔
    ¬ (voterStake E e.activeValidators block.header.height (block.header.hash E)
          (e.proposalVotes E block replies) % 2 ^ 64 < (quorumThreshold e.activeValidators).toNat ∧
        (quorumThreshold e.activeValidators).toNat ≤ repeatedStake E e.activeValidators block.header.height
          (block.header.hash E) (e.proposalVotes E block replies) % 2 ^ 64) := by
  have hvalid : validateQuorumCertificate E ⟨block.header.height, block.header.hash E, e.proposalVotes E block replies⟩
      (block.header.hash E) e.activeValidators = .ok () ↔ (quorumThreshold e.activeValidators).toNat ≤
        voterStake E e.activeValidators block.header.height (block.header.hash E) (e.proposalVotes E block replies) %
          2 ^ 64 := by
    rw [validateQuorumCertificate_ok_iff, weight_backers]
    exact and_iff_right rfl
  constructor
  · rintro haccepted ⟨hvoters, hvotes⟩
    obtain ⟨qc, hqc, hok⟩ := haccepted _ (certifyProposal_ok_iff.mpr ⟨hvotes, rfl⟩)
    cases hqc
    exact Nat.not_le.mpr hvoters (hvalid.mp hok)
  · intro hnot c hc
    obtain ⟨hvotes, rfl⟩ := certifyProposal_ok_iff.mp hc
    refine ⟨_, rfl, hvalid.mpr ?_⟩
    by_contra hvoters
    exact hnot ⟨Nat.not_le.mp hvoters, hvotes⟩

section

open Sample

/-- Node 1 proposes at height 1; node 2 votes, and its vote comes back twice. -/
def doubleReply (block : Block) : List BlockVote :=
  [(node 2).castVote env block.header, (node 2).castVote env block.header]

/-- Two of three equal stakes make a block that no other node takes. -/
theorem certificate_rejected_doubleReply :
    let block := ((node 1).assembleBlock env orders 1 [] 10).value.1
    ((node 1).assembleBlock env orders 1 [] 10).isOk = true ∧
    ∃ c qc, (node 1).certifyProposal env block genesis3 (doubleReply block) = .ok c ∧ c.1.qc = some qc ∧
      (validateQuorumCertificate env qc (c.1.header.hash env) (node 1).activeValidators).isOk = false := by
  intro block
  have hrun : ((node 1).assembleBlock env orders 1 [] 10).isOk = true ∧
      ((node 1).certifyProposal env block genesis3 (doubleReply block)).isOk = true := by decide +kernel
  obtain ⟨c, hc⟩ : ∃ c, (node 1).certifyProposal env block genesis3 (doubleReply block) = .ok c :=
    ⟨_, Except.ok_value hrun.2⟩
  obtain ⟨-, rfl⟩ := certifyProposal_ok_iff.mp hc
  exact ⟨hrun.1, _, _, hc, rfl, by decide +kernel⟩

end

/-! ## Committed blocks -/

/-- The block carries a certificate in which validators with the stake of a
quorum have verified votes for it. -/
def QuorumBacked (E : Env) (vs : List ValidatorStake) (block : Block) : Prop :=
  ∃ qc, block.qc = some qc ∧ ∃ B : Finset ValidatorStake, (∀ v ∈ B, v ∈ vs) ∧
    (∀ v ∈ B, ∀ w ∈ B, v.address = w.address → v = w) ∧
    (∀ v ∈ B, ∃ vote ∈ qc.votes, vote.voterAddr = v.address ∧ vote.blockHash = block.header.hash E ∧
      verifyBlockVote E vote = true) ∧
    (quorumThreshold vs).toNat ≤ ∑ v ∈ B, v.stakedBalance.toNat

/-- Members of the set, as its entries. -/
theorem exists_validators {A : Finset Address} (hA : A ⊆ members vs) : ∃ B : Finset ValidatorStake,
    (∀ v ∈ B, v ∈ vs ∧ v.address ∈ A) ∧ (∀ v ∈ B, ∀ w ∈ B, v.address = w.address → v = w) ∧
    ∑ v ∈ B, v.stakedBalance.toNat = Quorum.weight (stakeOf vs) A := by
  have hentry : ∀ a, ∃ v : ValidatorStake, a ∈ members vs →
      v ∈ vs ∧ v.address = a ∧ v.stakedBalance.toNat = stakeOf vs a := by
    intro a
    by_cases ha : a ∈ members vs
    · obtain ⟨stake, hs⟩ := mem_members.mp ha
      obtain ⟨v, hv, haddr, hbal⟩ := exists_validator hs
      exact ⟨v, fun _ => ⟨hv, haddr, by rw [hbal, stakeOf_lookup hs]⟩⟩
    · exact ⟨⟨a, .zero, 0⟩, fun hm => absurd hm ha⟩
  choose entry hentry using hentry
  have hinj : Set.InjOn entry A := by
    intro a ha b hb hab
    rw [← (hentry a (hA ha)).2.1, hab, (hentry b (hA hb)).2.1]
  refine ⟨A.image entry, fun v hv => ?_, fun v hv w hw hvw => ?_, ?_⟩
  · obtain ⟨a, ha, rfl⟩ := Finset.mem_image.mp hv
    exact ⟨(hentry a (hA ha)).1, by rwa [(hentry a (hA ha)).2.1]⟩
  · obtain ⟨a, ha, rfl⟩ := Finset.mem_image.mp hv
    obtain ⟨b, hb, rfl⟩ := Finset.mem_image.mp hw
    rw [(hentry a (hA ha)).2.1, (hentry b (hA hb)).2.1] at hvw
    rw [hvw]
  · rw [Finset.sum_image hinj, Finset.sum_congr rfl fun a ha => (hentry a (hA ha)).2.2, Quorum.weight]

theorem quorumBacked_of_valid {block : Block} {u : Unit} (hqc : block.qc = some qc)
    (hv : validateQuorumCertificate E qc (block.header.hash E) vs = .ok u) : QuorumBacked E vs block := by
  obtain ⟨hhash, hstake⟩ := validateQuorumCertificate_ok_iff.mp hv
  obtain ⟨B, hB, hdistinct, hsum⟩ := exists_validators (show backers E vs qc ⊆ members vs from Finset.inter_subset_right)
  refine ⟨qc, hqc, B, fun v hv => (hB v hv).1, hdistinct, fun v hv => ?_, ?_⟩
  · obtain ⟨vote, hm, hvote, haddr⟩ := mem_votersOf.mp (Finset.mem_inter.mp (hB v hv).2).1
    exact ⟨vote, hm, haddr, hvote.2.2.trans hhash, hvote.1⟩
  · rw [hsum]
    exact hstake.trans (Nat.mod_le _ _)

/-- The engine's set is the state's, unless that is empty. -/
theorem activeValidators_of_ne_nil {e : Engine} (hne : e.state.activeValidators ≠ []) :
    e.activeValidators = e.state.activeValidators := by
  rw [Engine.activeValidators, if_pos (List.length_pos_iff.mpr hne)]

/-- What a peer sends is to be committed only with a certificate: the state has
an active set, and a synced block without a `Qc` beside it has a valid one in it. -/
def Certified (E : Env) (e : Engine) : Event → Prop
  | .finalized _ _ _ _ => e.state.activeValidators ≠ []
  | .synced _ _ _ fb => e.state.activeValidators ≠ [] ∧ (fb.qc = none → ∃ qc, fb.block.qc = some qc ∧
      validateQuorumCertificate E qc (fb.block.header.hash E) e.state.activeValidators = .ok ())
  | _ => True

/-- What a peer's message makes the node commit is backed. -/
def CommitsBacked (E : Env) (e : Engine) : Event → Prop
  | .finalized o ord now fb => ∀ c, e.commits E (.finalized o ord now fb) = some c →
      QuorumBacked E e.state.activeValidators c.1
  | .synced o ord now fb => ∀ c, e.commits E (.synced o ord now fb) = some c →
      QuorumBacked E e.state.activeValidators c.1
  | _ => True

theorem acceptFinalized_ok {e : Engine} {o : Orders} {ord : Nat → RangeOrder} {now : Int64} {fb : FinalizedBlock}
    {c : Block × WorldState} (h : e.acceptFinalized E o ord now fb = .ok (some c)) :
    ∃ qc, fb.qc = some qc ∧ c.1 = { blockFromProto fb.block with qc := some qc } ∧
      validateQuorumCertificate E qc (c.1.header.hash E) e.activeValidators = .ok () ∧
      e.validateBlock E o now (blockFromProto fb.block) = .ok () ∧
      applyBlock E .go e.params ord e.state (blockFromProto fb.block) = .ok c.2 := by
  simp only [Engine.acceptFinalized, Except.bind_ok_iff, Except.orThrow_ok_iff, Except.wrapErr_ok_iff] at h
  obtain ⟨qc, hgiven, u, hqc, h⟩ := h
  split at h
  · cases h
  · simp only [Except.bind_ok_iff, Except.wrapErr_ok_iff, Except.pure_ok_iff, Option.some.injEq] at h
    obtain ⟨v, hvalid, newState, happly, rfl⟩ := h
    exact ⟨qc, hgiven, rfl, hqc, hvalid, happly⟩

theorem checkSyncedQC_ok {e : Engine} {fb : FinalizedBlock} {block : Block} (h : e.checkSyncedQC E fb = .ok block) :
    block = { blockFromProto fb.block with qc := fb.qc <|> fb.block.qc } ∧
      ∀ qc, fb.qc = some qc → validateQuorumCertificate E qc (block.header.hash E) e.activeValidators = .ok () := by
  unfold Engine.checkSyncedQC at h
  split at h
  · next qc hqc =>
    simp only [Except.bind_ok_iff, Except.wrapErr_ok_iff, Except.pure_ok_iff] at h
    obtain ⟨u, hvalid, rfl⟩ := h
    refine ⟨by rw [hqc]; rfl, fun qc' h' => ?_⟩
    rw [hqc] at h'
    cases h'
    exact hvalid
  · next hnone =>
    cases h
    refine ⟨by rw [hnone]; rfl, fun qc' h' => ?_⟩
    rw [hnone] at h'
    cases h'

theorem acceptSynced_ok {e : Engine} {o : Orders} {ord : Nat → RangeOrder} {now : Int64} {fb : FinalizedBlock}
    {c : Block × WorldState} (h : e.acceptSynced E o ord now fb = .ok c) :
    c.1 = { blockFromProto fb.block with qc := fb.qc <|> fb.block.qc } ∧
      (∀ qc, fb.qc = some qc → validateQuorumCertificate E qc (c.1.header.hash E) e.activeValidators = .ok ()) ∧
      e.validateBlock E o now c.1 = .ok () ∧ applyBlock E .go e.params ord e.state c.1 = .ok c.2 := by
  simp only [Engine.acceptSynced, Except.bind_ok_iff, Except.wrapErr_ok_iff, Except.pure_ok_iff] at h
  obtain ⟨block, hblock, u, hvalid, newState, happly, rfl⟩ := h
  obtain ⟨heq, hqc⟩ := checkSyncedQC_ok hblock
  exact ⟨heq, hqc, hvalid, happly⟩

theorem commits_backed {e : Engine} {ev : Event} (h : Certified E e ev) : CommitsBacked E e ev := by
  cases ev with
  | propose o height txs timestamp replies => trivial
  | proposal o now block => trivial
  | finalized o ord now fb =>
    intro c hc
    simp only [Engine.commits, Option.join_eq_some_iff, Except.toOption_eq_some_iff] at hc
    obtain ⟨qc, -, hblock, hvalid, -⟩ := acceptFinalized_ok hc
    rw [activeValidators_of_ne_nil h] at hvalid
    exact quorumBacked_of_valid (by rw [hblock]) hvalid
  | synced o ord now fb =>
    intro c hc
    obtain ⟨hne, hmissing⟩ := h
    simp only [Engine.commits, Except.toOption_eq_some_iff] at hc
    obtain ⟨hblock, hvalid, -⟩ := acceptSynced_ok hc
    rw [activeValidators_of_ne_nil hne] at hvalid
    cases hqc : fb.qc with
    | some qc => exact quorumBacked_of_valid (by rw [hblock, hqc]; rfl) (hvalid qc hqc)
    | none =>
      obtain ⟨qc, hin, hvalid⟩ := hmissing hqc
      have hqc : c.1.qc = some qc := by
        rw [hblock, hqc, hin]
        rfl
      exact quorumBacked_of_valid hqc (by rw [hblock]; exact hvalid)

/-- **Committed blocks are backed by a quorum** in every run in which what
peers send is certified. -/
theorem committed_backed {e : Engine} {evs : List Event} (h : Engine.Along E (Certified E) e evs) :
    Engine.Along E (CommitsBacked E) e evs :=
  h.mono fun _ _ => commits_backed

section

open Sample

/-- A block of node 1, without a certificate. -/
def uncertified : FinalizedBlock := ⟨⟨((node 1).assembleBlock env orders 1 [] 10).value.1.header, [], none⟩, none⟩

/-- Node 2 commits it when it syncs. -/
theorem committed_uncertified : ∃ c, (node 2).commits env (.synced orders (fun _ => order) 10 uncertified) = some c ∧
    c.1.qc = none ∧ ¬ QuorumBacked env (node 2).state.activeValidators c.1 := by
  have hok : ((node 2).acceptSynced env orders (fun _ => order) 10 uncertified).isOk = true := by decide +kernel
  obtain ⟨c, hc⟩ : ∃ c, (node 2).acceptSynced env orders (fun _ => order) 10 uncertified = .ok c :=
    ⟨_, Except.ok_value hok⟩
  have hnone : c.1.qc = none := by
    rw [(acceptSynced_ok hc).1]
    rfl
  refine ⟨c, by rw [Engine.commits, hc]; rfl, hnone, ?_⟩
  rintro ⟨qc, hqc, -⟩
  rw [hnone] at hqc
  cases hqc

/-- The same block, finalized with the votes of all three nodes. -/
def certified : FinalizedBlock :=
  ⟨uncertified.block, some ⟨1, uncertified.block.header.hash env,
    [1, 2, 3].map fun n => (node n).castVote env uncertified.block.header⟩⟩

/-- Synced with its certificate, the block is committed, backed by a quorum. -/
theorem committed_backed_certified :
    ((node 2).commits env (.synced orders (fun _ => order) 10 certified)).isSome = true ∧
    ∀ c, (node 2).commits env (.synced orders (fun _ => order) 10 certified) = some c →
      QuorumBacked env (node 2).state.activeValidators c.1 := by
  have hcommits : (node 2).state.activeValidators ≠ [] ∧
      ((node 2).commits env (.synced orders (fun _ => order) 10 certified)).isSome = true := by decide +kernel
  have hrun : Engine.Along env (Certified env) (node 2) [.synced orders (fun _ => order) 10 certified] :=
    ⟨⟨hcommits.1, fun hnone => nomatch hnone⟩, trivial⟩
  exact ⟨hcommits.2, (committed_backed hrun).1⟩

end

end Drana
