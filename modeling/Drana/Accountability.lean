/-
Who is to blame for two certified blocks at one height. Where the certificates
name the same height, more than a third of the stake has signed both, and the
votes are evidence. A certificate's height is not checked against its block's,
so two certificates may name different ones, and then nobody is.
-/
import Drana.Certificates
import Drana.Conservation

namespace Drana

variable {E : Env} {vs : List ValidatorStake} {qc₁ qc₂ : QuorumCertificate} {hash₁ hash₂ : Hash}

/-- Validators with more than a third of the stake have each a vote in either
certificate that together are slash evidence. -/
def Accountable (E : Env) (vs : List ValidatorStake) (qc₁ qc₂ : QuorumCertificate) : Prop :=
  ∃ B : Finset ValidatorStake, (∀ v ∈ B, v ∈ vs) ∧ (∀ v ∈ B, ∀ w ∈ B, v.address = w.address → v = w) ∧
    (vs.map (·.stakedBalance.toNat)).sum < 3 * ∑ v ∈ B, v.stakedBalance.toNat ∧
    ∀ v ∈ B, ∃ voteA ∈ qc₁.votes, ∃ voteB ∈ qc₂.votes, voteA.voterAddr = v.address ∧
      SlashEvidence.isValid E ⟨voteA, voteB⟩ = true

/-- Votes of one voter for two blocks of a height are evidence. -/
theorem isValid_of_votes {height : UInt64} {voteA voteB : BlockVote} (hA : IsVoteFor E height hash₁ voteA)
    (hB : IsVoteFor E height hash₂ voteB) (haddr : voteA.voterAddr = voteB.voterAddr) (hne : hash₁ ≠ hash₂) :
    SlashEvidence.isValid E ⟨voteA, voteB⟩ = true :=
  SlashEvidence.isValid_iff.mpr
    ⟨haddr, hA.2.1.trans hB.2.1.symm, by rw [hA.2.2, hB.2.2]; exact hne, hA.1, hB.1⟩

/-- The backers of two certificates share more than a third of the stake. -/
theorem backers_share {u u' : Unit} (hT : (vs.map (·.stakedBalance.toNat)).sum < 2 ^ 64)
    (h₁ : validateQuorumCertificate E qc₁ hash₁ vs = .ok u) (h₂ : validateQuorumCertificate E qc₂ hash₂ vs = .ok u') :
    (vs.map (·.stakedBalance.toNat)).sum <
      3 * Quorum.weight (stakeOf vs) (backers E vs qc₁ ∩ backers E vs qc₂) := by
  have hthreshold : (quorumThreshold vs).toNat = (totalStake vs).toNat * 2 / 3 + 1 := quorumThreshold_toNat
  rw [totalStake_toNat, Nat.mod_eq_of_lt hT] at hthreshold
  have hq₁ := (validateQuorumCertificate_ok_iff.mp h₁).2
  have hq₂ := (validateQuorumCertificate_ok_iff.mp h₂).2
  have hle₁ := Nat.mod_le (Quorum.weight (stakeOf vs) (backers E vs qc₁)) (2 ^ 64)
  have hle₂ := Nat.mod_le (Quorum.weight (stakeOf vs) (backers E vs qc₂)) (2 ^ 64)
  have hall : Quorum.weight (stakeOf vs) (members vs) ≤ (vs.map (·.stakedBalance.toNat)).sum := weight_members_le
  have hshare : Quorum.weight (stakeOf vs) (backers E vs qc₁) + Quorum.weight (stakeOf vs) (backers E vs qc₂) ≤
      Quorum.weight (stakeOf vs) (backers E vs qc₁ ∩ backers E vs qc₂) + Quorum.weight (stakeOf vs) (members vs) :=
    Quorum.weight_inter Finset.inter_subset_right Finset.inter_subset_right
  omega

/-! ## The shared stake -/

/-- The stake of the validators whose address is in `A`, one entry after the other. -/
def stakeBehind (vs : List ValidatorStake) (A : Finset Address) : Nat :=
  ((vs.filter fun v => v.address ∈ A).map (·.stakedBalance.toNat)).sum

/-- Where no address has two entries, it is the weight the checks work with. -/
theorem weight_eq_stakeBehind {A : Finset Address} (hdistinct : (vs.map (·.address)).Nodup) (hA : A ⊆ members vs) :
    Quorum.weight (stakeOf vs) A = stakeBehind vs A := by
  have hkeys : ((vs.map fun v => (v.address, v.stakedBalance)).map Prod.fst).Nodup := by
    rwa [List.map_map]
  have hstake : ∀ v ∈ vs, stakeOf vs v.address = v.stakedBalance.toNat := by
    intro v hv
    exact stakeOf_lookup ((GoMap.lookup_insertAll hkeys).mpr (.inl (List.mem_map_of_mem hv)))
  have hlist : ((vs.filter fun v => v.address ∈ A).map (·.address)).toFinset = A := by
    ext a
    simp only [List.mem_toFinset, List.mem_map, List.mem_filter, decide_eq_true_eq]
    constructor
    · rintro ⟨v, ⟨-, hv⟩, rfl⟩
      exact hv
    · intro ha
      obtain ⟨stake, hs⟩ := mem_members.mp (hA ha)
      obtain ⟨v, hv, rfl, -⟩ := exists_validator hs
      exact ⟨v, ⟨hv, ha⟩, rfl⟩
  have hnodup : ((vs.filter fun v => v.address ∈ A).map (·.address)).Nodup :=
    hdistinct.sublist (List.filter_sublist.map _)
  rw [Quorum.weight, stakeBehind]
  conv_lhs => rw [← hlist]
  rw [List.sum_toFinset _ hnodup, List.map_map]
  exact congrArg List.sum (List.map_congr_left fun v hv => hstake v (List.mem_filter.mp hv).1)

/-- **Two certificates share more than a third of the stake**, and each of them
counts the stake of its backers once. The threshold can be reached. -/
theorem quorums_intersect (hdistinct : (vs.map (·.address)).Nodup) (hpos : 0 < (vs.map (·.stakedBalance.toNat)).sum)
    (hT : (vs.map (·.stakedBalance.toNat)).sum < 2 ^ 64) :
    (quorumThreshold vs).toNat ≤ (vs.map (·.stakedBalance.toNat)).sum ∧
    (∀ qc : QuorumCertificate, (qc.votes.foldl (countVote E (stakeMap vs) qc) (∅, 0)).2.toNat =
      stakeBehind vs (backers E vs qc)) ∧
    ∀ (qc₁ qc₂ : QuorumCertificate) (hash₁ hash₂ : Hash),
      (validateQuorumCertificate E qc₁ hash₁ vs).isOk = true → (validateQuorumCertificate E qc₂ hash₂ vs).isOk = true →
      (vs.map (·.stakedBalance.toNat)).sum < 3 * stakeBehind vs (backers E vs qc₁ ∩ backers E vs qc₂) := by
  have hall : Quorum.weight (stakeOf vs) (members vs) ≤ (vs.map (·.stakedBalance.toNat)).sum := weight_members_le
  refine ⟨?_, fun qc => ?_, fun qc₁ qc₂ hash₁ hash₂ h₁ h₂ => ?_⟩
  · rw [quorumThreshold_toNat, totalStake_toNat, Nat.mod_eq_of_lt hT]
    omega
  · have hsub : backers E vs qc ⊆ members vs := Finset.inter_subset_right
    have hle : Quorum.weight (stakeOf vs) (backers E vs qc) ≤ Quorum.weight (stakeOf vs) (members vs) :=
      Quorum.weight_mono hsub
    rw [foldl_countVote, Finset.sdiff_empty, UInt64.toNat_zero, Nat.zero_add, ← backers, Nat.mod_eq_of_lt (by omega),
      weight_eq_stakeBehind hdistinct hsub]
  · obtain ⟨u₁, h₁⟩ := Except.exists_ok h₁
    obtain ⟨u₂, h₂⟩ := Except.exists_ok h₂
    have hsub : backers E vs qc₁ ∩ backers E vs qc₂ ⊆ members vs :=
      Finset.inter_subset_left.trans Finset.inter_subset_right
    rw [← weight_eq_stakeBehind hdistinct hsub]
    exact backers_share hT h₁ h₂

/-- Certificates of one height. -/
theorem accountable_of_height {u u' : Unit} (hT : (vs.map (·.stakedBalance.toNat)).sum < 2 ^ 64) (hne : hash₁ ≠ hash₂)
    (h₁ : validateQuorumCertificate E qc₁ hash₁ vs = .ok u) (h₂ : validateQuorumCertificate E qc₂ hash₂ vs = .ok u')
    (hheight : qc₁.height = qc₂.height) : Accountable E vs qc₁ qc₂ := by
  have hsub : backers E vs qc₁ ∩ backers E vs qc₂ ⊆ members vs :=
    Finset.inter_subset_left.trans Finset.inter_subset_right
  obtain ⟨B, hB, hdistinct, hsum⟩ := exists_validators hsub
  refine ⟨B, fun v hv => (hB v hv).1, hdistinct, by rw [hsum]; exact backers_share hT h₁ h₂, fun v hv => ?_⟩
  obtain ⟨hv₁, hv₂⟩ := Finset.mem_inter.mp (hB v hv).2
  obtain ⟨voteA, hmA, hvoteA, haddrA⟩ := mem_votersOf.mp (Finset.mem_inter.mp hv₁).1
  obtain ⟨voteB, hmB, hvoteB, haddrB⟩ := mem_votersOf.mp (Finset.mem_inter.mp hv₂).1
  rw [hheight, (validateQuorumCertificate_ok_iff.mp h₁).1] at hvoteA
  rw [(validateQuorumCertificate_ok_iff.mp h₂).1] at hvoteB
  exact ⟨voteA, hmA, voteB, hmB, haddrA, isValid_of_votes hvoteA hvoteB (haddrA.trans haddrB.symm) hne⟩

/-- Evidence is two votes of one height. -/
theorem height_of_accountable (h : Accountable E vs qc₁ qc₂) (hv₁ : ∀ vote ∈ qc₁.votes, vote.height = qc₁.height)
    (hv₂ : ∀ vote ∈ qc₂.votes, vote.height = qc₂.height) : qc₁.height = qc₂.height := by
  obtain ⟨B, -, -, hstake, hvotes⟩ := h
  have hsome : B.Nonempty := by
    rw [Finset.nonempty_iff_ne_empty]
    intro hempty
    simp [hempty] at hstake
  obtain ⟨v, hv⟩ := hsome
  obtain ⟨voteA, hmA, voteB, hmB, -, hvalid⟩ := hvotes v hv
  rw [← hv₁ voteA hmA, ← hv₂ voteB hmB]
  exact (SlashEvidence.isValid_iff.mp hvalid).2.1

/-- **Accountable safety**: two certificates for different blocks blame more
than a third of the stake if they name the same height, and only then if all
their votes are for the heights they name. -/
theorem accountable_iff {u u' : Unit} {block₁ block₂ : Block} (hT : (vs.map (·.stakedBalance.toNat)).sum < 2 ^ 64)
    (hne : block₁.header.hash E ≠ block₂.header.hash E)
    (h₁ : validateQuorumCertificate E qc₁ (block₁.header.hash E) vs = .ok u)
    (h₂ : validateQuorumCertificate E qc₂ (block₂.header.hash E) vs = .ok u') :
    (qc₁.height = qc₂.height → Accountable E vs qc₁ qc₂) ∧
    ((∀ vote ∈ qc₁.votes, vote.height = qc₁.height) → (∀ vote ∈ qc₂.votes, vote.height = qc₂.height) →
      Accountable E vs qc₁ qc₂ → qc₁.height = qc₂.height) :=
  ⟨accountable_of_height hT hne h₁ h₂, fun hv₁ hv₂ h => height_of_accountable h hv₁ hv₂⟩

section

open Sample

/-- A block at height 1 with the transaction root `n … n`. -/
def rival (n : UInt8) : Block :=
  { header := ⟨1, .zero, address 1, 10, .zero, Vector.replicate 32 n⟩, transactions := [] }

/-- All three validators vote for a block of `height` with the header hash of `block`. -/
def certificate (height : UInt64) (block : Block) : QuorumCertificate :=
  ⟨height, block.header.hash env,
    [1, 2, 3].map fun n => signBlockVote env ⟨height, block.header.hash env, address n, .zero, .empty⟩ (key n)⟩

theorem certificates_accepted :
    (validateQuorumCertificate env (certificate 1 (rival 1)) ((rival 1).header.hash env)
      genesis3.activeValidators).isOk = true ∧
    (validateQuorumCertificate env (certificate 1 (rival 2)) ((rival 2).header.hash env)
      genesis3.activeValidators).isOk = true ∧
    (validateQuorumCertificate env (certificate 2 (rival 2)) ((rival 2).header.hash env)
      genesis3.activeValidators).isOk = true := by
  decide +kernel

/-- Three validators of stake 100 each: two certificates share more than 100. -/
theorem quorums_intersect_rivals : (quorumThreshold genesis3.activeValidators).toNat ≤ 300 ∧
    300 < 3 * stakeBehind genesis3.activeValidators (backers env genesis3.activeValidators (certificate 1 (rival 1)) ∩
      backers env genesis3.activeValidators (certificate 2 (rival 2))) := by
  have hsum : (genesis3.activeValidators.map (·.stakedBalance.toNat)).sum = 300 := by decide +kernel
  have hquorums := @quorums_intersect env _ (by decide +kernel : (genesis3.activeValidators.map (·.address)).Nodup)
    (by omega) (by omega)
  rw [hsum] at hquorums
  exact ⟨hquorums.1, hquorums.2.2 _ _ _ _ certificates_accepted.1 certificates_accepted.2.2⟩

/-- Two blocks at height 1 are certified, one of them by votes for a height of
2, and no votes are evidence. -/
theorem certified_unaccountable :
    (genesis3.activeValidators.map (·.address)).Nodup ∧
    (genesis3.activeValidators.map (·.stakedBalance.toNat)).sum < 2 ^ 64 ∧
    (rival 1).header.height = (rival 2).header.height ∧ (rival 1).header.hash env ≠ (rival 2).header.hash env ∧
    (validateQuorumCertificate env (certificate 1 (rival 1)) ((rival 1).header.hash env)
      genesis3.activeValidators).isOk = true ∧
    (validateQuorumCertificate env (certificate 2 (rival 2)) ((rival 2).header.hash env)
      genesis3.activeValidators).isOk = true ∧
    ¬ Accountable env genesis3.activeValidators (certificate 1 (rival 1)) (certificate 2 (rival 2)) := by
  refine ⟨by decide +kernel, by decide +kernel, rfl, by decide +kernel, certificates_accepted.1,
    certificates_accepted.2.2, fun h => ?_⟩
  have hheight := height_of_accountable h (by decide +kernel) (by decide +kernel)
  exact absurd hheight (by decide)

/-- Had both been certified at their height, the three would be to blame. -/
theorem accountable_rivals : Accountable env genesis3.activeValidators (certificate 1 (rival 1))
    (certificate 1 (rival 2)) := by
  have hne : (rival 1).header.hash env ≠ (rival 2).header.hash env := by decide +kernel
  exact (accountable_iff (by decide +kernel) hne (Except.ok_value certificates_accepted.1)
    (Except.ok_value certificates_accepted.2.1)).1 rfl

end

end Drana
