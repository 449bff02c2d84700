/-
How often each validator proposes: in any row of heights as long as the total
stake, as often as it has stake.
-/
import Drana.Certificates
import Drana.Lib.Segments

namespace Drana

variable {vs : List ValidatorStake} {v : ValidatorStake}

/-- Without overflow the loop of `ProposerForHeight` finds the segment of its slot. -/
theorem proposerOfSlot_eq {slot cumulative : UInt64} (hle : cumulative.toNat ≤ slot.toNat)
    (hfit : cumulative.toNat + (vs.map (·.stakedBalance.toNat)).sum < 2 ^ 64) :
    proposerOfSlot slot cumulative vs = segmentAt (·.stakedBalance.toNat) vs (slot.toNat - cumulative.toNat) := by
  induction vs generalizing cumulative with
  | nil => rfl
  | cons v vs ih =>
    rw [List.map_cons, List.sum_cons] at hfit
    have hsum : (cumulative + v.stakedBalance).toNat = cumulative.toNat + v.stakedBalance.toNat := by
      rw [UInt64.toNat_add, Nat.mod_eq_of_lt (by omega)]
    unfold proposerOfSlot segmentAt
    dsimp only
    split
    · next hlt =>
      rw [UInt64.lt_iff_toNat_lt, hsum] at hlt
      rw [if_pos (by omega)]
    · next hge =>
      rw [UInt64.lt_iff_toNat_lt, hsum] at hge
      rw [if_neg (by omega), ih (by omega) (by omega), hsum, Nat.sub_add_eq]

/-- The total that `TotalStake` sums up, if it does not overflow. -/
theorem totalStake_eq (hfit : (vs.map (·.stakedBalance.toNat)).sum < 2 ^ 64) :
    (totalStake vs).toNat = (vs.map (·.stakedBalance.toNat)).sum := by
  rw [totalStake_toNat, Nat.mod_eq_of_lt hfit]

section

variable (hpos : 0 < (vs.map (·.stakedBalance.toNat)).sum) (hfit : (vs.map (·.stakedBalance.toNat)).sum < 2 ^ 64)
include hpos hfit

/-- The loop finds a validator: the return after it is never reached. -/
theorem proposerOfSlot_found (height : UInt64) :
    ∃ v ∈ vs, proposerOfSlot (height % totalStake vs) 0 vs = some v := by
  have hslot : (height % totalStake vs).toNat < (vs.map (·.stakedBalance.toNat)).sum := by
    rw [UInt64.toNat_mod, totalStake_eq hfit]
    exact Nat.mod_lt _ hpos
  obtain ⟨v, hv⟩ := segmentAt_isSome hslot
  refine ⟨v, segmentAt_mem hv, ?_⟩
  rw [proposerOfSlot_eq (Nat.zero_le _) (by rwa [UInt64.toNat_zero, Nat.zero_add])]
  exact hv

theorem proposerForHeight_eq (height : UInt64) :
    segmentAt (·.stakedBalance.toNat) vs (height.toNat % (vs.map (·.stakedBalance.toNat)).sum) =
      some (proposerForHeight vs height) := by
  obtain ⟨v, hv, hfound⟩ := proposerOfSlot_found hpos hfit height
  obtain ⟨last, hlast⟩ : ∃ last, vs.getLast? = some last := by
    cases hl : vs.getLast? with
    | none =>
      rw [List.getLast?_eq_none_iff.mp hl] at hv
      cases hv
    | some last => exact ⟨last, rfl⟩
  have hne : totalStake vs ≠ 0 := by
    intro hzero
    have htotal := totalStake_eq hfit
    rw [hzero, UInt64.toNat_zero] at htotal
    omega
  have hsegment := hfound
  rw [proposerOfSlot_eq (Nat.zero_le _) (by rwa [UInt64.toNat_zero, Nat.zero_add]), UInt64.toNat_mod,
    totalStake_eq hfit] at hsegment
  rw [proposerForHeight, hlast]
  dsimp only
  rw [if_neg hne, hfound]
  exact hsegment

/-- **Proposing is proportional to stake**, exactly so in any row of heights as
long as the total stake, and the return after the loop is never reached. -/
theorem proposer_proportional (hdistinct : (vs.map (·.address)).Nodup) :
    (∀ start, start + (vs.map (·.stakedBalance.toNat)).sum ≤ 2 ^ 64 → ∀ v ∈ vs,
      ((Finset.Ico start (start + (vs.map (·.stakedBalance.toNat)).sum)).filter fun height =>
        proposerForHeight vs (UInt64.ofNat height) = v).card = v.stakedBalance.toNat) ∧
    ∀ height, ∃ v ∈ vs, proposerOfSlot (height % totalStake vs) 0 vs = some v := by
  refine ⟨fun start hheights v hv => ?_, proposerOfSlot_found hpos hfit⟩
  have hround := @card_segmentAt _ (·.stakedBalance.toNat) vs v _ hdistinct.of_map hv start
  rw [← hround]
  congr 1
  refine Finset.filter_congr fun height hheight => ?_
  have hlt : height < 2 ^ 64 := (Finset.mem_Ico.mp hheight).2.trans_le hheights
  have hsegment := proposerForHeight_eq hpos hfit (UInt64.ofNat height)
  rw [UInt64.toNat_ofNat', Nat.mod_eq_of_lt hlt] at hsegment
  rw [hsegment, Option.some_inj]

end

section

open Sample

/-- Key 1 has three parts of four. -/
def Sample.unequal : List ValidatorStake := [⟨address 1, (key 1).publicKey, 3⟩, ⟨address 2, (key 2).publicKey, 1⟩]

/-- Heights 6 to 9: three of them are its. -/
theorem proposer_proportional_unequal : ((Finset.Ico 6 10).filter fun height =>
    proposerForHeight unequal (UInt64.ofNat height) = ⟨address 1, (key 1).publicKey, 3⟩).card = 3 :=
  (proposer_proportional (by decide) (by decide) (by decide +kernel)).1 6 (by decide) _ List.mem_cons_self

end

end Drana
