/-
What a run loses: at each boost, the coins that the stakers' shares, rounded
down, leave of the staker reward, and nothing anywhere else.
-/
import Drana.PostBooks
import Drana.Operations

namespace Drana

variable {E : Env} {ar : Arith} {cfg : GenesisConfig} {ws ws' : WorldState} {p : PostID} {post : Post}
  {tx : Transaction}

/-! ## Shares -/

/-- The stakers' shares `⌊reward * stake / total⌋` together; none of nothing. -/
def shares (ws : WorldState) (p : PostID) (total reward : Nat) : Nat :=
  if 0 < total then ws.postStakes.total fun k s => if k.1 = p then reward * s.amount.toNat / total else 0 else 0

/-- The shares of a post, and how little is left of the reward. -/
theorem shares_bounds (ht : Tallied ws post) (hpos : 0 < post.totalStaked.toNat) (reward : Nat) :
    shares ws post.postID post.totalStaked.toNat reward ≤ reward ∧
      reward < shares ws post.postID post.totalStaked.toNat reward + stakersOn ws post.postID := by
  let staked : PostID × Address → PostStake → Nat := fun k s => if k.1 = post.postID then s.amount.toNat else 0
  let one : PostID × Address → PostStake → Nat := fun k _ => if k.1 = post.postID then 1 else 0
  have hshares : shares ws post.postID post.totalStaked.toNat reward =
      ws.postStakes.total fun k s => reward * staked k s / post.totalStaked.toNat := by
    rw [shares, if_pos hpos]
    refine GoMap.total_congr fun k s _ => ?_
    simp only [staked]
    split <;> simp
  -- The remainders of the divisions are what is missing, scaled.
  have hsplit := GoMap.total_div_mod (m := ws.postStakes) (f := staked) (c := reward) (d := post.totalStaked.toNat)
  have hwhole : ws.postStakes.total staked = post.totalStaked.toNat := ht.1.symm
  have hrest : (ws.postStakes.total fun k s => reward * staked k s % post.totalStaked.toNat) ≤
      (post.totalStaked.toNat - 1) * stakersOn ws post.postID := by
    rw [stakersOn, ← GoMap.total_mul]
    refine GoMap.total_mono fun k s _ => ?_
    have hlt := Nat.mod_lt (reward * staked k s) hpos
    simp only [staked] at hlt ⊢
    split
    · next hk => rw [if_pos hk] at hlt; omega
    · simp
  have hsome : 0 < stakersOn ws post.postID := by
    by_contra hnone
    have hle : ws.postStakes.total staked ≤ ws.postStakes.total fun k s => 2 ^ 64 * one k s := by
      refine GoMap.total_mono fun k s _ => ?_
      simp only [staked, one]
      split
      · have := s.amount.toNat_lt; omega
      · simp
    have hzero : ws.postStakes.total one = 0 := by simpa [stakersOn] using hnone
    rw [GoMap.total_mul, hzero] at hle
    omega
  rw [← hshares, hwhole] at hsplit
  generalize shares ws post.postID post.totalStaked.toNat reward = paid at hsplit ⊢
  generalize stakersOn ws post.postID = n at hrest hsome ⊢
  generalize post.totalStaked.toNat = total at hpos hsplit hrest ⊢
  constructor
  · refine Nat.le_of_mul_le_mul_left ?_ hpos
    rw [Nat.mul_comm total reward]
    omega
  · refine Nat.lt_of_mul_lt_mul_left (a := total) ?_
    obtain ⟨t, rfl⟩ : ∃ t, total = t + 1 := ⟨total - 1, by omega⟩
    have hlt : (t + 1) * paid + t * n < (t + 1) * paid + (t + 1) * n := by
      rw [Nat.add_mul t 1 n]
      omega
    rw [Nat.mul_comm (t + 1) reward, Nat.mul_add (t + 1) paid n]
    simp only [Nat.add_sub_cancel] at hrest
    omega

/-- What the executor pays is the shares. -/
theorem sharesPaid_eq (hb : PostBooks E ws) (hpost : ws.getPost p = some post) (reward : UInt64) :
    sharesPaid (fun _ => true) ws p post.totalStaked reward = shares ws p post.totalStaked.toNat reward.toNat := by
  have hid := hb.books.keyed.post p post hpost
  have htally := (hb.tally p post hpost).1
  rw [hid] at htally
  have hiff : post.totalStaked > 0 ↔ 0 < post.totalStaked.toNat := by
    rw [gt_iff_lt, UInt64.lt_iff_toNat_lt, UInt64.toNat_zero]
  unfold sharesPaid shares
  split
  · next hpos =>
    rw [if_pos (hiff.mp hpos)]
    refine GoMap.total_congr fun k s hs => ?_
    split
    · next hk =>
      have hle : heldOn ws p k.2 ≤ stakedOn ws p := heldOn_le_stakedOn
      rw [heldOn_of (s := s) (by rw [WorldState.getPostStake, ← hk, hs]), ← htally] at hle
      rw [within, if_pos rfl, stakerShare, mulDiv_toNat_of_le (hiff.mp hpos) hle]
    · rfl
  · next hpos => rw [if_neg fun h => hpos (hiff.mpr h)]

/-! ## Boosts -/

/-- The boost an operation is. -/
def Operation.boost? : Operation → Option Transaction
  | .transaction _ _ _ tx => if tx.kind = some .boostPost then some tx else none
  | _ => none

theorem Operation.boost?_eq_some_iff {op : Operation} : op.boost? = some tx ↔
    ∃ ord header i, op = .transaction ord header i tx ∧ tx.kind = some .boostPost := by
  cases op with
  | transaction ord header i tx' =>
    simp only [boost?, Option.ite_none_right_eq_some, Option.some.injEq, transaction.injEq]
    constructor
    · intro ⟨hk, htx⟩
      subst htx
      exact ⟨ord, header, i, ⟨rfl, rfl, rfl, rfl⟩, hk⟩
    · intro ⟨_, _, _, ⟨_, _, _, htx⟩, hk⟩
      subst htx
      exact ⟨hk, rfl⟩
  | _ => simp [boost?]

/-- What a boost in the state `ws` leaves unpaid of the staker reward. -/
def dust (cfg : GenesisConfig) (ws : WorldState) (tx : Transaction) : Int :=
  (stakerReward cfg tx.amount).toNat -
    ((ws.getPost tx.postID).elim 0 fun post =>
      shares ws tx.postID post.totalStaked.toNat (stakerReward cfg tx.amount).toNat : Nat)

/-- The dust of an operation: a boost's; no other has any. -/
def Performed.dust (cfg : GenesisConfig) (e : Performed) : Int := e.op.boost?.elim 0 (Drana.dust cfg e.before)

/-- A boost that is executed finds its post. -/
theorem TxEffect.boosted_found (h : TxEffect E ar cfg ws tx ws') (hk : tx.kind = some .boostPost) :
    ∃ post, ws.getPost tx.postID = some post := by
  cases h with
  | plain moved kind kept counters holdings => exact absurd hk kind.2.1
  | create sender post s kind effect => rw [kind] at hk; cases hk
  | boost old new s staked kind effect => exact ⟨old, effect.found⟩
  | unstake w old new kind effect => rw [kind] at hk; cases hk

theorem missing_boost (hb : PostBooks E ws) (hk : tx.kind = some .boostPost) :
    (rewardDue cfg ⟨ws, tx, ws'⟩ : Int) - rewardPaid cfg ⟨ws, tx, ws'⟩ = dust cfg ws tx := by
  simp only [rewardDue, rewardPaid, if_pos hk, dust]
  cases hpost : ws.getPost tx.postID with
  | none => rfl
  | some post => rw [Option.elim_some, Option.elim_some, sharesPaid_eq hb hpost]

/-- An operation loses its dust. -/
theorem Operation.missing_after (htrap : ar.trapAdd = true) (hp : PercentagesOk cfg)
    (hf : cfg.slashFractionDoubleSign.toNat ≤ 100) {ws₀ : WorldState} {op : Operation} (hb : PostBooks E ws)
    (h : op.apply E ar cfg ws = .ok ws') : missing ws₀ ws' = missing ws₀ ws + Performed.dust cfg ⟨ws, op, ws'⟩ := by
  cases op with
  | release height => simpa [Performed.dust, boost?] using releaseMatured_missing htrap hb.books h
  | slash ev => simpa [Performed.dust, boost?] using applySlashEvidence_missing htrap hf hb.books h
  | reward addr => simpa [Performed.dust, boost?] using issueReward_missing htrap hb.books h
  | finish ord height =>
    cases h
    have hepoch : missing ws₀ (epochTransition cfg ord ws height) = missing ws₀ ws := epochTransition_missing
    exact hepoch.trans (Int.add_zero _).symm
  | transaction ord header i tx =>
    have hm : missing ws₀ ws' + _ = _ := executeTransaction_missing htrap hp hb.books h
    by_cases hk : tx.kind = some .boostPost
    · have hdust : (rewardDue cfg ⟨ws, tx, ws'⟩ : Int) - rewardPaid cfg ⟨ws, tx, ws'⟩ = dust cfg ws tx :=
        missing_boost hb hk
      simp only [Performed.dust, boost?, if_pos hk, Option.elim_some]
      omega
    · simp only [rewardDue, rewardPaid, if_neg hk] at hm
      simp only [Performed.dust, boost?, if_neg hk, Option.elim_none]
      omega

/-- The dust of an executed boost is less than one coin a staker. -/
theorem dust_bounds (hb : PostBooks E ws) (hpost : ws.getPost tx.postID = some post) :
    0 ≤ dust cfg ws tx ∧ (0 < post.totalStaked → dust cfg ws tx < stakersOn ws tx.postID) := by
  have hid := hb.books.keyed.post _ post hpost
  rw [dust, hpost, Option.elim_some]
  by_cases hpos : 0 < post.totalStaked.toNat
  · have hbounds := shares_bounds (hb.tally _ post hpost) hpos (stakerReward cfg tx.amount).toNat
    rw [hid] at hbounds
    exact ⟨by omega, fun _ => by omega⟩
  · rw [shares, if_neg hpos]
    refine ⟨by simp, fun h => absurd ?_ hpos⟩
    simpa [UInt64.lt_iff_toNat_lt] using h

/-- **Loss is dust**: over a run, what is missing is the dust of its boosts;
each boost loses less than one coin a staker, and no other operation loses or
creates anything. -/
theorem loss_is_dust (hp : PercentagesOk cfg) (hf : cfg.slashFractionDoubleSign.toNat ≤ 100)
    (hinj : PostIDsDistinct E) {ws₀ : WorldState} (h₀ : initializeState E cfg = .ok ws₀)
    {bs : List ((Nat → RangeOrder) × Block)} (hrun : applyBlocks E .go cfg ws₀ bs = .ok ws)
    (hw : NoSumWraps E cfg ws₀ bs) :
    missing ws₀ ws = ((performed E .go cfg ws₀ (operationsOfRun bs)).map (Performed.dust cfg)).sum ∧
    ∀ e ∈ performed E .go cfg ws₀ (operationsOfRun bs),
      missing ws₀ e.after = missing ws₀ e.before + e.dust cfg ∧
      ∀ tx, e.op.boost? = some tx → ∃ post, e.before.getPost tx.postID = some post ∧ 0 ≤ dust cfg e.before tx ∧
        (0 < post.totalStaked → dust cfg e.before tx < stakersOn e.before tx.postID) := by
  obtain ⟨hfresh, hburn, hissued⟩ := initializeState_fresh h₀
  obtain ⟨hsums, -⟩ := run_of_noSumWraps hrun hw
  rw [← perform_run] at hsums
  rw [performed_eq (Arith.stops_go _) hsums]
  have hops : ∀ e ∈ performed E .sums cfg ws₀ (operationsOfRun bs), PostBooks E e.before ∧
      e.op.apply E .sums cfg e.before = .ok e.after :=
    fun e he => (keeps_postBooks rfl hp hinj).performed hfresh.postBooks he
  have hstep : ∀ e ∈ performed E .sums cfg ws₀ (operationsOfRun bs),
      missing ws₀ e.after = missing ws₀ e.before + e.dust cfg :=
    fun e he => Operation.missing_after rfl hp hf (hops e he).1 (hops e he).2
  constructor
  · have hstart : missing ws₀ ws₀ = 0 := by simp [missing, hburn, hissued]
    rw [sum_performed hsums hstep, hstart, Int.zero_add]
  · intro e he
    refine ⟨hstep e he, fun tx hboost => ?_⟩
    obtain ⟨hb, happly⟩ := hops e he
    obtain ⟨ord, header, i, hop, hk⟩ := Operation.boost?_eq_some_iff.mp hboost
    rw [hop] at happly
    have heff : TxEffect E .sums cfg e.before tx e.after := executeTransaction_effect rfl hp hb.books happly
    obtain ⟨post, hpost⟩ := heff.boosted_found hk
    exact ⟨post, hpost, dust_bounds hb hpost⟩

section

open Sample

/-- Of the second boost's one coin for two stakers, nobody gets any. -/
theorem loss_is_dust_twoStakers : (performed env .go config genesis (operationsOfRun twoStakers)).map
      (Performed.dust config) = [0, 0, 0, 1, 0, 0] ∧
    missing genesis (applyBlocks env .sums config genesis twoStakers).value = 1 := by
  obtain ⟨hrun, hw⟩ := run_of_isOk twoStakers_run.1
  have hdust : (performed env .go config genesis (operationsOfRun twoStakers)).map (Performed.dust config) =
      [0, 0, 0, 1, 0, 0] := by decide +kernel
  refine ⟨hdust, ?_⟩
  rw [(loss_is_dust config_percentages (by decide) env_postIDsDistinct genesis_ok hrun hw).1, hdust]
  rfl

end

end Drana
