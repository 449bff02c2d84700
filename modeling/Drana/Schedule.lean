/-
The part of a state that is not in its maps: the active validators, the
unbonding queue, the epoch and the height. Stakes, unstakes and penalties write
a little of it, the end of an epoch the rest.
-/
import Drana.Writes

namespace Drana

variable {E : Env} {ar : Arith} {params : GenesisConfig} {ws ws' : WorldState} {tx : Transaction} {ord : RangeOrder}
  {a : Address}

@[ext] structure Schedule where
  validators : List ValidatorStake
  queue : List UnbondingEntry
  epoch : UInt64
  height : UInt64

def WorldState.schedule (ws : WorldState) : Schedule :=
  ⟨ws.activeValidators, ws.unbondingQueue, ws.currentEpoch, ws.chainHeight⟩

/-! ## Credits -/

theorem depositAccount_schedule {n : UInt64} (h : depositAccount ar ws a n = .ok ws') : ws'.schedule = ws.schedule := by
  obtain ⟨b, -, rfl⟩ := depositAccount_ok_iff.mp h
  rfl

theorem creditAccount_schedule {n : UInt64} (h : creditAccount ar ws a n = .ok ws') : ws'.schedule = ws.schedule := by
  obtain ⟨acct, -, b, -, rfl⟩ | ⟨-, rfl⟩ := creditAccount_ok_iff.mp h
  · rfl
  · rfl

theorem payAuthor_schedule {n : UInt64} (h : payAuthor ar ws a n = .ok ws') : ws'.schedule = ws.schedule :=
  payAuthor_inv (·.schedule = ws.schedule) (fun hw hc => (creditAccount_schedule hc).trans hw) rfl h

theorem payStakers_schedule {post : Post} {p : PostID} {n : UInt64} (h : payStakers ar ord ws post p n = .ok ws') :
    ws'.schedule = ws.schedule :=
  payStakers_inv (·.schedule = ws.schedule) (fun hw hc => (creditAccount_schedule hc).trans hw) rfl h

/-! ## Transactions -/

theorem applyTransfer_schedule (h : applyTransfer ar ws tx = .ok ws') : ws'.schedule = ws.schedule := by
  obtain ⟨sender, -, -, balance, -, nonce, -, h⟩ := applyTransfer_ok_iff.mp h
  have hpaid := depositAccount_schedule h
  exact hpaid

theorem applyCreatePost_schedule {height : UInt64} {time : Int64}
    (h : applyCreatePost E ar params ws tx height time = .ok ws') : ws'.schedule = ws.schedule := by
  obtain ⟨author, -, -, staked, -, nonce, -, balance, -, psb, -, burned, -, rfl⟩ := applyCreatePost_ok_iff.mp h
  rfl

theorem addBoostStake_schedule {post : Post} {n height : UInt64}
    (h : addBoostStake ar ws post tx n height = .ok ws') : ws'.schedule = ws.schedule := by
  obtain ⟨existing, -, amount, -, rfl⟩ | ⟨-, count, -, rfl⟩ := addBoostStake_ok_iff.mp h
  · rfl
  · rfl

theorem applyBoostPost_schedule {height : UInt64} (h : applyBoostPost ar params ord ws tx height = .ok ws') :
    ws'.schedule = ws.schedule := by
  obtain ⟨booster, -, -, post, -, staked, -, balance, -, psb, -, nonce, -, burned, -, w₁, h₁, w₂, h₂, total, -, onPost,
    -, h⟩ := applyBoostPost_ok_iff.mp h
  have hauthor := payAuthor_schedule h₁
  exact (addBoostStake_schedule h).trans ((payStakers_schedule h₂).trans hauthor)

theorem returnStake_schedule {s : PostStake} (h : returnStake ar ws s = .ok ws') : ws'.schedule = ws.schedule := by
  obtain ⟨acct, -, balance, -, psb, -, rfl⟩ | ⟨-, rfl⟩ := returnStake_ok_iff.mp h
  · rfl
  · rfl

theorem forceUnstake_schedule {p : PostID} {acc acc' : WorldState × Post} {s : PostStake}
    (h : forceUnstake ar p acc s = .ok acc') : acc'.1.schedule = acc.1.schedule := by
  obtain ⟨w, hw, total, -, count, -, rfl⟩ := forceUnstake_ok_iff.mp h
  have hreturned := returnStake_schedule hw
  exact hreturned

theorem applyUnstakePost_schedule (h : applyUnstakePost ar ord ws tx = .ok ws') : ws'.schedule = ws.schedule := by
  obtain ⟨sender, -, s, -, post, -, balance, -, psb, -, nonce, -, total, -, count, -, h⟩ := applyUnstakePost_ok_iff.mp h
  obtain ⟨-, ⟨w, new⟩, hloop, rfl⟩ | ⟨-, rfl⟩ := h
  · exact Except.foldlM_inv (fun acc : WorldState × Post => acc.1.schedule = ws.schedule)
      (fun s _ acc acc' hacc hs => (forceUnstake_schedule hs).trans hacc) rfl hloop
  · rfl

theorem applyRegisterName_schedule (h : applyRegisterName ar ws tx = .ok ws') : ws'.schedule = ws.schedule := by
  obtain ⟨sender, -, nonce, -, rfl⟩ := applyRegisterName_ok_iff.mp h
  rfl

/-- A stake files its key with the sender's entry, if it has one. -/
theorem applyStake_schedule (h : applyStake ar ws tx = .ok ws') :
    ws'.schedule = { ws.schedule with validators := WorldState.setPubKey tx.sender tx.pubKey ws.activeValidators } := by
  obtain ⟨sender, -, -, balance, -, staked, -, nonce, -, rfl⟩ := applyStake_ok_iff.mp h
  rfl

/-- An unstake joins the end of the queue. -/
theorem applyUnstake_schedule {height : UInt64} (h : applyUnstake ar params ws tx height = .ok ws') :
    ∃ release, ar.add height params.unbondingPeriod = .ok release ∧
      ws'.schedule = { ws.schedule with queue := ws.unbondingQueue ++ [⟨tx.sender, tx.amount, release⟩] } := by
  obtain ⟨sender, -, -, staked, -, nonce, -, release, hrelease, rfl⟩ := applyUnstake_ok_iff.mp h
  exact ⟨release, hrelease, rfl⟩

/-- What a transaction does to the schedule. -/
theorem executeTransaction_schedule {header : BlockHeader} {i : Nat}
    (h : executeTransaction E ar params ord header i ws tx = .ok ws') :
    (tx.kind ≠ some .stake ∧ tx.kind ≠ some .unstake ∧ ws'.schedule = ws.schedule) ∨
    (tx.kind = some .stake ∧ (∃ u, validateStake E tx ws.reader params = .ok u) ∧
      ws'.schedule = { ws.schedule with validators := WorldState.setPubKey tx.sender tx.pubKey ws.activeValidators }) ∨
    (tx.kind = some .unstake ∧ (∃ u, validateUnstake E tx ws.reader params = .ok u) ∧
      ∃ release, ar.add header.height params.unbondingPeriod = .ok release ∧
        ws'.schedule = { ws.schedule with queue := ws.unbondingQueue ++ [⟨tx.sender, tx.amount, release⟩] }) := by
  obtain ⟨hv, h⟩ := executeTransaction_ok_iff.mp h
  unfold applyTransaction at h
  split at h
  · next hk => exact .inl ⟨by simp [hk], by simp [hk], applyTransfer_schedule h⟩
  · next hk => exact .inl ⟨by simp [hk], by simp [hk], applyCreatePost_schedule h⟩
  · next hk => exact .inl ⟨by simp [hk], by simp [hk], applyBoostPost_schedule h⟩
  · next hk => exact .inl ⟨by simp [hk], by simp [hk], applyUnstakePost_schedule h⟩
  · next hk => exact .inl ⟨by simp [hk], by simp [hk], applyRegisterName_schedule h⟩
  · next hk =>
    rw [validateTransaction, hk] at hv
    exact .inr (.inl ⟨hk, ⟨(), hv⟩, applyStake_schedule h⟩)
  · next hk =>
    rw [validateTransaction, hk] at hv
    exact .inr (.inr ⟨hk, ⟨(), hv⟩, applyUnstake_schedule h⟩)
  · cases h

/-! ## Blocks -/

theorem issueReward_schedule (h : issueReward ar params ws a = .ok ws') : ws'.schedule = ws.schedule := by
  obtain ⟨-, w, hw, issued, -, rfl⟩ | ⟨-, rfl⟩ := issueReward_ok_iff.mp h
  · have hpaid := depositAccount_schedule hw
    exact hpaid
  · rfl

theorem releaseMatured_schedule {height : UInt64} (h : releaseMatured ar ws height = .ok ws') :
    ws'.schedule = { ws.schedule with queue := ws.unbondingQueue.filter fun e => ¬ e.releaseHeight ≤ height } :=
  Except.foldlM_inv
    (fun w => w.schedule = { ws.schedule with queue := ws.unbondingQueue.filter fun e => ¬ e.releaseHeight ≤ height })
    (fun _ _ _ _ hw hd => (depositAccount_schedule hd).trans hw) rfl h

/-- A penalty takes from the queue alone. -/
theorem slashRest_schedule {n : UInt64} (h : slashRest ar ws a n = .ok ws') :
    ∃ queue, ws'.schedule = { ws.schedule with queue } := by
  obtain ⟨-, q, -, rfl⟩ | ⟨-, rfl⟩ := slashRest_ok_iff.mp h
  · exact ⟨_, rfl⟩
  · exact ⟨_, rfl⟩

theorem applySlashEvidence_schedule {ev : SlashEvidence} (h : applySlashEvidence E ar params ws ev = .ok ws') :
    ∃ queue, ws'.schedule = { ws.schedule with queue } := by
  rcases applySlashEvidence_cases h with rfl | ⟨-, acct, unbonding, totalAtRisk, -, -, -, -, h⟩
  · exact ⟨_, rfl⟩
  · obtain ⟨staked, -, remaining, -, w, hw, burned, -, rfl⟩ := slashAccount_ok_iff.mp h
    obtain ⟨queue, hq⟩ := slashRest_schedule hw
    exact ⟨queue, hq⟩

theorem epochTransition_schedule {height : UInt64} : (epochTransition params ord ws height).schedule =
    if params.epochLength > 0 ∧ height > 0 ∧ height % params.epochLength = 0 then
      { ws.schedule with
        validators := ws.computeActiveValidatorSet ord params.minStake, epoch := height / params.epochLength }
    else ws.schedule := by
  unfold epochTransition
  split <;> rfl

/-- A block up to its last step: all but the end of an epoch. -/
def beforeEpoch (E : Env) (ar : Arith) (params : GenesisConfig) (order : Nat → RangeOrder) (ws : WorldState)
    (block : Block) : Except String WorldState := do
  let ws ← beforeTransactions E ar params ws block
  let ws ← executeTransactions E ar params order block.header 0 ws block.transactions
  issueReward ar params ws block.header.proposerAddr

theorem applyBlock_ok_iff {order : Nat → RangeOrder} {block : Block} : applyBlock E ar params order ws block = .ok ws' ↔
    ∃ w, beforeEpoch E ar params order ws block = .ok w ∧
      ws' = { epochTransition params (order block.transactions.length) w block.header.height with
        chainHeight := block.header.height } := by
  rw [applyBlock_eq, beforeEpoch]
  simp only [Except.bind_ok_iff, Except.pure_ok_iff]
  constructor
  · rintro ⟨w₁, h₁, w₂, h₂, w₃, h₃, rfl⟩
    exact ⟨w₃, ⟨w₁, h₁, w₂, h₂, h₃⟩, rfl⟩
  · rintro ⟨w₃, ⟨w₁, h₁, w₂, h₂, h₃⟩, rfl⟩
    exact ⟨w₁, h₁, w₂, h₂, w₃, h₃, rfl⟩

theorem Keeps.beforeEpoch {P : List Applied → WorldState → Prop} (hk : Keeps E ar params P) {log : List Applied}
    {order : Nat → RangeOrder} {block : Block} (hP : P log ws) (h : beforeEpoch E ar params order ws block = .ok ws') :
    P (log ++ appliedInBlock E ar params order ws block) ws' := by
  simp only [Drana.beforeEpoch, Except.bind_ok_iff] at h
  obtain ⟨w₁, h₁, w₂, h₂, h₃⟩ := h
  simp only [appliedInBlock, h₁]
  exact hk.reward (hk.transactions (hk.before hP h₁) h₂) h₃

theorem beforeEpoch_writes {order : Nat → RangeOrder} {block : Block}
    (h : beforeEpoch E ar params order ws block = .ok ws') : Writes ws ws' :=
  @Keeps.beforeEpoch E ar params ws ws' (fun _ w => Writes ws w) keeps_writes [] order block .refl h

/-! ## Genesis -/

theorem initAccounts_schedule {as : List GenesisAccount} {i : Nat} {total : UInt64}
    (h : initAccounts E i total ws as = .ok ws') : ws'.schedule = ws.schedule := by
  induction as generalizing i total ws with
  | nil =>
    cases h
    rfl
  | cons g as ih =>
    simp only [initAccounts, Except.bind_ok_iff] at h
    obtain ⟨-, -, -, -, h⟩ := h
    have hrest := ih h
    exact hrest

theorem initValidator_schedule {v : GenesisValidator} (h : initValidator ws v = .ok ws') :
    ws'.schedule = ws.schedule := by
  unfold initValidator at h
  split at h
  · simp only [Except.bind_ok_iff, Except.pure_ok_iff] at h
    obtain ⟨-, -, rfl⟩ := h
    rfl
  · cases h
    rfl

theorem initializeState_schedule (h : initializeState E params = .ok ws) :
    ws.schedule = ⟨params.validators.map initialValidator, [], 0, 0⟩ := by
  simp only [initializeState, Except.bind_ok_iff, Except.pure_ok_iff] at h
  obtain ⟨w₁, h₁, w₂, h₂, rfl⟩ := h
  have hstart : w₂.schedule = w₁.schedule :=
    Except.foldlM_inv (fun w => w.schedule = w₁.schedule) (fun v _ w w' hw hs => (initValidator_schedule hs).trans hw) rfl
      h₂
  have hqueue := congrArg Schedule.queue (hstart.trans (initAccounts_schedule h₁))
  change w₂.unbondingQueue = [] at hqueue
  simp only [WorldState.schedule, hqueue]

end Drana
