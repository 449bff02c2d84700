/-
When each function of the executor returns, and what: the accounts it found,
the sums and differences it took, and the state it wrote. What is proved about
a returned state starts from these, not from the functions themselves.
-/
import Drana.Executor

namespace Drana

variable {E : Env} {ar : Arith} {params : GenesisConfig} {ws ws' : WorldState} {tx : Transaction} {ord : RangeOrder}
  {a : Address} {n : UInt64}

/-! ## Credits -/

theorem depositAccount_ok_iff : depositAccount ar ws a n = .ok ws' ↔
    ∃ balance, ar.add ((ws.getAccount a).getD { address := a }).balance n = .ok balance ∧
      ws.setAccount { (ws.getAccount a).getD { address := a } with balance } = ws' := by
  simp only [depositAccount, Except.bind_ok_iff, Except.pure_ok_iff]

theorem creditAccount_ok_iff : creditAccount ar ws a n = .ok ws' ↔
    (∃ acct, ws.getAccount a = some acct ∧ ∃ balance, ar.add acct.balance n = .ok balance ∧
      ws.setAccount { acct with balance } = ws') ∨
    (ws.getAccount a = none ∧ ws = ws') := by
  unfold creditAccount
  cases ws.getAccount a with
  | some acct =>
    simp only [Except.bind_ok_iff, Except.pure_ok_iff, Option.some.injEq, exists_eq_left', reduceCtorEq, false_and,
      or_false]
  | none => simp

theorem payAuthor_ok_iff : payAuthor ar ws a n = .ok ws' ↔
    (0 < n ∧ creditAccount ar ws a n = .ok ws') ∨ (n = 0 ∧ ws = ws') := by
  unfold payAuthor
  split
  · next hn => simp only [gt_iff_lt.mp hn, UInt64.pos_iff_ne_zero.mp hn, true_and, false_and, or_false]
  · next hn =>
    obtain rfl : n = 0 := UInt64.le_zero_iff.mp (UInt64.not_lt.mp hn)
    simp only [Except.pure_ok_iff, UInt64.lt_irrefl, false_and, true_and, false_or]

/-- What a credit keeps, the author's part of a boost keeps. -/
theorem payAuthor_inv (I : WorldState → Prop) (credit : ∀ {w w'}, I w → creditAccount ar w a n = .ok w' → I w')
    (hi : I ws) (h : payAuthor ar ws a n = .ok ws') : I ws' := by
  obtain ⟨-, h⟩ | ⟨-, rfl⟩ := payAuthor_ok_iff.mp h
  · exact credit hi h
  · exact hi

/-- What credits keep, the stakers' part of a boost keeps. -/
theorem payStakers_inv (I : WorldState → Prop) {post : Post} {p : PostID}
    (credit : ∀ {a n w w'}, I w → creditAccount ar w a n = .ok w' → I w')
    (hi : I ws) (h : payStakers ar ord ws post p n = .ok ws') : I ws' := by
  unfold payStakers at h
  split at h
  · exact Except.foldlM_inv I (fun _ _ _ _ hw hs => payAuthor_inv I credit hw hs) hi h
  · cases h
    exact hi

/-! ## Transactions -/

theorem applyTransfer_ok_iff : applyTransfer ar ws tx = .ok ws' ↔
    ∃ sender, ws.getAccount tx.sender = some sender ∧ ¬ sender.balance < tx.amount ∧
      ∃ balance, ar.sub sender.balance tx.amount = .ok balance ∧
      ∃ nonce, ar.add sender.nonce 1 = .ok nonce ∧
      depositAccount ar (ws.setAccount { sender with balance, nonce }) tx.recipient tx.amount = .ok ws' := by
  simp only [applyTransfer, Except.bind_ok_iff, Except.orThrow_ok_iff, Except.throwIf_ok_iff, exists_const]

theorem applyCreatePost_ok_iff {blockHeight : UInt64} {blockTime : Int64} :
    applyCreatePost E ar params ws tx blockHeight blockTime = .ok ws' ↔
    ∃ author, ws.getAccount tx.sender = some author ∧ ¬ author.balance < tx.amount ∧
      ∃ staked, ar.sub tx.amount (postFee params tx.amount) = .ok staked ∧
      ∃ nonce, ar.add author.nonce 1 = .ok nonce ∧
      ∃ balance, ar.sub author.balance tx.amount = .ok balance ∧
      ∃ postStakeBalance, ar.add author.postStakeBalance staked = .ok postStakeBalance ∧
      ∃ burnedSupply, ar.add ws.burnedSupply (postFee params tx.amount) = .ok burnedSupply ∧
      { ((ws.setAccount { author with balance, postStakeBalance, nonce }).setPost
            { postID := derivePostID E tx.sender nonce, author := tx.sender, text := tx.text, channel := tx.channel
              parentPostID := tx.postID, createdAtHeight := blockHeight, createdAtTime := blockTime
              totalStaked := staked, totalBurned := postFee params tx.amount, stakerCount := 1 }).setPostStake
          ⟨derivePostID E tx.sender nonce, tx.sender, staked, blockHeight⟩ with burnedSupply } = ws' := by
  simp only [applyCreatePost, Except.bind_ok_iff, Except.orThrow_ok_iff, Except.throwIf_ok_iff, Except.pure_ok_iff,
    exists_const]

theorem addBoostStake_ok_iff {post : Post} {blockHeight : UInt64} : addBoostStake ar ws post tx n blockHeight = .ok ws' ↔
    (∃ existing, ws.getPostStake tx.postID tx.sender = some existing ∧
      ∃ amount, ar.add existing.amount n = .ok amount ∧
      (ws.setPostStake { existing with amount }).setPost post = ws') ∨
    (ws.getPostStake tx.postID tx.sender = none ∧ ∃ stakerCount, ar.add post.stakerCount 1 = .ok stakerCount ∧
      (ws.setPostStake ⟨tx.postID, tx.sender, n, blockHeight⟩).setPost { post with stakerCount } = ws') := by
  unfold addBoostStake
  cases ws.getPostStake tx.postID tx.sender with
  | some existing =>
    simp only [Except.bind_ok_iff, Except.pure_ok_iff, Option.some.injEq, exists_eq_left', reduceCtorEq, false_and,
      or_false]
  | none =>
    simp only [Except.bind_ok_iff, Except.pure_ok_iff, reduceCtorEq, false_and, exists_false, true_and, false_or]

theorem applyBoostPost_ok_iff {blockHeight : UInt64} : applyBoostPost ar params ord ws tx blockHeight = .ok ws' ↔
    ∃ booster, ws.getAccount tx.sender = some booster ∧ ¬ booster.balance < tx.amount ∧
      ∃ post, ws.getPost tx.postID = some post ∧
      ∃ staked, boostStaked ar params tx.amount = .ok staked ∧
      ∃ balance, ar.sub booster.balance tx.amount = .ok balance ∧
      ∃ postStakeBalance, ar.add booster.postStakeBalance staked = .ok postStakeBalance ∧
      ∃ nonce, ar.add booster.nonce 1 = .ok nonce ∧
      ∃ burnedSupply, ar.add (ws.setAccount { booster with balance, postStakeBalance, nonce }).burnedSupply
        (burnAmount params tx.amount) = .ok burnedSupply ∧
      ∃ w₁, payAuthor ar { ws.setAccount { booster with balance, postStakeBalance, nonce } with burnedSupply }
        post.author (authorReward params tx.amount) = .ok w₁ ∧
      ∃ w₂, payStakers ar ord w₁ post tx.postID (stakerReward params tx.amount) = .ok w₂ ∧
      ∃ totalStaked, ar.add post.totalStaked staked = .ok totalStaked ∧
      ∃ totalBurned, ar.add post.totalBurned (burnAmount params tx.amount) = .ok totalBurned ∧
      addBoostStake ar w₂ { post with totalStaked, totalBurned } tx staked blockHeight = .ok ws' := by
  simp only [applyBoostPost, Except.bind_ok_iff, Except.orThrow_ok_iff, Except.throwIf_ok_iff, exists_const]

theorem returnStake_ok_iff {s : PostStake} : returnStake ar ws s = .ok ws' ↔
    (∃ acct, ws.getAccount s.staker = some acct ∧ ∃ balance, ar.add acct.balance s.amount = .ok balance ∧
      ∃ postStakeBalance, ar.sub acct.postStakeBalance s.amount = .ok postStakeBalance ∧
      ws.setAccount { acct with balance, postStakeBalance } = ws') ∨
    (ws.getAccount s.staker = none ∧ ws = ws') := by
  unfold returnStake
  cases ws.getAccount s.staker with
  | some acct =>
    simp only [Except.bind_ok_iff, Except.pure_ok_iff, Option.some.injEq, exists_eq_left', reduceCtorEq, false_and,
      or_false]
  | none => simp

theorem forceUnstake_ok_iff {p : PostID} {acc acc' : WorldState × Post} {s : PostStake} :
    forceUnstake ar p acc s = .ok acc' ↔
    ∃ w, returnStake ar acc.1 s = .ok w ∧
      ∃ totalStaked, ar.sub acc.2.totalStaked s.amount = .ok totalStaked ∧
      ∃ stakerCount, ar.sub acc.2.stakerCount 1 = .ok stakerCount ∧
      (w.removePostStake p s.staker, { acc.2 with totalStaked, stakerCount }) = acc' := by
  simp only [forceUnstake, Except.bind_ok_iff, Except.pure_ok_iff]

theorem applyUnstakePost_ok_iff : applyUnstakePost ar ord ws tx = .ok ws' ↔
    ∃ sender, ws.getAccount tx.sender = some sender ∧
      ∃ stake, ws.getPostStake tx.postID tx.sender = some stake ∧
      ∃ post, ws.getPost tx.postID = some post ∧
      ∃ balance, ar.add sender.balance stake.amount = .ok balance ∧
      ∃ postStakeBalance, ar.sub sender.postStakeBalance stake.amount = .ok postStakeBalance ∧
      ∃ nonce, ar.add sender.nonce 1 = .ok nonce ∧
      ∃ totalStaked, ar.sub post.totalStaked stake.amount = .ok totalStaked ∧
      ∃ stakerCount, ar.sub post.stakerCount 1 = .ok stakerCount ∧
      ((tx.sender = post.author ∧ ∃ acc,
        (((ws.setAccount { sender with balance, postStakeBalance, nonce }).removePostStake tx.postID
          tx.sender).getPostStakers ord tx.postID).foldlM (forceUnstake ar tx.postID)
          ((ws.setAccount { sender with balance, postStakeBalance, nonce }).removePostStake tx.postID tx.sender,
            { post with totalStaked, stakerCount, withdrawn := true }) = .ok acc ∧ acc.1.setPost acc.2 = ws') ∨
      (tx.sender ≠ post.author ∧
        ((ws.setAccount { sender with balance, postStakeBalance, nonce }).removePostStake tx.postID tx.sender).setPost
          { post with totalStaked, stakerCount } = ws')) := by
  simp only [applyUnstakePost, Except.bind_ok_iff, Except.orThrow_ok_iff]
  constructor
  · rintro ⟨sender, hg, stake, hs, post, hp, balance, hb, psb, hps, nonce, hn, total, ht, count, hc, h⟩
    refine ⟨sender, hg, stake, hs, post, hp, balance, hb, psb, hps, nonce, hn, total, ht, count, hc, ?_⟩
    split at h
    · next hauthor =>
      simp only [Except.bind_ok_iff, Except.pure_ok_iff] at h
      exact .inl ⟨hauthor, h⟩
    · next hauthor => exact .inr ⟨hauthor, Except.pure_ok_iff.mp h⟩
  · rintro ⟨sender, hg, stake, hs, post, hp, balance, hb, psb, hps, nonce, hn, total, ht, count, hc, h⟩
    refine ⟨sender, hg, stake, hs, post, hp, balance, hb, psb, hps, nonce, hn, total, ht, count, hc, ?_⟩
    obtain ⟨hauthor, h⟩ | ⟨hauthor, h⟩ := h
    · rw [if_pos hauthor]
      simp only [Except.bind_ok_iff, Except.pure_ok_iff]
      exact h
    · rw [if_neg hauthor]
      exact Except.pure_ok_iff.mpr h

theorem applyStake_ok_iff : applyStake ar ws tx = .ok ws' ↔
    ∃ sender, ws.getAccount tx.sender = some sender ∧ ¬ sender.balance < tx.amount ∧
      ∃ balance, ar.sub sender.balance tx.amount = .ok balance ∧
      ∃ stakedBalance, ar.add sender.stakedBalance tx.amount = .ok stakedBalance ∧
      ∃ nonce, ar.add sender.nonce 1 = .ok nonce ∧
      (ws.setAccount { sender with balance, stakedBalance, nonce }).setValidatorPubKey tx.sender tx.pubKey = ws' := by
  simp only [applyStake, Except.bind_ok_iff, Except.orThrow_ok_iff, Except.throwIf_ok_iff, Except.pure_ok_iff,
    exists_const]

theorem applyUnstake_ok_iff {blockHeight : UInt64} : applyUnstake ar params ws tx blockHeight = .ok ws' ↔
    ∃ sender, ws.getAccount tx.sender = some sender ∧ ¬ sender.stakedBalance < tx.amount ∧
      ∃ stakedBalance, ar.sub sender.stakedBalance tx.amount = .ok stakedBalance ∧
      ∃ nonce, ar.add sender.nonce 1 = .ok nonce ∧
      ∃ releaseHeight, ar.add blockHeight params.unbondingPeriod = .ok releaseHeight ∧
      (ws.setAccount { sender with stakedBalance, nonce }).addUnbondingEntry ⟨tx.sender, tx.amount, releaseHeight⟩ =
        ws' := by
  simp only [applyUnstake, Except.bind_ok_iff, Except.orThrow_ok_iff, Except.throwIf_ok_iff, Except.pure_ok_iff,
    exists_const]

theorem applyRegisterName_ok_iff : applyRegisterName ar ws tx = .ok ws' ↔
    ∃ sender, ws.getAccount tx.sender = some sender ∧
      ∃ nonce, ar.add sender.nonce 1 = .ok nonce ∧
      (ws.setAccount { sender with nonce, name := tx.text }).registerName tx.sender tx.text = ws' := by
  simp only [applyRegisterName, Except.bind_ok_iff, Except.orThrow_ok_iff, Except.pure_ok_iff]

/-- Whatever its type, a transaction finds its sender and takes the sender's nonce one on. -/
theorem applyTransaction_sender {blockHeight : UInt64} {blockTime : Int64}
    (h : applyTransaction E ar params ord ws tx blockHeight blockTime = .ok ws') :
    ∃ sender nonce, ws.getAccount tx.sender = some sender ∧ ar.add sender.nonce 1 = .ok nonce := by
  unfold applyTransaction at h
  split at h
  · obtain ⟨sender, hg, -, balance, -, nonce, hn, -⟩ := applyTransfer_ok_iff.mp h
    exact ⟨sender, nonce, hg, hn⟩
  · obtain ⟨sender, hg, -, staked, -, nonce, hn, -⟩ := applyCreatePost_ok_iff.mp h
    exact ⟨sender, nonce, hg, hn⟩
  · obtain ⟨sender, hg, -, post, -, staked, -, balance, -, psb, -, nonce, hn, -⟩ := applyBoostPost_ok_iff.mp h
    exact ⟨sender, nonce, hg, hn⟩
  · obtain ⟨sender, hg, stake, -, post, -, balance, -, psb, -, nonce, hn, -⟩ := applyUnstakePost_ok_iff.mp h
    exact ⟨sender, nonce, hg, hn⟩
  · obtain ⟨sender, hg, nonce, hn, -⟩ := applyRegisterName_ok_iff.mp h
    exact ⟨sender, nonce, hg, hn⟩
  · obtain ⟨sender, hg, -, balance, -, staked, -, nonce, hn, -⟩ := applyStake_ok_iff.mp h
    exact ⟨sender, nonce, hg, hn⟩
  · obtain ⟨sender, hg, -, staked, -, nonce, hn, -⟩ := applyUnstake_ok_iff.mp h
    exact ⟨sender, nonce, hg, hn⟩
  · cases h

theorem executeTransaction_ok_iff {header : BlockHeader} {i : Nat} :
    executeTransaction E ar params ord header i ws tx = .ok ws' ↔
    validateTransaction E tx ws.reader params = .ok () ∧
      applyTransaction E ar params ord ws tx header.height header.timestamp = .ok ws' := by
  simp only [executeTransaction, Except.bind_ok_iff, Except.wrapErr_ok_iff]
  constructor
  · rintro ⟨u, hv, h⟩
    exact ⟨hv, h⟩
  · rintro ⟨hv, h⟩
    exact ⟨(), hv, h⟩

/-! ## Slashing -/

theorem slashRest_ok_iff : slashRest ar ws a n = .ok ws' ↔
    (0 < n ∧ ∃ q, WorldState.slashEntries ar a n ws.unbondingQueue = .ok q ∧
      { ws with unbondingQueue := q.filter (·.amount > 0) } = ws') ∨
    (n = 0 ∧ ws = ws') := by
  unfold slashRest
  split
  · next hn =>
    simp only [gt_iff_lt.mp hn, UInt64.pos_iff_ne_zero.mp hn, WorldState.slashUnbonding, Except.bind_ok_iff,
      Except.pure_ok_iff, true_and, false_and, or_false]
  · next hn =>
    obtain rfl : n = 0 := UInt64.le_zero_iff.mp (UInt64.not_lt.mp hn)
    simp only [Except.pure_ok_iff, UInt64.lt_irrefl, false_and, true_and, false_or]

theorem slashAccount_ok_iff {height totalAtRisk : UInt64} {acct : Account} :
    slashAccount ar params ws a height acct totalAtRisk = .ok ws' ↔
    ∃ stakedBalance, ar.sub acct.stakedBalance (if slashAmount params totalAtRisk > acct.stakedBalance then
        acct.stakedBalance else slashAmount params totalAtRisk) = .ok stakedBalance ∧
      ∃ remaining, ar.sub (slashAmount params totalAtRisk) (if slashAmount params totalAtRisk > acct.stakedBalance then
        acct.stakedBalance else slashAmount params totalAtRisk) = .ok remaining ∧
      ∃ w, slashRest ar (ws.setAccount { acct with stakedBalance }) a remaining = .ok w ∧
      ∃ burnedSupply, ar.add (w.recordSlash a height).burnedSupply (slashAmount params totalAtRisk) = .ok burnedSupply ∧
      { w.recordSlash a height with burnedSupply } = ws' := by
  simp only [slashAccount, Except.bind_ok_iff, Except.pure_ok_iff]

/-- Evidence either changes nothing or, being valid, costs the voter a penalty
on what it has at risk. -/
theorem applySlashEvidence_cases {ev : SlashEvidence} (h : applySlashEvidence E ar params ws ev = .ok ws') :
    ws' = ws ∨ ev.isValid E = true ∧ ∃ acct unbonding totalAtRisk,
      ws.getAccount ev.voteA.voterAddr = some acct ∧
      ws.unbondingBalanceFor ar ev.voteA.voterAddr = .ok unbonding ∧
      ar.add acct.stakedBalance unbonding = .ok totalAtRisk ∧ totalAtRisk ≠ 0 ∧
      slashAccount ar params ws ev.voteA.voterAddr ev.voteA.height acct totalAtRisk = .ok ws' := by
  simp only [applySlashEvidence] at h
  split at h
  · exact .inl (Except.pure_ok_iff.mp h).symm
  · next hv =>
    split at h
    · exact .inl (Except.pure_ok_iff.mp h).symm
    split at h
    · exact .inl (Except.pure_ok_iff.mp h).symm
    · next acct hg =>
      simp only [Except.bind_ok_iff] at h
      obtain ⟨unbonding, hu, totalAtRisk, ht, h⟩ := h
      split at h
      · exact .inl (Except.pure_ok_iff.mp h).symm
      · next h₀ =>
        exact .inr ⟨by simpa using hv, acct, unbonding, totalAtRisk, hg, hu, ht, h₀, h⟩

/-! ## Blocks -/

theorem issueReward_ok_iff : issueReward ar params ws a = .ok ws' ↔
    (0 < params.blockReward ∧ ∃ w, depositAccount ar ws a params.blockReward = .ok w ∧
      ∃ issuedSupply, ar.add w.issuedSupply params.blockReward = .ok issuedSupply ∧
      { w with issuedSupply } = ws') ∨
    (params.blockReward = 0 ∧ ws = ws') := by
  unfold issueReward
  split
  · next hn =>
    simp only [gt_iff_lt.mp hn, UInt64.pos_iff_ne_zero.mp hn, Except.bind_ok_iff, Except.pure_ok_iff, true_and,
      false_and, or_false]
  · next hn =>
    have hn : params.blockReward = 0 := UInt64.le_zero_iff.mp (UInt64.not_lt.mp hn)
    simp only [hn, Except.pure_ok_iff, UInt64.lt_irrefl, false_and, true_and, false_or]

end Drana
