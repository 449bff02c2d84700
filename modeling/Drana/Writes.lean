/-
What every step of a block is made of: accounts, posts and stake records
written, and stake records removed. So records lie under their own keys, and
accounts and posts, once there, stay; whatever the arithmetic does.
-/
import Drana.Run
import Drana.Inversion
import Drana.StateFacts

namespace Drana

/-- `ws` comes from `ws₀` by writes. -/
inductive Writes (ws₀ : WorldState) : WorldState → Prop
  | refl : Writes ws₀ ws₀
  | setAccount {ws : WorldState} {acct : Account} : Writes ws₀ ws → Writes ws₀ (ws.setAccount acct)
  | setPost {ws : WorldState} {post : Post} : Writes ws₀ ws → Writes ws₀ (ws.setPost post)
  | setPostStake {ws : WorldState} {s : PostStake} : Writes ws₀ ws → Writes ws₀ (ws.setPostStake s)
  | removePostStake {ws : WorldState} {p : PostID} {a : Address} :
    Writes ws₀ ws → Writes ws₀ (ws.removePostStake p a)
  | other {ws ws' : WorldState} : Writes ws₀ ws → ws'.accounts = ws.accounts → ws'.posts = ws.posts →
    ws'.postStakes = ws.postStakes → Writes ws₀ ws'

variable {E : Env} {ar : Arith} {params : GenesisConfig} {ws₀ ws ws' : WorldState} {tx : Transaction}
  {ord : RangeOrder}

namespace Writes

theorem trans {w : WorldState} (h : Writes ws₀ w) (h' : Writes w ws) : Writes ws₀ ws := by
  induction h' with
  | refl => exact h
  | setAccount _ ih => exact ih.setAccount
  | setPost _ ih => exact ih.setPost
  | setPostStake _ ih => exact ih.setPostStake
  | removePostStake _ ih => exact ih.removePostStake
  | other _ ha hp hs ih => exact ih.other ha hp hs

theorem keyed (h : Writes ws₀ ws) (hk : Keyed ws₀) : Keyed ws := by
  induction h with
  | refl => exact hk
  | setAccount _ ih => exact ih.setAccount
  | setPost _ ih => exact ih.setPost
  | setPostStake _ ih => exact ih.setPostStake
  | removePostStake _ ih => exact ih.removePostStake
  | other _ ha hp hs ih => exact ih.congr ha hp hs

theorem accounts_grow (h : Writes ws₀ ws) (a : Address) (ha : (ws₀.getAccount a).isSome) :
    (ws.getAccount a).isSome := by
  induction h with
  | refl => exact ha
  | setAccount _ ih =>
    rw [WorldState.getAccount_setAccount]
    split
    · rfl
    · exact ih
  | setPost _ ih => exact ih
  | setPostStake _ ih => exact ih
  | removePostStake _ ih => exact ih
  | other _ haccounts _ _ ih => rwa [WorldState.getAccount_congr haccounts]

theorem posts_grow (h : Writes ws₀ ws) (p : PostID) (hp : (ws₀.getPost p).isSome) : (ws.getPost p).isSome := by
  induction h with
  | refl => exact hp
  | setAccount _ ih => exact ih
  | @setPost w post _ ih =>
    by_cases hq : p = post.postID
    · rw [hq, WorldState.getPost_setPost_self]
      rfl
    · rwa [WorldState.getPost_setPost_ne hq]
  | setPostStake _ ih => exact ih
  | removePostStake _ ih => exact ih
  | other _ _ hposts _ ih => rwa [WorldState.getPost, hposts]

end Writes

/-! ## Each step -/

theorem depositAccount_writes {a : Address} {n : UInt64} (h : depositAccount ar ws a n = .ok ws') :
    Writes ws ws' := by
  obtain ⟨b, -, rfl⟩ := depositAccount_ok_iff.mp h
  exact .setAccount .refl

theorem applyTransfer_writes (h : applyTransfer ar ws tx = .ok ws') : Writes ws ws' := by
  obtain ⟨sender, -, -, balance, -, nonce, -, h⟩ := applyTransfer_ok_iff.mp h
  exact (Writes.setAccount .refl).trans (depositAccount_writes h)

theorem applyCreatePost_writes {height : UInt64} {time : Int64}
    (h : applyCreatePost E ar params ws tx height time = .ok ws') : Writes ws ws' := by
  obtain ⟨author, -, -, staked, -, nonce, -, balance, -, psb, -, burned, -, rfl⟩ := applyCreatePost_ok_iff.mp h
  exact .other (.setPostStake (.setPost (.setAccount .refl))) rfl rfl rfl

theorem creditAccount_writes {a : Address} {n : UInt64} (h : creditAccount ar ws a n = .ok ws') :
    Writes ws ws' := by
  obtain ⟨acct, -, b, -, rfl⟩ | ⟨-, rfl⟩ := creditAccount_ok_iff.mp h
  · exact .setAccount .refl
  · exact .refl

theorem payAuthor_writes {a : Address} {n : UInt64} (h : payAuthor ar ws a n = .ok ws') : Writes ws ws' :=
  payAuthor_inv (Writes ws) (fun hw hc => hw.trans (creditAccount_writes hc)) .refl h

theorem payStakers_writes {post : Post} {p : PostID} {n : UInt64} (h : payStakers ar ord ws post p n = .ok ws') :
    Writes ws ws' :=
  payStakers_inv (Writes ws) (fun hw hc => hw.trans (creditAccount_writes hc)) .refl h

theorem addBoostStake_writes {post : Post} {n height : UInt64}
    (h : addBoostStake ar ws post tx n height = .ok ws') : Writes ws ws' := by
  obtain ⟨existing, -, amount, -, rfl⟩ | ⟨-, count, -, rfl⟩ := addBoostStake_ok_iff.mp h
  · exact .setPost (.setPostStake .refl)
  · exact .setPost (.setPostStake .refl)

theorem applyBoostPost_writes {height : UInt64} (h : applyBoostPost ar params ord ws tx height = .ok ws') :
    Writes ws ws' := by
  obtain ⟨booster, -, -, post, -, staked, -, balance, -, psb, -, nonce, -, burned, -, w₁, h₁, w₂, h₂, total, -, onPost,
    -, h⟩ := applyBoostPost_ok_iff.mp h
  refine ((Writes.trans ?_ (payAuthor_writes h₁)).trans (payStakers_writes h₂)).trans (addBoostStake_writes h)
  exact .other (.setAccount .refl) rfl rfl rfl

theorem returnStake_writes {s : PostStake} (h : returnStake ar ws s = .ok ws') : Writes ws ws' := by
  obtain ⟨acct, -, balance, -, psb, -, rfl⟩ | ⟨-, rfl⟩ := returnStake_ok_iff.mp h
  · exact .setAccount .refl
  · exact .refl

theorem forceUnstake_writes {p : PostID} {acc acc' : WorldState × Post} {s : PostStake}
    (h : forceUnstake ar p acc s = .ok acc') : Writes acc.1 acc'.1 := by
  obtain ⟨w, hw, total, -, count, -, rfl⟩ := forceUnstake_ok_iff.mp h
  exact (returnStake_writes hw).removePostStake

theorem applyUnstakePost_writes (h : applyUnstakePost ar ord ws tx = .ok ws') : Writes ws ws' := by
  obtain ⟨sender, -, s, -, post, -, balance, -, psb, -, nonce, -, total, -, count, -, h⟩ := applyUnstakePost_ok_iff.mp h
  obtain ⟨-, ⟨w, new⟩, hloop, rfl⟩ | ⟨-, rfl⟩ := h
  · exact (Except.foldlM_inv (fun acc : WorldState × Post => Writes ws acc.1)
      (fun s _ acc acc' hacc hs => hacc.trans (forceUnstake_writes hs))
      (.removePostStake (.setAccount .refl)) hloop).setPost
  · exact .setPost (.removePostStake (.setAccount .refl))

theorem applyRegisterName_writes (h : applyRegisterName ar ws tx = .ok ws') : Writes ws ws' := by
  obtain ⟨sender, -, nonce, -, rfl⟩ := applyRegisterName_ok_iff.mp h
  exact .other (.setAccount .refl) rfl rfl rfl

theorem applyStake_writes (h : applyStake ar ws tx = .ok ws') : Writes ws ws' := by
  obtain ⟨sender, -, -, balance, -, staked, -, nonce, -, rfl⟩ := applyStake_ok_iff.mp h
  exact .other (.setAccount .refl) rfl rfl rfl

theorem applyUnstake_writes {height : UInt64} (h : applyUnstake ar params ws tx height = .ok ws') :
    Writes ws ws' := by
  obtain ⟨sender, -, -, staked, -, nonce, -, release, -, rfl⟩ := applyUnstake_ok_iff.mp h
  exact .other (.setAccount .refl) rfl rfl rfl

theorem executeTransaction_writes {header : BlockHeader} {i : Nat}
    (h : executeTransaction E ar params ord header i ws tx = .ok ws') : Writes ws ws' := by
  obtain ⟨-, h⟩ := executeTransaction_ok_iff.mp h
  unfold applyTransaction at h
  split at h
  · exact applyTransfer_writes h
  · exact applyCreatePost_writes h
  · exact applyBoostPost_writes h
  · exact applyUnstakePost_writes h
  · exact applyRegisterName_writes h
  · exact applyStake_writes h
  · exact applyUnstake_writes h
  · cases h

theorem slashRest_writes {a : Address} {n : UInt64} (h : slashRest ar ws a n = .ok ws') : Writes ws ws' := by
  obtain ⟨-, q, -, rfl⟩ | ⟨-, rfl⟩ := slashRest_ok_iff.mp h
  · exact .other .refl rfl rfl rfl
  · exact .refl

theorem applySlashEvidence_writes {ev : SlashEvidence} (h : applySlashEvidence E ar params ws ev = .ok ws') :
    Writes ws ws' := by
  rcases applySlashEvidence_cases h with rfl | ⟨-, acct, unbonding, totalAtRisk, -, -, -, -, h⟩
  · exact .refl
  · obtain ⟨staked, -, remaining, -, w, hw, burned, -, rfl⟩ := slashAccount_ok_iff.mp h
    have hw := slashRest_writes hw
    exact .other ((Writes.setAccount .refl).trans hw) rfl rfl rfl

theorem releaseMatured_writes {height : UInt64} (h : releaseMatured ar ws height = .ok ws') : Writes ws ws' := by
  have hstart : Writes ws (ws.removeMaturedUnbonding height).2 := .other .refl rfl rfl rfl
  exact Except.foldlM_inv (Writes ws) (fun e _ w w' hw hd => hw.trans (depositAccount_writes hd)) hstart h

theorem issueReward_writes {a : Address} (h : issueReward ar params ws a = .ok ws') : Writes ws ws' := by
  obtain ⟨-, w, hw, issued, -, rfl⟩ | ⟨-, rfl⟩ := issueReward_ok_iff.mp h
  · exact .other (depositAccount_writes hw) rfl rfl rfl
  · exact .refl

theorem epochTransition_writes {height : UInt64} : Writes ws (epochTransition params ord ws height) := by
  unfold epochTransition
  split
  · exact .other .refl rfl rfl rfl
  · exact .refl

theorem keeps_writes : Keeps E ar params fun _ ws => Writes ws₀ ws where
  release hw h := hw.trans (releaseMatured_writes h)
  slash hw h := hw.trans (applySlashEvidence_writes h)
  tx hw h := hw.trans (executeTransaction_writes h)
  reward hw h := hw.trans (issueReward_writes h)
  epoch hw := hw.trans epochTransition_writes
  height hw := .other hw rfl rfl rfl

/-- **A block only writes.** -/
theorem applyBlock_writes {ord : Nat → RangeOrder} {block : Block}
    (h : applyBlock E ar params ord ws block = .ok ws') : Writes ws ws' :=
  keeps_writes.invariant_block .refl h

end Drana
