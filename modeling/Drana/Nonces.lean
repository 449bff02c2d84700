/-
Nonces count: each transaction applied raises its sender's nonce by one and
nobody else's, whatever the arithmetic does to balances. So transactions are
not replayed and post IDs not reused, until a nonce wraps.
-/
import Drana.Texts

namespace Drana

variable {E : Env} {ar : Arith} {params : GenesisConfig} {ws₀ ws ws' : WorldState} {tx : Transaction}
  {ord : RangeOrder} {header : BlockHeader} {i : Nat} {a s : Address} {p : PostID}

/-- The nonce of an account, zero without one. -/
def nonceOf (ws : WorldState) (a : Address) : UInt64 := (ws.getAccount a).elim 0 (·.nonce)

theorem nonceOf_of {acct : Account} (hg : ws.getAccount a = some acct) : nonceOf ws a = acct.nonce := by
  simp [nonceOf, hg]

theorem nonceOf_congr (h : ws'.accounts = ws.accounts) : nonceOf ws' a = nonceOf ws a := by
  rw [nonceOf, WorldState.getAccount_congr h, nonceOf]

theorem nonceOf_setAccount {acct : Account} :
    nonceOf (ws.setAccount acct) a = if a = acct.address then acct.nonce else nonceOf ws a := by
  rw [nonceOf, WorldState.getAccount_setAccount]
  split <;> rfl

/-! ## Steps that leave nonces and posts -/

/-- No nonce changes, no post appears. -/
structure SameNumbers (ws₀ ws : WorldState) : Prop where
  keyed : Keyed ws₀ → Keyed ws
  nonce : Keyed ws₀ → ∀ a, nonceOf ws a = nonceOf ws₀ a
  posts : ∀ p, (ws.getPost p).isSome → (ws₀.getPost p).isSome

namespace SameNumbers

theorem refl : SameNumbers ws ws := ⟨id, fun _ _ => rfl, fun _ => id⟩

theorem trans {w : WorldState} (h : SameNumbers ws₀ w) (h' : SameNumbers w ws) : SameNumbers ws₀ ws where
  keyed hk := h'.keyed (h.keyed hk)
  nonce hk a := (h'.nonce (h.keyed hk) a).trans (h.nonce hk a)
  posts p hp := h.posts p (h'.posts p hp)

theorem congr (h : SameNumbers ws₀ ws) (ha : ws'.accounts = ws.accounts) (hp : ws'.posts = ws.posts)
    (hs : ws'.postStakes = ws.postStakes) : SameNumbers ws₀ ws' where
  keyed hk := (h.keyed hk).congr ha hp hs
  nonce hk a := (nonceOf_congr ha).trans (h.nonce hk a)
  posts p hq := h.posts p (by rwa [WorldState.getPost, hp] at hq)

/-- An account read, changed and written back with its nonce. -/
theorem setAccount {acct old : Account} (hg : ws.getAccount a = some old) (haddr : acct.address = old.address)
    (hn : acct.nonce = old.nonce) : SameNumbers ws (ws.setAccount acct) where
  keyed hk := hk.setAccount
  nonce hk b := by
    have hold : old.address = a := hk.account a old hg
    rw [nonceOf_setAccount]
    split
    · next hb => rw [hb, haddr, hold, nonceOf_of hg, hn]
    · rfl
  posts _ hp := hp

theorem setPost {post : Post} (h : SameNumbers ws₀ ws) (hpost : (ws₀.getPost post.postID).isSome) :
    SameNumbers ws₀ (ws.setPost post) where
  keyed hk := (h.keyed hk).setPost
  nonce hk a := h.nonce hk a
  posts p hp := by
    by_cases hq : p = post.postID
    · rwa [hq]
    · rw [WorldState.getPost_setPost_ne hq] at hp
      exact h.posts p hp

theorem setPostStake {ps : PostStake} (h : SameNumbers ws₀ ws) : SameNumbers ws₀ (ws.setPostStake ps) where
  keyed hk := (h.keyed hk).setPostStake
  nonce hk a := h.nonce hk a
  posts := h.posts

theorem removePostStake (h : SameNumbers ws₀ ws) : SameNumbers ws₀ (ws.removePostStake p a) where
  keyed hk := (h.keyed hk).removePostStake
  nonce hk a := h.nonce hk a
  posts := h.posts

end SameNumbers

theorem depositAccount_numbers {n : UInt64} (h : depositAccount ar ws a n = .ok ws') : SameNumbers ws ws' := by
  obtain ⟨balance, -, rfl⟩ := depositAccount_ok_iff.mp h
  cases hg : ws.getAccount a with
  | some acct => exact .setAccount hg rfl rfl
  | none =>
    refine ⟨fun hk => hk.setAccount, fun _ b => ?_, fun _ hp => hp⟩
    -- A new account starts at zero, where a missing one is.
    rw [nonceOf_setAccount]
    split
    · next hb =>
      have hb : b = a := hb
      rw [hb, nonceOf, hg]
      rfl
    · rfl

theorem creditAccount_numbers {n : UInt64} (h : creditAccount ar ws a n = .ok ws') : SameNumbers ws ws' := by
  obtain ⟨acct, hg, balance, -, rfl⟩ | ⟨-, rfl⟩ := creditAccount_ok_iff.mp h
  · exact .setAccount hg rfl rfl
  · exact .refl

theorem payAuthor_numbers {n : UInt64} (h : payAuthor ar ws a n = .ok ws') : SameNumbers ws ws' :=
  payAuthor_inv (SameNumbers ws) (fun hw hc => hw.trans (creditAccount_numbers hc)) .refl h

theorem payStakers_numbers {post : Post} {n : UInt64} (h : payStakers ar ord ws post p n = .ok ws') :
    SameNumbers ws ws' :=
  payStakers_inv (SameNumbers ws) (fun hw hc => hw.trans (creditAccount_numbers hc)) .refl h

theorem returnStake_numbers {ps : PostStake} (h : returnStake ar ws ps = .ok ws') : SameNumbers ws ws' := by
  obtain ⟨acct, hg, balance, -, psb, -, rfl⟩ | ⟨-, rfl⟩ := returnStake_ok_iff.mp h
  · exact .setAccount hg rfl rfl
  · exact .refl

theorem forceUnstake_numbers {acc acc' : WorldState × Post} {ps : PostStake}
    (h : forceUnstake ar p acc ps = .ok acc') : SameNumbers acc.1 acc'.1 ∧ acc'.2.postID = acc.2.postID := by
  obtain ⟨w, hw, total, -, count, -, rfl⟩ := forceUnstake_ok_iff.mp h
  exact ⟨(returnStake_numbers hw).removePostStake, rfl⟩

theorem slashRest_numbers {n : UInt64} (h : slashRest ar ws a n = .ok ws') : SameNumbers ws ws' := by
  obtain ⟨-, q, -, rfl⟩ | ⟨-, rfl⟩ := slashRest_ok_iff.mp h
  · exact SameNumbers.refl.congr rfl rfl rfl
  · exact .refl

theorem applySlashEvidence_numbers {ev : SlashEvidence} (h : applySlashEvidence E ar params ws ev = .ok ws') :
    SameNumbers ws ws' := by
  rcases applySlashEvidence_cases h with rfl | ⟨-, acct, unbonding, totalAtRisk, hg, -, -, -, h⟩
  · exact .refl
  · obtain ⟨stakedBalance, -, remaining, -, w, hw, burned, -, rfl⟩ := slashAccount_ok_iff.mp h
    have hset : SameNumbers ws (ws.setAccount { acct with stakedBalance }) := .setAccount hg rfl rfl
    exact (hset.trans (slashRest_numbers hw)).congr rfl rfl rfl

theorem releaseMatured_numbers {height : UInt64} (h : releaseMatured ar ws height = .ok ws') :
    SameNumbers ws ws' := by
  have hstart : SameNumbers ws (ws.removeMaturedUnbonding height).2 := SameNumbers.refl.congr rfl rfl rfl
  exact Except.foldlM_inv (SameNumbers ws) (fun _ _ _ _ hw hd => hw.trans (depositAccount_numbers hd)) hstart h

theorem issueReward_numbers (h : issueReward ar params ws a = .ok ws') : SameNumbers ws ws' := by
  obtain ⟨-, w, hw, issued, -, rfl⟩ | ⟨-, rfl⟩ := issueReward_ok_iff.mp h
  · exact (depositAccount_numbers hw).congr rfl rfl rfl
  · exact .refl

theorem epochTransition_numbers {height : UInt64} : SameNumbers ws (epochTransition params ord ws height) := by
  unfold epochTransition
  split
  · exact SameNumbers.refl.congr rfl rfl rfl
  · exact .refl

/-! ## Transactions -/

/-- One nonce rises by one. -/
def Bumped (ws : WorldState) (s : Address) (ws' : WorldState) : Prop :=
  ∀ a, nonceOf ws' a = nonceOf ws a + if a = s then 1 else 0

/-- The sender's record, read and written back with the next nonce. -/
theorem bumped_setAccount {acct old : Account} (hk : Keyed ws) (hg : ws.getAccount s = some old)
    (haddr : acct.address = old.address) (hn : ar.add old.nonce 1 = .ok acct.nonce) :
    Bumped ws s (ws.setAccount acct) := by
  intro b
  have hold : old.address = s := hk.account s old hg
  rw [nonceOf_setAccount, haddr, hold]
  split
  · next hb => rw [hb, nonceOf_of hg, Arith.add_ok hn]
  · rw [UInt64.add_zero]

theorem Bumped.same {w : WorldState} (h : Bumped ws s w) (hk : Keyed w) (h' : SameNumbers w ws') :
    Bumped ws s ws' :=
  fun a => (h'.nonce hk a).trans (h a)

/-- What a transaction of `tx.sender` does to nonces and posts: one post may
appear, which `tx` creates. -/
structure TxNumbers (E : Env) (ws : WorldState) (tx : Transaction) (ws' : WorldState) : Prop where
  bumped : Bumped ws tx.sender ws'
  posts : ∀ p, (ws'.getPost p).isSome → (ws.getPost p).isSome ∨
    tx.kind = some .createPost ∧ p = derivePostID E tx.sender (nonceOf ws tx.sender + 1)
  staked : ∀ p, stakesOn E tx = some p → tx.nonce = nonceOf ws tx.sender + 1 → (ws'.getPost p).isSome

/-- Where nothing is staked on a post and none appears. -/
theorem TxNumbers.plain (hb : Bumped ws tx.sender ws') (hp : ∀ p, (ws'.getPost p).isSome → (ws.getPost p).isSome)
    (hc : tx.kind ≠ some .createPost) (hbo : tx.kind ≠ some .boostPost) : TxNumbers E ws tx ws' where
  bumped := hb
  posts p h := .inl (hp p h)
  staked p h _ := by
    unfold stakesOn at h
    split at h <;> simp_all

theorem applyTransfer_numbers (hk : Keyed ws) (h : applyTransfer ar ws tx = .ok ws') (hc : tx.kind = some .transfer) :
    TxNumbers E ws tx ws' := by
  obtain ⟨sender, hg, -, balance, -, nonce, hn, h⟩ := applyTransfer_ok_iff.mp h
  have hsent : Bumped ws tx.sender (ws.setAccount { sender with balance, nonce }) := bumped_setAccount hk hg rfl hn
  have hsame := depositAccount_numbers h
  exact .plain (hsent.same hk.setAccount hsame) hsame.posts (by simp [hc]) (by simp [hc])

theorem applyStake_numbers (hk : Keyed ws) (h : applyStake ar ws tx = .ok ws') (hc : tx.kind = some .stake) :
    TxNumbers E ws tx ws' := by
  obtain ⟨sender, hg, -, balance, -, stakedBalance, -, nonce, hn, rfl⟩ := applyStake_ok_iff.mp h
  have hsent : Bumped ws tx.sender (ws.setAccount { sender with balance, stakedBalance, nonce }) :=
    bumped_setAccount hk hg rfl hn
  exact .plain hsent (fun _ h => h) (by simp [hc]) (by simp [hc])

theorem applyUnstake_numbers (hk : Keyed ws) {height : UInt64} (h : applyUnstake ar params ws tx height = .ok ws')
    (hc : tx.kind = some .unstake) : TxNumbers E ws tx ws' := by
  obtain ⟨sender, hg, -, stakedBalance, -, nonce, hn, release, -, rfl⟩ := applyUnstake_ok_iff.mp h
  have hsent : Bumped ws tx.sender (ws.setAccount { sender with stakedBalance, nonce }) :=
    bumped_setAccount hk hg rfl hn
  exact .plain hsent (fun _ h => h) (by simp [hc]) (by simp [hc])

theorem applyRegisterName_numbers (hk : Keyed ws) (h : applyRegisterName ar ws tx = .ok ws')
    (hc : tx.kind = some .registerName) : TxNumbers E ws tx ws' := by
  obtain ⟨sender, hg, nonce, hn, rfl⟩ := applyRegisterName_ok_iff.mp h
  have hsent : Bumped ws tx.sender (ws.setAccount { sender with nonce, name := tx.text }) :=
    bumped_setAccount hk hg rfl hn
  exact .plain hsent (fun _ h => h) (by simp [hc]) (by simp [hc])

theorem applyCreatePost_numbers (hk : Keyed ws) {height : UInt64} {time : Int64}
    (h : applyCreatePost E ar params ws tx height time = .ok ws') (hc : tx.kind = some .createPost) :
    TxNumbers E ws tx ws' := by
  obtain ⟨author, hg, -, staked, -, nonce, hn, balance, -, postStakeBalance, -, burned, -, rfl⟩ :=
    applyCreatePost_ok_iff.mp h
  have hsent : Bumped ws tx.sender (ws.setAccount { author with balance, postStakeBalance, nonce }) :=
    bumped_setAccount hk hg rfl hn
  have hnonce : nonce = nonceOf ws tx.sender + 1 := by rw [nonceOf_of hg, Arith.add_ok hn]
  refine ⟨hsent, ?_, ?_⟩
  · intro p hp
    by_cases hid : p = derivePostID E tx.sender nonce
    · exact .inr ⟨hc, by rw [hid, hnonce]⟩
    · exact .inl ((congrArg Option.isSome (Finmap.lookup_insert_of_ne ws.posts hid)).symm.trans hp)
  · intro p hp hnext
    simp only [stakesOn, hc, Option.some.injEq] at hp
    rw [← hp, hnext, ← hnonce]
    exact congrArg Option.isSome (Finmap.lookup_insert _)

theorem addBoostStake_numbers {post : Post} {n height : UInt64} (h : addBoostStake ar ws post tx n height = .ok ws')
    (hpost : (ws.getPost post.postID).isSome) : SameNumbers ws ws' := by
  obtain ⟨existing, -, amount, -, rfl⟩ | ⟨-, count, -, rfl⟩ := addBoostStake_ok_iff.mp h
  · exact SameNumbers.refl.setPostStake.setPost hpost
  · exact SameNumbers.refl.setPostStake.setPost hpost

theorem applyBoostPost_numbers (hk : Keyed ws) {height : UInt64}
    (h : applyBoostPost ar params ord ws tx height = .ok ws') (hc : tx.kind = some .boostPost) :
    TxNumbers E ws tx ws' := by
  have hwrites := applyBoostPost_writes h
  obtain ⟨booster, hg, -, post, hpost, staked, -, balance, -, postStakeBalance, -, nonce, hn, burnedSupply, -, w₁, h₁,
    w₂, h₂, total, -, onPost, -, h⟩ := applyBoostPost_ok_iff.mp h
  have hsent : Bumped ws tx.sender (ws.setAccount { booster with balance, postStakeBalance, nonce }) :=
    bumped_setAccount hk hg rfl hn
  have hburned : SameNumbers (ws.setAccount { booster with balance, postStakeBalance, nonce })
      { ws.setAccount { booster with balance, postStakeBalance, nonce } with burnedSupply } :=
    SameNumbers.refl.congr rfl rfl rfl
  have hpaid := (hburned.trans (payAuthor_numbers h₁)).trans (payStakers_numbers h₂)
  have hsome : (ws.getPost tx.postID).isSome := by rw [hpost]; rfl
  have hpost₂ : (w₂.getPost post.postID).isSome := by
    rw [hk.post _ post hpost]
    exact ((payAuthor_writes h₁).trans (payStakers_writes h₂)).posts_grow tx.postID hsome
  have hsame := hpaid.trans (addBoostStake_numbers h hpost₂)
  refine ⟨hsent.same hk.setAccount hsame, fun p hp => .inl (hsame.posts p hp), fun p hp _ => ?_⟩
  simp only [stakesOn, hc, Option.some.injEq] at hp
  rw [← hp]
  exact hwrites.posts_grow tx.postID hsome

theorem applyUnstakePost_numbers (hk : Keyed ws) (h : applyUnstakePost ar ord ws tx = .ok ws')
    (hc : tx.kind = some .unstakePost) : TxNumbers E ws tx ws' := by
  obtain ⟨sender, hg, stake, -, post, hpost, balance, -, postStakeBalance, -, nonce, hn, total, -, count, -, h⟩ :=
    applyUnstakePost_ok_iff.mp h
  have hsent : Bumped ws tx.sender (ws.setAccount { sender with balance, postStakeBalance, nonce }) :=
    bumped_setAccount hk hg rfl hn
  have hsome : (ws.getPost post.postID).isSome := by rw [hk.post _ post hpost, hpost]; rfl
  obtain ⟨-, ⟨w, new⟩, hloop, rfl⟩ | ⟨-, rfl⟩ := h
  · have hloop := Except.foldlM_inv (fun acc : WorldState × Post =>
        SameNumbers (ws.setAccount { sender with balance, postStakeBalance, nonce }) acc.1 ∧ acc.2.postID = post.postID)
      (fun s _ acc acc' hacc hs => ⟨hacc.1.trans (forceUnstake_numbers hs).1, (forceUnstake_numbers hs).2.trans hacc.2⟩)
      ⟨SameNumbers.refl.removePostStake, rfl⟩ hloop
    have hsame : SameNumbers (ws.setAccount { sender with balance, postStakeBalance, nonce }) (w.setPost new) :=
      hloop.1.setPost (by rw [hloop.2]; exact hsome)
    exact .plain (hsent.same hk.setAccount hsame) hsame.posts (by simp [hc]) (by simp [hc])
  · have hsame : SameNumbers (ws.setAccount { sender with balance, postStakeBalance, nonce })
        (((ws.setAccount { sender with balance, postStakeBalance, nonce }).removePostStake tx.postID tx.sender).setPost
          { post with totalStaked := total, stakerCount := count }) :=
      SameNumbers.refl.removePostStake.setPost hsome
    exact .plain (hsent.same hk.setAccount hsame) hsame.posts (by simp [hc]) (by simp [hc])

theorem executeTransaction_numbers (hk : Keyed ws) (h : executeTransaction E ar params ord header i ws tx = .ok ws') :
    TxNumbers E ws tx ws' := by
  obtain ⟨-, h⟩ := executeTransaction_ok_iff.mp h
  unfold applyTransaction at h
  split at h
  · next hc => exact applyTransfer_numbers hk h hc
  · next hc => exact applyCreatePost_numbers hk h hc
  · next hc => exact applyBoostPost_numbers hk h hc
  · next hc => exact applyUnstakePost_numbers hk h hc
  · next hc => exact applyRegisterName_numbers hk h hc
  · next hc => exact applyStake_numbers hk h hc
  · next hc => exact applyUnstake_numbers hk h hc
  · cases h

/-! ## Runs -/

/-- How many transactions of `a` were applied. -/
def sentIn (a : Address) (log : List Applied) : Nat := (log.filter fun e => e.tx.sender = a).length

theorem sentIn_concat {log : List Applied} {e : Applied} :
    sentIn a (log ++ [e]) = sentIn a log + if a = e.tx.sender then 1 else 0 := by
  simp only [sentIn, List.filter_append, List.length_append, List.filter_cons, List.filter_nil, eq_comm (a := a)]
  split <;> simp_all

theorem sentIn_mono {l log : List Applied} (h : l <+: log) : sentIn a l ≤ sentIn a log :=
  (h.sublist.filter _).length_le

/-- Nonces are counts, a post's ID comes from one, and stakes are on posts. -/
structure Numbered (E : Env) (log : List Applied) (ws : WorldState) : Prop where
  keyed : Keyed ws
  nonce : ∀ a, nonceOf ws a = UInt64.ofNat (sentIn a log)
  posts : ∀ p, (ws.getPost p).isSome →
    ∃ a k, p = derivePostID E a (UInt64.ofNat k) ∧ 1 ≤ k ∧ k ≤ sentIn a log
  stakes : ∀ p a, (ws.getPostStake p a).isSome → (ws.getPost p).isSome

namespace Numbered

variable {log : List Applied}

theorem same (h : Numbered E log ws) (hs : SameNumbers ws ws') (hf : Frame ws ws') (hw : Writes ws ws') :
    Numbered E log ws' where
  keyed := hs.keyed h.keyed
  nonce a := (hs.nonce h.keyed a).trans (h.nonce a)
  posts p hp := h.posts p (hs.posts p hp)
  stakes p a hst := hw.posts_grow p (h.stakes p a (by rwa [hf.getPostStake] at hst))

theorem transaction (h : Numbered E log ws)
    (hs : executeTransaction E ar params ord header i ws tx = .ok ws') : Numbered E (log ++ [⟨ws, tx, ws'⟩]) ws' := by
  have hn := executeTransaction_numbers h.keyed hs
  obtain ⟨acct, hg, hnext⟩ := executeTransaction_sender hs
  have hw := executeTransaction_writes hs
  refine ⟨hw.keyed h.keyed, fun a => ?_, fun p hp => ?_, fun p a hst => ?_⟩
  · rw [hn.bumped a, h.nonce a, sentIn_concat]
    split
    · next ha =>
      rw [UInt64.ofNat_add]
      rfl
    · rw [UInt64.add_zero, Nat.add_zero]
  · rcases hn.posts p hp with hold | ⟨-, hid⟩
    · obtain ⟨a, k, hk, hpos, hle⟩ := h.posts p hold
      exact ⟨a, k, hk, hpos, hle.trans (sentIn_mono (List.prefix_append log _))⟩
    · refine ⟨tx.sender, sentIn tx.sender log + 1, ?_, by omega, ?_⟩
      · rw [hid, h.nonce, UInt64.ofNat_add]
        rfl
      · rw [sentIn_concat, if_pos rfl]
  · rw [executeTransaction_stakes h.keyed hs] at hst
    simp only [holdsAfter, Bool.and_eq_true, Bool.or_eq_true, decide_eq_true_eq] at hst
    rcases hst.2 with hold | ⟨hon, -⟩
    · exact hw.posts_grow p (h.stakes p a hold)
    · exact hn.staked p hon (by rw [hnext, nonceOf_of hg])

/-- The ID of an account's next post is not taken. -/
theorem free (h : Numbered E log ws) (hinj : PostIDsDistinct E) (hfew : sentIn s log + 1 < 2 ^ 64) :
    ws.getPost (derivePostID E s (nonceOf ws s + 1)) = none := by
  by_contra hsome
  rw [← ne_eq, Option.ne_none_iff_isSome] at hsome
  obtain ⟨a, k, hid, hpos, hle⟩ := h.posts _ hsome
  obtain ⟨rfl, hk⟩ := hinj _ _ _ _ hid
  have hnext : nonceOf ws s + 1 = UInt64.ofNat (sentIn s log + 1) := by
    rw [h.nonce, UInt64.ofNat_add]
    rfl
  have hnat := congrArg UInt64.toNat (hnext.symm.trans hk)
  have hk' : k < 2 ^ 64 := by omega
  rw [UInt64.toNat_ofNat_of_lt' hfew, UInt64.toNat_ofNat_of_lt' hk'] at hnat
  omega

end Numbered

/-- The states before the transactions applied are numbered too. -/
def NumberedAlong (E : Env) (log : List Applied) (ws : WorldState) : Prop :=
  Numbered E log ws ∧ ∀ l e, l ++ [e] <+: log →
    Numbered E l e.before ∧ ∃ acct, e.before.getAccount e.tx.sender = some acct ∧ e.tx.nonce = acct.nonce + 1

theorem NumberedAlong.same {log : List Applied} (h : NumberedAlong E log ws) (hs : SameNumbers ws ws')
    (hf : Frame ws ws') (hw : Writes ws ws') : NumberedAlong E log ws' :=
  ⟨h.1.same hs hf hw, h.2⟩

theorem keeps_numbered : Keeps E ar params (NumberedAlong E) where
  release hP h := hP.same (releaseMatured_numbers h) (releaseMatured_frame h) (releaseMatured_writes h)
  slash hP h := hP.same (applySlashEvidence_numbers h) (applySlashEvidence_frame h) (applySlashEvidence_writes h)
  tx := by
    intro log ws tx ws' ord header i hP h
    refine ⟨hP.1.transaction h, fun l e hl => ?_⟩
    rcases List.prefix_concat_iff.mp hl with heq | hl
    · obtain ⟨rfl, he⟩ := List.append_inj' heq rfl
      cases he
      exact ⟨hP.1, executeTransaction_sender h⟩
    · exact hP.2 l e hl
  reward hP h := hP.same (issueReward_numbers h) (issueReward_frame h) (issueReward_writes h)
  epoch hP := hP.same epochTransition_numbers epochTransition_frame epochTransition_writes
  height hP := hP.same (SameNumbers.refl.congr rfl rfl rfl) (Frame.refl.congr rfl rfl rfl) (.other .refl rfl rfl rfl)

/-! ## Genesis -/

theorem initAccounts_nonce {as : List GenesisAccount} {n : Nat} {total : UInt64} (hz : ∀ a, nonceOf ws a = 0)
    (h : initAccounts E n total ws as = .ok ws') : ∀ a, nonceOf ws' a = 0 := by
  induction as generalizing n total ws with
  | nil =>
    cases h
    exact hz
  | cons g as ih =>
    simp only [initAccounts, Except.bind_ok_iff] at h
    obtain ⟨-, -, -, -, h⟩ := h
    refine ih (fun a => ?_) h
    rw [nonceOf_setAccount]
    split
    · rfl
    · exact hz a

theorem initValidator_nonce {v : GenesisValidator} (hz : ∀ a, nonceOf ws a = 0) (h : initValidator ws v = .ok ws') :
    ∀ a, nonceOf ws' a = 0 := by
  unfold initValidator at h
  split at h
  · simp only [Except.bind_ok_iff, Except.pure_ok_iff] at h
    obtain ⟨-, -, rfl⟩ := h
    intro a
    rw [nonceOf_setAccount]
    split
    · cases hg : ws.getAccount v.address with
      | none => rfl
      | some acct => exact (nonceOf_of hg).symm.trans (hz _)
    · exact hz a
  · cases h
    exact hz

theorem initializeState_numbered (h : initializeState E params = .ok ws) : NumberedAlong E [] ws := by
  have hfresh := (initializeState_fresh h).1
  simp only [initializeState, Except.bind_ok_iff, Except.pure_ok_iff] at h
  obtain ⟨w₁, h₁, w₂, h₂, rfl⟩ := h
  have hempty : ∀ a, nonceOf {} a = 0 := fun a => by simp [nonceOf, WorldState.getAccount]
  have hz := Except.foldlM_inv (fun ws => ∀ a, nonceOf ws a = 0) (fun _ _ _ _ hz hs => initValidator_nonce hz hs)
    (initAccounts_nonce hempty h₁) h₂
  have hposts : w₂.posts = ∅ := hfresh.posts
  have hstakes : w₂.postStakes = ∅ := hfresh.postStakes
  refine ⟨⟨hfresh.keyed, hz, fun p hp => ?_, fun p a hst => ?_⟩, fun l e hl => ?_⟩
  · simp [WorldState.getPost, hposts] at hp
  · simp [WorldState.getPostStake, hstakes] at hst
  · simp at hl

/-! ## Replays -/

/-- A nonce is used once, while counts fit in it. -/
theorem nodup_nonces {log : List Applied} (hfew : ∀ a, sentIn a log < 2 ^ 64)
    (h : ∀ l e, l ++ [e] <+: log → e.tx.nonce = UInt64.ofNat (sentIn e.tx.sender l + 1)) :
    (log.map fun e => (e.tx.sender, e.tx.nonce)).Nodup := by
  induction log using List.reverseRecOn with
  | nil => simp
  | append_singleton log e ih =>
    have hlast := h log e List.prefix_rfl
    have hinit := ih (fun a => (sentIn_mono (List.prefix_append log _)).trans_lt (hfew a))
      fun l e' hl => h l e' (hl.trans (List.prefix_append log _))
    rw [List.map_append, List.nodup_append]
    refine ⟨hinit, by simp, ?_⟩
    intro k hk k' hk' heq
    simp only [List.map_cons, List.map_nil, List.mem_singleton] at hk'
    obtain ⟨e', he', rfl⟩ := List.mem_map.mp hk
    obtain ⟨l, l', rfl⟩ := List.append_of_mem he'
    rw [hk', Prod.mk.injEq] at heq
    have hpre : l ++ [e'] <+: l ++ e' :: l' := ⟨l', by simp⟩
    have hfirst := h l e' (hpre.trans (List.prefix_append _ _))
    -- The count before `e'` is below the one before `e`.
    have hle : sentIn e.tx.sender (l ++ [e']) ≤ sentIn e.tx.sender (l ++ e' :: l') := sentIn_mono hpre
    have hbound := hfew e.tx.sender
    rw [sentIn_concat, if_pos heq.1.symm] at hle
    rw [sentIn_concat, if_pos rfl] at hbound
    rw [heq.1, heq.2, hlast] at hfirst
    have hnat := congrArg UInt64.toNat hfirst
    have hbound' : sentIn e.tx.sender l + 1 < 2 ^ 64 := by omega
    rw [UInt64.toNat_ofNat_of_lt' hbound, UInt64.toNat_ofNat_of_lt' hbound'] at hnat
    omega

/-- **Replay protection and post identity**, while no account has applied
`2 ^ 64` transactions: nonces are the counts, none is used twice, and the ID
of a post to be created is not taken. -/
theorem replay_protected (hinj : PostIDsDistinct E) {ws₀ : WorldState} (h₀ : initializeState E params = .ok ws₀)
    {bs : List ((Nat → RangeOrder) × Block)} (hrun : applyBlocks E .go params ws₀ bs = .ok ws)
    (hfew : ∀ a, sentIn a (appliedInRun E .go params ws₀ bs) < 2 ^ 64) :
    (∀ a acct, ws.getAccount a = some acct → acct.nonce.toNat = sentIn a (appliedInRun E .go params ws₀ bs)) ∧
    ((appliedInRun E .go params ws₀ bs).map fun e => (e.tx.sender, e.tx.nonce)).Nodup ∧
    ∀ e ∈ appliedInRun E .go params ws₀ bs, e.tx.kind = some .createPost →
      ∃ acct, e.before.getAccount e.tx.sender = some acct ∧
        e.before.getPost (derivePostID E e.tx.sender (acct.nonce + 1)) = none ∧
        ∀ a, e.before.getPostStake (derivePostID E e.tx.sender (acct.nonce + 1)) a = none := by
  have hall : NumberedAlong E (appliedInRun E .go params ws₀ bs) ws :=
    keeps_numbered.fromStart (initializeState_numbered h₀) hrun
  refine ⟨fun a acct hg => ?_, nodup_nonces hfew fun l e hl => ?_, fun e he _ => ?_⟩
  · rw [← nonceOf_of hg, hall.1.nonce, UInt64.toNat_ofNat_of_lt' (hfew a)]
  · obtain ⟨hn, acct, hg, hnonce⟩ := hall.2 l e hl
    rw [hnonce, ← nonceOf_of hg, hn.nonce, UInt64.ofNat_add]
    rfl
  · obtain ⟨l, l', hlog⟩ := List.append_of_mem he
    have hl : l ++ [e] <+: appliedInRun E .go params ws₀ bs := ⟨l', by simp [hlog]⟩
    obtain ⟨hn, acct, hg, -⟩ := hall.2 l e hl
    have hfree : e.before.getPost (derivePostID E e.tx.sender (acct.nonce + 1)) = none := by
      have hbound := (sentIn_mono hl).trans_lt (hfew e.tx.sender)
      rw [sentIn_concat, if_pos rfl] at hbound
      rw [← nonceOf_of hg]
      exact hn.free hinj hbound
    refine ⟨acct, hg, hfree, fun a => ?_⟩
    cases hst : e.before.getPostStake (derivePostID E e.tx.sender (acct.nonce + 1)) a with
    | none => rfl
    | some s =>
      have hpost := hn.stakes _ a (by rw [hst]; rfl)
      rw [hfree] at hpost
      cases hpost

/-! ## Where a nonce wraps -/

/-- What is applied in a run are the transactions of its blocks. -/
theorem appliedTransactions_map {ord : Nat → RangeOrder} {txs : List Transaction}
    (h : executeTransactions E ar params ord header i ws txs = .ok ws') :
    (appliedTransactions E ar params ord header i ws txs).map (·.tx) = txs := by
  induction txs generalizing i ws with
  | nil => rfl
  | cons tx txs ih =>
    simp only [executeTransactions, Except.bind_ok_iff] at h
    obtain ⟨w, hw, hrest⟩ := h
    simp only [appliedTransactions, hw, List.map_cons, ih hrest]

theorem appliedInRun_map {bs : List ((Nat → RangeOrder) × Block)} (h : applyBlocks E ar params ws bs = .ok ws') :
    (appliedInRun E ar params ws bs).map (·.tx) = bs.flatMap (·.2.transactions) := by
  induction bs generalizing ws with
  | nil => rfl
  | cons b bs ih =>
    obtain ⟨w, hw, hrest⟩ := applyBlocks_cons_ok_iff.mp h
    have hblock := hw
    rw [applyBlock_eq] at hblock
    simp only [Except.bind_ok_iff] at hblock
    obtain ⟨w₁, h₁, w₂, h₂, -⟩ := hblock
    simp only [appliedInRun, hw, appliedInBlock, h₁, List.map_append, appliedTransactions_map h₂, ih hrest,
      List.flatMap_cons]

theorem sentIn_map {log : List Applied} :
    sentIn a log = ((log.map (·.tx)).filter fun tx => tx.sender = a).length := by
  rw [sentIn, List.filter_map, List.length_map]
  rfl

section

open Sample

/-- A transfer of one coin. -/
def transfer (m n : UInt8) (nonce : UInt64) : Transaction :=
  signed m { type := 1, sender := address m, recipient := address n, amount := 1, nonce, pubKey := (key m).publicKey }

theorem verify_sign {k : PrivateKey} {msg : List UInt8} : verify env k.publicKey msg (sign env k msg) = true := by
  simp [verify, sign, env, GoString.length, ByteArr.toGoString]

/-- A transfer is valid where there is a coin. -/
theorem transfer_valid {m n : UInt8} {sender : Account} (hg : ws.getAccount (address m) = some sender)
    (hne : address m ≠ address n) (hz : Address.isZero (address n) = false) (hb : ¬ sender.balance < 1) :
    validateTransaction env (transfer m n (sender.nonce + 1)) ws.reader params = .ok () := by
  have hsig : verify env (transfer m n (sender.nonce + 1)).pubKey (transfer m n (sender.nonce + 1)).signableBytes
      (transfer m n (sender.nonce + 1)).signature = true := verify_sign
  have hcommon : validateCommon env (transfer m n (sender.nonce + 1)) ws.reader = .ok sender := by
    simp only [validateCommon, validateCommonNoBalanceCheck, Except.bind_ok_iff, Except.throwIf_ok_iff,
      Except.orThrow_ok_iff, Except.pure_ok_iff, hsig]
    exact ⟨sender, ⟨(), not_not.mpr rfl, (), by simp, sender, hg, (), not_not.mpr rfl, rfl⟩, (), hb, rfl⟩
  have hkind : (transfer m n (sender.nonce + 1)).kind = some .transfer := rfl
  have hamount : ¬ (transfer m n (sender.nonce + 1)).amount = 0 := (by decide : ¬ (1 : UInt64) = 0)
  simp only [validateTransaction, hkind, validateTransfer, hcommon, Except.bind_ok_iff, Except.throwIf_ok_iff]
  exact ⟨(), hamount, (), hne, (), Bool.eq_false_iff.mp hz, sender, rfl, rfl⟩

/-- A transfer goes through where it is valid. -/
theorem transfer_executes {m n : UInt8} {sender : Account} (hg : ws.getAccount (address m) = some sender)
    (hne : address m ≠ address n) (hz : Address.isZero (address n) = false) (hb : ¬ sender.balance < 1)
    (h : depositAccount .go (ws.setAccount { sender with balance := sender.balance - 1, nonce := sender.nonce + 1 })
      (address n) 1 = .ok ws') :
    executeTransaction env .go params ord header i ws (transfer m n (sender.nonce + 1)) = .ok ws' := by
  have hkind : (transfer m n (sender.nonce + 1)).kind = some .transfer := rfl
  refine executeTransaction_ok_iff.mpr ⟨transfer_valid hg hne hz hb, ?_⟩
  rw [applyTransaction, hkind]
  exact applyTransfer_ok_iff.mpr ⟨sender, hg, hb, _, rfl, _, rfl, h⟩

/-- What is left after a transfer of one coin. -/
def transferred (ws : WorldState) (sender recipient : Account) : WorldState :=
  (ws.setAccount { sender with balance := sender.balance - 1, nonce := sender.nonce + 1 }).setAccount
    { recipient with balance := recipient.balance + 1 }

theorem transfer_transferred (params : GenesisConfig) (ord : RangeOrder) (header : BlockHeader) (i : Nat) {m n : UInt8}
    {sender recipient : Account}
    (hg : ws.getAccount (address m) = some sender) (hg' : ws.getAccount (address n) = some recipient)
    (haddr : sender.address = address m)
    (hne : address m ≠ address n) (hz : Address.isZero (address n) = false) (hb : ¬ sender.balance < 1) :
    executeTransaction env .go params ord header i ws (transfer m n (sender.nonce + 1)) =
      .ok (transferred ws sender recipient) := by
  refine transfer_executes hg hne hz hb ?_
  have hread : (ws.setAccount { sender with balance := sender.balance - 1, nonce := sender.nonce + 1 }).getAccount
      (address n) = some recipient := by
    rw [WorldState.getAccount_setAccount_ne (by rw [haddr]; exact hne.symm), hg']
  simp only [depositAccount, hread, Option.getD_some, Arith.go_add, Except.ok_bind]
  rfl

theorem releaseMatured_nil {height : UInt64} (h : ws.unbondingQueue = []) : releaseMatured ar ws height = .ok ws := by
  obtain ⟨_, _, _, _, _, queue⟩ := ws
  cases h
  rfl

/-- Two accounts and one coin. -/
def duel : GenesisConfig := { accounts := [⟨address 1, 1⟩, ⟨address 2, 0⟩] }

/-- The coin is back where it was, and each account has sent it `n` times. -/
structure Rally (n : UInt64) (ws : WorldState) : Prop where
  first : ws.getAccount (address 1) = some { address := address 1, balance := 1, nonce := n }
  second : ws.getAccount (address 2) = some { address := address 2, nonce := n }
  queue : ws.unbondingQueue = []

theorem Rally.setHeight {n height : UInt64} (h : Rally n ws) : Rally n { ws with chainHeight := height } :=
  ⟨h.first, h.second, h.queue⟩

/-- The coin goes to and fro. -/
def rallyBlock (n : UInt64) : (Nat → RangeOrder) × Block := block n [transfer 1 2 n, transfer 2 1 n]

/-- Another round, where blocks are not rewarded and no epoch ends. -/
theorem rally_block {n : UInt64} (h : Rally n ws) (hnoReward : params.blockReward = 0)
    (hnoEpoch : params.epochLength = 0) :
    ∃ ws', applyBlock env .go params (rallyBlock (n + 1)).1 ws (rallyBlock (n + 1)).2 = .ok ws' ∧ Rally (n + 1) ws' := by
  have h₁₂ : address 1 ≠ address 2 := by decide +kernel
  have hz₁ : Address.isZero (address 1) = false := by decide +kernel
  have hz₂ : Address.isZero (address 2) = false := by decide +kernel
  -- The coin goes to the second account and comes back.
  let w₁ := transferred ws { address := address 1, balance := 1, nonce := n } { address := address 2, nonce := n }
  let w₂ := transferred w₁ { address := address 2, balance := 1, nonce := n }
    { address := address 1, balance := 0, nonce := n + 1 }
  have hfirst := transfer_transferred params order (rallyBlock (n + 1)).2.header 0 h.first h.second rfl h₁₂ hz₂ (by simp)
  have hone : w₁.getAccount (address 1) = some { address := address 1, balance := 0, nonce := n + 1 } := by
    simp [w₁, transferred, WorldState.getAccount_setAccount, h₁₂]
  have htwo : w₁.getAccount (address 2) = some { address := address 2, balance := 1, nonce := n } := by
    simp [w₁, transferred, WorldState.getAccount_setAccount]
  have hsecond := transfer_transferred params order (rallyBlock (n + 1)).2.header 1 htwo hone rfl h₁₂.symm hz₁ (by simp)
  have hexecuted : executeTransactions env .go params (rallyBlock (n + 1)).1 (rallyBlock (n + 1)).2.header 0 ws
      (rallyBlock (n + 1)).2.transactions = .ok w₂ := by
    change executeTransactions env .go params (fun _ => order) _ 0 ws [transfer 1 2 (n + 1), transfer 2 1 (n + 1)] = _
    simp only [executeTransactions, Except.bind_ok_iff, Except.pure_ok_iff]
    exact ⟨w₁, hfirst, w₂, hsecond, rfl⟩
  have hreward : ∀ a, issueReward .go params w₂ a = .ok w₂ := fun a => by
    rw [issueReward, if_neg (by simp [hnoReward])]
    rfl
  have hepoch : ∀ ord height, epochTransition params ord w₂ height = w₂ := fun ord height => by
    rw [epochTransition, if_neg]
    intro hlength
    rw [hnoEpoch] at hlength
    exact absurd hlength.1 (by decide)
  refine ⟨{ w₂ with chainHeight := (rallyBlock (n + 1)).2.header.height }, ?_, Rally.setHeight ⟨?_, ?_, h.queue⟩⟩
  · simp only [applyBlock, Except.bind_ok_iff, Except.pure_ok_iff]
    exact ⟨ws, releaseMatured_nil h.queue, ws, rfl, w₂, hexecuted, w₂, hreward _, by rw [hepoch]⟩
  · simp [w₂, transferred, WorldState.getAccount_setAccount]
  · simp [w₂, transferred, WorldState.getAccount_setAccount, h₁₂.symm]

/-- The first `n` blocks. -/
def rallies : Nat → List ((Nat → RangeOrder) × Block)
  | 0 => []
  | n + 1 => rallies n ++ [rallyBlock (UInt64.ofNat n + 1)]

def duelGenesis : WorldState := (initializeState env duel).value

theorem duelGenesis_ok : initializeState env duel = .ok duelGenesis := Except.ok_value (by decide +kernel)

theorem duelGenesis_rally : Rally 0 duelGenesis := by
  have hstart : duelGenesis.getAccount (address 1) = some { address := address 1, balance := 1 } ∧
      duelGenesis.getAccount (address 2) = some { address := address 2 } ∧ duelGenesis.unbondingQueue = [] := by
    decide +kernel
  exact ⟨hstart.1, hstart.2.1, hstart.2.2⟩

theorem rallies_run (n : Nat) :
    ∃ ws, applyBlocks env .go duel duelGenesis (rallies n) = .ok ws ∧ Rally (UInt64.ofNat n) ws := by
  induction n with
  | zero => exact ⟨duelGenesis, rfl, duelGenesis_rally⟩
  | succ n ih =>
    obtain ⟨ws, hrun, hrally⟩ := ih
    obtain ⟨ws', hblock, hrally'⟩ := @rally_block duel _ _ hrally rfl rfl
    refine ⟨ws', applyBlocks_append_ok_iff.mpr ⟨ws, hrun, hblock⟩, ?_⟩
    rwa [UInt64.ofNat_add]

theorem sentIn_rallies {n : Nat} (h : applyBlocks env .go duel duelGenesis (rallies n) = .ok ws) :
    sentIn (address 1) (appliedInRun env .go duel duelGenesis (rallies n)) = n := by
  have h₁₂ : address 2 ≠ address 1 := by decide +kernel
  rw [sentIn_map, appliedInRun_map h]
  clear h
  induction n with
  | zero => rfl
  | succ n ih =>
    have hblock : ((rallyBlock (UInt64.ofNat n + 1)).2.transactions.filter fun tx => tx.sender = address 1) =
        [transfer 1 2 (UInt64.ofNat n + 1)] := by
      change ([transfer 1 2 _, transfer 2 1 _].filter fun tx => tx.sender = address 1) = _
      rw [List.filter_cons_of_pos (by exact decide_eq_true rfl), List.filter_cons_of_neg, List.filter_nil]
      exact fun hsender => h₁₂ (of_decide_eq_true hsender)
    rw [rallies, List.flatMap_append, List.filter_append, List.length_append, ih, List.flatMap_singleton, hblock]
    rfl

/-- After `2 ^ 64` transactions the nonce is zero again. -/
theorem nonce_wraps : PostIDsDistinct env ∧ initializeState env duel = .ok duelGenesis ∧
    ∃ ws acct, applyBlocks env .go duel duelGenesis (rallies (2 ^ 64)) = .ok ws ∧
      ws.getAccount (address 1) = some acct ∧
      acct.nonce.toNat ≠ sentIn (address 1) (appliedInRun env .go duel duelGenesis (rallies (2 ^ 64))) := by
  obtain ⟨ws, hrun, hrally⟩ := rallies_run (2 ^ 64)
  refine ⟨env_postIDsDistinct, duelGenesis_ok, ws, _, hrun, hrally.first, ?_⟩
  rw [sentIn_rallies hrun]
  simp

/-- A post, two boosts and the author's withdrawal. -/
theorem replay_protected_withdrawal :
    ((appliedInRun env .go config genesis withdrawal).map fun e => (e.tx.sender, e.tx.nonce)).Nodup := by
  obtain ⟨hrun, -⟩ := run_of_isOk withdrawal_isOk
  refine (replay_protected env_postIDsDistinct genesis_ok hrun fun a => ?_).2.1
  rw [sentIn_map, appliedInRun_map hrun]
  exact (List.length_filter_le _ _).trans_lt (by decide)

end

end Drana
