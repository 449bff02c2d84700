/-
What each transaction type does to the holdings of a set of addresses and to
the post stakes, when no sum wraps.
-/
import Drana.Effects

namespace Drana

variable {E : Env} {ar : Arith} {params : GenesisConfig} {S : Address → Bool} {ws ws' : WorldState}
  {a : Address} {n : UInt64} {tx : Transaction} {ord : RangeOrder}

/-! ## Transfers, stakes and names -/

theorem le_of_add (htrap : ar.trapAdd = true) {x y : UInt64} (h : ar.add x n = .ok y) : x.toNat ≤ y.toNat := by
  have := Arith.add_toNat h htrap
  omega

theorem applyTransfer_effect (htrap : ar.trapAdd = true) (hk : Keyed ws) (h : applyTransfer ar ws tx = .ok ws') :
    StakesKept ws ws' ∧ counters ws' = counters ws ∧
      holdings S ws' + within S tx.sender tx.amount.toNat =
        holdings S ws + within S tx.recipient tx.amount.toNat := by
  obtain ⟨sender, hg, hle, b, hb, nonce, hn, hdep⟩ := applyTransfer_ok_iff.mp h
  have haddr := hk.account _ _ hg
  have hb := Arith.sub_toNat hb (le_of_not_lt hle)
  have hdebit : StakesKept ws (ws.setAccount { sender with balance := b, nonce }) :=
    .update hg haddr rfl (le_of_add htrap hn)
  have hlose : holdings S (ws.setAccount { sender with balance := b, nonce }) +
      within S tx.sender tx.amount.toNat = holdings S ws := by
    refine holdings_lose haddr ?_
    rw [valueAt_of hg]
    simp only [Account.value]
    omega
  have hk' := hdebit.keyed hk
  obtain ⟨hkept, hc⟩ := depositAccount_kept hk' hdep
  have hgain := depositAccount_holdings (S := S) htrap hk' hdep
  exact ⟨hdebit.trans hkept, hc, by omega⟩

theorem applyStake_effect (htrap : ar.trapAdd = true) (hk : Keyed ws) (h : applyStake ar ws tx = .ok ws') :
    StakesKept ws ws' ∧ counters ws' = counters ws ∧ holdings S ws' = holdings S ws := by
  obtain ⟨sender, hg, hle, b, hb, st, hst, nonce, hn, rfl⟩ := applyStake_ok_iff.mp h
  have haddr := hk.account _ _ hg
  have hb := Arith.sub_toNat hb (le_of_not_lt hle)
  have hst := Arith.add_toNat hst htrap
  have heq : holdings S (ws.setAccount { sender with balance := b, stakedBalance := st, nonce }) =
      holdings S ws := by
    refine holdings_same haddr ?_
    rw [valueAt_of hg]
    simp only [Account.value]
    omega
  have hset : StakesKept ws (ws.setAccount { sender with balance := b, stakedBalance := st, nonce }) :=
    .update hg haddr rfl (le_of_add htrap hn)
  exact ⟨hset.trans (.of_eq rfl rfl rfl), rfl, heq⟩

/-- What leaves the stake enters the queue. -/
theorem applyUnstake_effect (htrap : ar.trapAdd = true) (hk : Keyed ws) {height : UInt64}
    (h : applyUnstake ar params ws tx height = .ok ws') :
    StakesKept ws ws' ∧ counters ws' = counters ws ∧ holdings S ws' = holdings S ws := by
  obtain ⟨sender, hg, hle, st, hst, nonce, hn, release, -, rfl⟩ := applyUnstake_ok_iff.mp h
  have haddr := hk.account _ _ hg
  have hst := Arith.sub_toNat hst (le_of_not_lt hle)
  have hlose : holdings S (ws.setAccount { sender with stakedBalance := st, nonce }) +
      within S tx.sender tx.amount.toNat = holdings S ws := by
    refine holdings_lose haddr ?_
    rw [valueAt_of hg]
    simp only [Account.value]
    omega
  have hset : StakesKept ws (ws.setAccount { sender with stakedBalance := st, nonce }) :=
    .update hg haddr rfl (le_of_add htrap hn)
  refine ⟨hset.trans (.of_eq rfl rfl rfl), rfl, ?_⟩
  simp only [holdings, WorldState.setAccount_unbondingQueue, WorldState.addUnbondingEntry, queued,
    List.map_append, List.sum_append, List.map_cons, List.map_nil, List.sum_cons, List.sum_nil] at hlose ⊢
  omega

theorem applyRegisterName_effect (htrap : ar.trapAdd = true) (hk : Keyed ws)
    (h : applyRegisterName ar ws tx = .ok ws') :
    StakesKept ws ws' ∧ counters ws' = counters ws ∧ holdings S ws' = holdings S ws := by
  obtain ⟨sender, hg, nonce, hn, rfl⟩ := applyRegisterName_ok_iff.mp h
  have haddr := hk.account _ _ hg
  have heq : holdings S (ws.setAccount { sender with nonce, name := tx.text }) = holdings S ws :=
    holdings_same haddr (valueAt_of hg).symm
  have hset : StakesKept ws (ws.setAccount { sender with nonce, name := tx.text }) :=
    .update hg haddr rfl (le_of_add htrap hn)
  exact ⟨hset.trans (.of_eq rfl rfl rfl), rfl, heq⟩

/-! ## Fees -/

/-- No more than the whole is taken from a post or a boost. -/
structure PercentagesOk (params : GenesisConfig) : Prop where
  post : params.postFeePercent.toNat ≤ 100
  boost : params.boostBurnPercent.toNat + params.boostAuthorPercent.toNat +
    params.boostStakerPercent.toNat ≤ 100

theorem postFee_le (hp : PercentagesOk params) : (postFee params n).toNat ≤ n.toNat := by
  have h : (if params.postFeePercent = 0 then 6 else params.postFeePercent).toNat ≤ 100 := by
    split
    · decide
    · exact hp.post
  rw [postFee, mulDiv_toNat_of_le (by decide) h]
  refine Nat.div_le_of_le_mul ?_
  rw [Nat.mul_comm]
  exact Nat.mul_le_mul_right _ h

/-- The three parts of a boost that are not staked. -/
theorem boostFees_le (hp : PercentagesOk params) :
    (burnAmount params n).toNat + (authorReward params n).toNat + (stakerReward params n).toNat ≤ n.toNat := by
  have hsum : (boostPercents params).1.toNat + (boostPercents params).2.1.toNat +
      (boostPercents params).2.2.toNat ≤ 100 := by
    unfold boostPercents
    split
    · decide
    · exact hp.boost
  have hdiv : ∀ q : UInt64, q.toNat ≤ 100 → 100 * (mulDiv n q 100).toNat ≤ n.toNat * q.toNat := by
    intro q hq
    rw [mulDiv_toNat_of_le (by decide) hq]
    exact Nat.mul_div_le _ _
  have h₁ := hdiv (boostPercents params).1 (by omega)
  have h₂ := hdiv (boostPercents params).2.1 (by omega)
  have h₃ := hdiv (boostPercents params).2.2 (by omega)
  have h₄ := Nat.mul_le_mul_left n.toNat hsum
  simp only [Nat.mul_add] at h₄
  unfold burnAmount authorReward stakerReward
  omega

/-- What is not staked of a transaction's amount is no more than the amount. -/
structure FeesFit (params : GenesisConfig) (tx : Transaction) : Prop where
  post : tx.kind = some .createPost → (postFee params tx.amount).toNat ≤ tx.amount.toNat
  boost : tx.kind = some .boostPost → (burnAmount params tx.amount).toNat + (authorReward params tx.amount).toNat +
    (stakerReward params tx.amount).toNat ≤ tx.amount.toNat

theorem PercentagesOk.feesFit (hp : PercentagesOk params) : FeesFit params tx :=
  ⟨fun _ => postFee_le hp, fun _ => boostFees_le hp⟩

theorem boostStaked_toNat (hle : (burnAmount params n).toNat + (authorReward params n).toNat +
      (stakerReward params n).toNat ≤
    n.toNat) {st : UInt64} (h : boostStaked ar params n = .ok st) :
    st.toNat + (burnAmount params n).toNat + (authorReward params n).toNat +
      (stakerReward params n).toNat = n.toNat := by
  simp only [boostStaked, Except.bind_ok_iff] at h
  obtain ⟨r₁, h₁, r₂, h₂, h₃⟩ := h
  have h₁ := Arith.sub_toNat h₁ (by omega)
  have h₂ := Arith.sub_toNat h₂ (by omega)
  have h₃ := Arith.sub_toNat h₃ (by omega)
  omega

/-- What a post or a boost stakes. -/
def stakedPortion (params : GenesisConfig) (tx : Transaction) : UInt64 :=
  match tx.kind with
  | some .createPost => tx.amount - postFee params tx.amount
  | some .boostPost =>
    tx.amount - burnAmount params tx.amount - authorReward params tx.amount - stakerReward params tx.amount
  | _ => 0

theorem boostStaked_eq {st : UInt64} (h : boostStaked ar params n = .ok st) :
    st = n - burnAmount params n - authorReward params n - stakerReward params n := by
  simp only [boostStaked, Except.bind_ok_iff] at h
  obtain ⟨r₁, h₁, r₂, h₂, h₃⟩ := h
  rw [Arith.sub_ok h₃, Arith.sub_ok h₂, Arith.sub_ok h₁]

/-! ## Posts -/

/-- The fee is burned, the rest staked on a post of the sender's own. -/
structure CreateEffect (E : Env) (params : GenesisConfig) (ws : WorldState) (tx : Transaction) (ws' : WorldState)
    (sender : Account) (post : Post) (s : PostStake) : Prop where
  found : ws.getAccount tx.sender = some sender
  added : StakeAdded (tx.amount - postFee params tx.amount).toNat post s ws ws'
  next : ∃ sender', ws'.getAccount tx.sender = some sender' ∧
    sender'.nonce.toNat = sender.nonce.toNat + 1 ∧ post.postID = derivePostID E tx.sender sender'.nonce
  author : post.author = tx.sender
  total : post.totalStaked = tx.amount - postFee params tx.amount
  count : post.stakerCount = 1
  withdrawn : post.withdrawn = false
  postID : s.postID = post.postID
  staker : s.staker = tx.sender
  amount : s.amount = tx.amount - postFee params tx.amount
  issued : ws'.issuedSupply = ws.issuedSupply
  burned : ws'.burnedSupply.toNat = ws.burnedSupply.toNat + (postFee params tx.amount).toNat
  holdings : ∀ S, holdings S ws' + within S tx.sender (postFee params tx.amount).toNat = holdings S ws

theorem applyCreatePost_effect (htrap : ar.trapAdd = true) (hfee : (postFee params tx.amount).toNat ≤ tx.amount.toNat)
    (hk : Keyed ws) {height : UInt64} {time : Int64} (h : applyCreatePost E ar params ws tx height time = .ok ws') :
    ∃ sender post s, CreateEffect E params ws tx ws' sender post s := by
  obtain ⟨author, hg, hle, staked, hstaked, nonce, hn, balance, hb, psb, hpsb, burned, hburned, rfl⟩ :=
    applyCreatePost_ok_iff.mp h
  have haddr := hk.account _ _ hg
  have hst := Arith.sub_toNat hstaked hfee
  have hb := Arith.sub_toNat hb (le_of_not_lt hle)
  have hpsb := Arith.add_toNat hpsb htrap
  have hstaked := Arith.sub_ok hstaked
  have hlose : ∀ S, holdings S (ws.setAccount { author with balance, postStakeBalance := psb, nonce }) +
      within S tx.sender (postFee params tx.amount).toNat = holdings S ws := by
    intro S
    refine holdings_lose haddr ?_
    rw [valueAt_of hg]
    simp only [Account.value]
    omega
  have hself : (ws.setAccount { author with balance, postStakeBalance := psb, nonce }).getAccount tx.sender =
      some { author with balance, postStakeBalance := psb, nonce } := by
    rw [WorldState.getAccount_setAccount, if_pos haddr.symm]
  exact ⟨author, _, _, {
    found := hg
    added := .of_kept hg haddr (by rw [hpsb, hstaked]) (le_of_add htrap hn) .refl rfl rfl rfl
    next := ⟨_, hself, Arith.add_toNat hn htrap, rfl⟩
    author := rfl
    total := hstaked
    count := rfl
    withdrawn := rfl
    postID := rfl
    staker := rfl
    amount := hstaked
    issued := rfl
    burned := Arith.add_toNat hburned htrap
    holdings := hlose }⟩

/-! ## Boosts -/

theorem creditAccount_effect (htrap : ar.trapAdd = true) (hk : Keyed ws)
    (ha : ∃ acct, ws.getAccount a = some acct) (h : creditAccount ar ws a n = .ok ws') :
    StakesKept ws ws' ∧ counters ws' = counters ws ∧ holdings S ws' = holdings S ws + within S a n.toNat := by
  obtain ⟨acct, hg⟩ := ha
  simp only [creditAccount, hg, Except.bind_ok_iff, Except.pure_ok_iff] at h
  obtain ⟨b, hb, rfl⟩ := h
  have haddr := hk.account _ _ hg
  refine ⟨.update hg haddr rfl (Nat.le_refl _), rfl, holdings_gain haddr ?_⟩
  rw [valueAt_of hg]
  simp only [Account.value, Arith.add_toNat hb htrap]
  omega

theorem payAuthor_effect (htrap : ar.trapAdd = true) (hk : Keyed ws)
    (ha : ∃ acct, ws.getAccount a = some acct) (h : payAuthor ar ws a n = .ok ws') :
    StakesKept ws ws' ∧ counters ws' = counters ws ∧ holdings S ws' = holdings S ws + within S a n.toNat := by
  obtain ⟨-, h⟩ | ⟨rfl, rfl⟩ := payAuthor_ok_iff.mp h
  · exact creditAccount_effect htrap hk ha h
  · exact ⟨.refl, rfl, by simp⟩

theorem payStaker_effect (htrap : ar.trapAdd = true) (hk : Keyed ws) {total : UInt64} {s : PostStake}
    (ha : ∃ acct, ws.getAccount s.staker = some acct) (h : payStaker ar n total ws s = .ok ws') :
    StakesKept ws ws' ∧ counters ws' = counters ws ∧
      holdings S ws' = holdings S ws + within S s.staker (stakerShare n total s).toNat :=
  payAuthor_effect htrap hk ha h

/-- The loop over a post's stakers. -/
theorem payAll (htrap : ar.trapAdd = true) {total : UInt64} {l : List PostStake} (hk : Keyed ws)
    (ha : ∀ s ∈ l, ∃ acct, ws.getAccount s.staker = some acct) (h : l.foldlM (payStaker ar n total) ws = .ok ws') :
    StakesKept ws ws' ∧ counters ws' = counters ws ∧
      holdings S ws' = holdings S ws + (l.map fun s => within S s.staker (stakerShare n total s).toNat).sum := by
  induction l generalizing ws with
  | nil =>
    rw [Except.foldlM_nil_ok_iff] at h
    subst h
    exact ⟨.refl, rfl, rfl⟩
  | cons s l ih =>
    obtain ⟨w, hw, hrest⟩ := Except.foldlM_cons_ok_iff.mp h
    obtain ⟨hkept, hc, heq⟩ := payStaker_effect (S := S) htrap hk (ha s List.mem_cons_self) hw
    have ha' : ∀ s' ∈ l, ∃ acct, w.getAccount s'.staker = some acct := by
      intro s' hs'
      obtain ⟨acct, hacct⟩ := ha s' (List.mem_cons_of_mem s hs')
      obtain ⟨acct', hacct', -⟩ := hkept.kept _ acct hacct
      exact ⟨acct', hacct'⟩
    obtain ⟨hkept', hc', heq'⟩ := ih (hkept.keyed hk) ha' hrest
    refine ⟨hkept.trans hkept', hc'.trans hc, ?_⟩
    rw [heq', heq, List.map_cons, List.sum_cons]
    omega

/-- What a boost of a post pays to those stakers of it that are in the set. -/
def sharesPaid (S : Address → Bool) (ws : WorldState) (p : PostID) (total reward : UInt64) : Nat :=
  if total > 0 then
    ws.postStakes.total fun k s => if k.1 = p then within S k.2 (stakerShare reward total s).toNat else 0
  else 0

theorem sum_getPostStakers {p : PostID} {f : PostStake → Nat} :
    ((ws.getPostStakers ord p).map f).sum =
      ws.postStakes.total fun k s => if k.1 = p then f s else 0 := by
  rw [← MapRange.sum_list (r := ord.postStakes), WorldState.getPostStakers]
  induction ord.postStakes.list ws.postStakes with
  | nil => rfl
  | cons e l ih =>
    simp only [List.filter_cons, List.map_cons, List.sum_cons]
    split
    · next he =>
      have he' : e.1.1 = p := of_decide_eq_true he
      simp only [List.map_cons, List.sum_cons, ih, if_pos he']
    · next he =>
      have he' : e.1.1 ≠ p := fun h => he (decide_eq_true h)
      simp only [ih, if_neg he', Nat.zero_add]

theorem stakerShare_zero {total : UInt64} (ht : total > 0) (s : PostStake) :
    (stakerShare 0 total s).toNat = 0 := by
  rw [gt_iff_lt, UInt64.lt_iff_toNat_lt] at ht
  rw [stakerShare, mulDiv_toNat ht]
  simp

theorem payStakers_effect (htrap : ar.trapAdd = true) (hk : Keyed ws) {post : Post} {p : PostID}
    (hs : ∀ a s, ws.getPostStake p a = some s → ∃ acct, ws.getAccount a = some acct)
    (h : payStakers ar ord ws post p n = .ok ws') :
    StakesKept ws ws' ∧ counters ws' = counters ws ∧
      holdings S ws' = holdings S ws + sharesPaid S ws p post.totalStaked n := by
  unfold payStakers at h
  split at h
  · next hpos =>
    have ha : ∀ s ∈ ws.getPostStakers ord p, ∃ acct, ws.getAccount s.staker = some acct :=
      fun s hm => hs s.staker s (hk.getPostStake_stakers hm)
    obtain ⟨hkept, hc, heq⟩ := payAll (S := S) htrap hk ha h
    refine ⟨hkept, hc, ?_⟩
    rw [heq, sum_getPostStakers, sharesPaid, if_pos hpos.2]
    congr 1
    refine GoMap.total_congr fun k s hks => ?_
    rw [(hk.stake k.1 k.2 s hks).2]
  · next hpos =>
    rw [Except.pure_ok_iff] at h
    subst h
    refine ⟨.refl, rfl, ?_⟩
    unfold sharesPaid
    split
    · next ht =>
      have hn : n = 0 := by
        by_contra hne
        refine hpos ⟨?_, ht⟩
        rw [gt_iff_lt, UInt64.lt_iff_toNat_lt, UInt64.toNat_zero]
        exact Nat.pos_of_ne_zero fun h => hne (UInt64.toNat_inj.mp h)
      rw [GoMap.total_eq_zero, Nat.add_zero]
      intro k s _
      rw [hn, stakerShare_zero ht, within_zero, ite_self]
    · rfl

/-- A boost of the post `old`, which becomes `new`: what is not staked is
burned, paid to the author or due to the stakers, of which `sharesPaid`
arrives. -/
structure BoostEffect (params : GenesisConfig) (ws : WorldState) (tx : Transaction) (ws' : WorldState)
    (old new : Post) (s : PostStake) (staked : UInt64) : Prop where
  found : ws.getPost tx.postID = some old
  portion : staked = tx.amount - burnAmount params tx.amount - authorReward params tx.amount -
    stakerReward params tx.amount
  added : StakeAdded staked.toNat new s ws ws'
  samePost : new.postID = old.postID ∧ new.author = old.author ∧ new.withdrawn = old.withdrawn
  total : new.totalStaked.toNat = old.totalStaked.toNat + staked.toNat
  count : new.stakerCount.toNat =
    old.stakerCount.toNat + if (ws.getPostStake tx.postID tx.sender).isSome then 0 else 1
  stake : s.postID = tx.postID ∧ s.staker = tx.sender
  amount : s.amount.toNat = heldOn ws tx.postID tx.sender + staked.toNat
  issued : ws'.issuedSupply = ws.issuedSupply
  burned : ws'.burnedSupply.toNat = ws.burnedSupply.toNat + (burnAmount params tx.amount).toNat
  holdings : ∀ S, holdings S ws' + within S tx.sender ((burnAmount params tx.amount).toNat +
      (authorReward params tx.amount).toNat + (stakerReward params tx.amount).toNat) =
    holdings S ws + within S old.author (authorReward params tx.amount).toNat +
      sharesPaid S ws tx.postID old.totalStaked (stakerReward params tx.amount)

theorem sharesPaid_congr (h : ws'.postStakes = ws.postStakes) {p : PostID} {total : UInt64} :
    sharesPaid S ws' p total n = sharesPaid S ws p total n := by
  rw [sharesPaid, h, sharesPaid]

/-- The records after a boost. -/
theorem addBoostStake_effect (htrap : ar.trapAdd = true) (hk : Keyed ws) {post : Post} {st height : UInt64}
    (h : addBoostStake ar ws post tx st height = .ok ws') :
    ∃ new s, ws'.accounts = ws.accounts ∧ ws'.unbondingQueue = ws.unbondingQueue ∧ counters ws' = counters ws ∧
      ws'.posts = ws.posts.insert new.postID new ∧
      ws'.postStakes = ws.postStakes.insert (s.postID, s.staker) s ∧
      (new.postID = post.postID ∧ new.author = post.author ∧ new.withdrawn = post.withdrawn) ∧
      new.totalStaked = post.totalStaked ∧
      new.stakerCount.toNat =
        post.stakerCount.toNat + (if (ws.getPostStake tx.postID tx.sender).isSome then 0 else 1) ∧
      (s.postID = tx.postID ∧ s.staker = tx.sender) ∧
      s.amount.toNat = heldOn ws tx.postID tx.sender + st.toNat := by
  obtain ⟨existing, hs, amount, ha, rfl⟩ | ⟨hs, count, hc, rfl⟩ := addBoostStake_ok_iff.mp h
  · refine ⟨post, { existing with amount }, rfl, rfl, rfl, rfl, rfl, ⟨rfl, rfl, rfl⟩, rfl, ?_,
      hk.stake _ _ existing hs, ?_⟩
    · rw [hs]
      simp
    · rw [heldOn_of hs]
      exact Arith.add_toNat ha htrap
  · refine ⟨{ post with stakerCount := count }, ⟨tx.postID, tx.sender, st, height⟩, rfl, rfl, rfl, rfl, rfl,
      ⟨rfl, rfl, rfl⟩, rfl, ?_, ⟨rfl, rfl⟩, ?_⟩
    · rw [hs]
      exact Arith.add_toNat hc htrap
    · rw [heldOn_none hs, Nat.zero_add]

/-- The credits of a boost: the author's, then the stakers'. -/
theorem boostCredits (htrap : ar.trapAdd = true) (hk : Keyed ws) {w : WorldState} {author : Address} {r : UInt64}
    {post : Post} {p : PostID} (ha : ∃ acct, ws.getAccount author = some acct)
    (hs : ∀ a s, ws.getPostStake p a = some s → ∃ acct, ws.getAccount a = some acct)
    (h : payAuthor ar ws author r = .ok w) (h' : payStakers ar ord w post p n = .ok ws') :
    StakesKept ws ws' ∧ counters ws' = counters ws ∧
      holdings S ws' = holdings S ws + within S author r.toNat + sharesPaid S ws p post.totalStaked n := by
  obtain ⟨hkept, hc, heq⟩ := payAuthor_effect (S := S) htrap hk ha h
  have hs' : ∀ a s, w.getPostStake p a = some s → ∃ acct, w.getAccount a = some acct := by
    intro a s hg
    rw [hkept.getPostStake] at hg
    obtain ⟨acct, hacct⟩ := hs a s hg
    obtain ⟨acct', hacct', -⟩ := hkept.kept a acct hacct
    exact ⟨acct', hacct'⟩
  obtain ⟨hkept', hc', heq'⟩ := payStakers_effect (S := S) htrap (hkept.keyed hk) hs' h'
  rw [sharesPaid_congr hkept.postStakes] at heq'
  exact ⟨hkept.trans hkept', hc'.trans hc, by omega⟩

theorem applyBoostPost_effect (htrap : ar.trapAdd = true) (hfees : (burnAmount params tx.amount).toNat +
      (authorReward params tx.amount).toNat + (stakerReward params tx.amount).toNat ≤ tx.amount.toNat) (hb : Books ws)
    {height : UInt64} (h : applyBoostPost ar params ord ws tx height = .ok ws') :
    ∃ old new s staked, BoostEffect params ws tx ws' old new s staked := by
  obtain ⟨booster, hg, hle, old, hpost, staked, hstaked, balance, hbal, psb, hpsb, nonce, hn, burned, hburned, w₁, hw₁,
    w₂, hw₂, total, htotal, burnedOnPost, -, h⟩ := applyBoostPost_ok_iff.mp h
  have haddr := hb.keyed.account _ _ hg
  have hst := boostStaked_toNat hfees hstaked
  have hbal := Arith.sub_toNat hbal (le_of_not_lt hle)
  have hpsb := Arith.add_toNat hpsb htrap
  obtain ⟨booster', hbooster⟩ : ∃ b, b = { booster with balance, postStakeBalance := psb, nonce } := ⟨_, rfl⟩
  rw [← hbooster] at hburned hw₁
  have haddr' : booster'.address = tx.sender := by rw [hbooster, haddr]
  have hlose : ∀ S, holdings S (ws.setAccount booster') +
      within S tx.sender ((burnAmount params tx.amount).toNat + (authorReward params tx.amount).toNat +
        (stakerReward params tx.amount).toNat) = holdings S ws := by
    intro S
    refine holdings_lose haddr' ?_
    rw [valueAt_of hg, hbooster]
    simp only [Account.value]
    omega
  have hexists : ∀ a, (∃ acct, ws.getAccount a = some acct) →
      ∃ acct, (ws.setAccount booster').getAccount a = some acct := by
    rintro a ⟨acct, ha⟩
    rw [WorldState.getAccount_setAccount]
    split
    · exact ⟨_, rfl⟩
    · exact ⟨acct, ha⟩
  -- The debited state, from which the credits go out.
  obtain ⟨w₀, hw₀⟩ : ∃ w, w = { ws.setAccount booster' with burnedSupply := burned } := ⟨_, rfl⟩
  rw [← hw₀] at hw₁
  have hfrom : StakesKept (ws.setAccount booster') w₀ := by
    rw [hw₀]
    exact .of_eq rfl rfl rfl
  have hcredits := fun S => boostCredits (S := S) htrap (hfrom.keyed hb.keyed.setAccount)
    (by rw [hw₀]; exact hexists _ (hb.author _ old hpost))
    (by rw [hw₀]; exact fun a s hs => hexists a (hb.staker _ a s hs)) hw₁ hw₂
  obtain ⟨hkept, hc, -⟩ := hcredits fun _ => true
  have hkept' := hfrom.trans hkept
  obtain ⟨new, s, haccounts, hqueue, hcount, hposts, hstakes, hsame, htot, hcnt, hstake, hamount⟩ :=
    addBoostStake_effect htrap (hkept'.keyed hb.keyed.setAccount) h
  rw [hkept'.getPostStake] at hcnt
  rw [heldOn, hkept'.getPostStake] at hamount
  have hc' := Prod.mk.inj (hcount.trans hc)
  refine ⟨old, new, s, staked, {
    found := hpost
    portion := boostStaked_eq hstaked
    added := .of_kept (hstake.2 ▸ hg) (haddr'.trans hstake.2.symm) (by rw [hbooster]; exact hpsb)
      (by rw [hbooster]; exact le_of_add htrap hn) hkept' haccounts hposts hstakes
    samePost := hsame
    total := by rw [htot]; exact Arith.add_toNat htotal htrap
    count := hcnt
    stake := hstake
    amount := hamount
    issued := by rw [hc'.2, hw₀]; rfl
    burned := by rw [hc'.1, hw₀]; exact Arith.add_toNat hburned htrap
    holdings := fun S => ?_ }⟩
  have heq := (hcredits S).2.2
  have h₀ : holdings S w₀ = holdings S (ws.setAccount booster') := by rw [hw₀]; rfl
  have h₁ : holdings S ws' = holdings S w₂ := by rw [holdings, haccounts, hqueue, holdings]
  have h₂ : sharesPaid S w₀ tx.postID old.totalStaked (stakerReward params tx.amount) =
      sharesPaid S ws tx.postID old.totalStaked (stakerReward params tx.amount) :=
    sharesPaid_congr (by rw [hw₀]; rfl)
  have := hlose S
  omega

/-! ## Withdrawals -/

/-- One record is taken back from the post `old`, which becomes `new`. -/
structure TakenBack (ar : Arith) (ws : WorldState) (old : Post) (a : Address) (ws' : WorldState) (new : Post) :
    Prop where
  unstaked : Unstaked ar old.postID ws ws'
  gone : ws'.getPostStake old.postID a = none
  others : ∀ b, b ≠ a → ws'.getPostStake old.postID b = ws.getPostStake old.postID b
  samePost : new.postID = old.postID ∧ new.author = old.author ∧ new.withdrawn = old.withdrawn
  tallied : Tallied ws old → Tallied ws' new

variable {s : PostStake} {acct : Account} {old : Post}

theorem takenBack (acct' : Account) (hb : Books ws) (hs : ws.getPostStake old.postID a = some s)
    (hg : ws.getAccount a = some acct) (ha : acct'.address = a)
    (hp : acct'.postStakeBalance = acct.postStakeBalance - s.amount)
    (hbal : ar.trapAdd = true → acct'.balance.toNat = acct.balance.toNat + s.amount.toNat)
    (hst : acct'.stakedBalance = acct.stakedBalance)
    (hn : ar.trapAdd = true → acct.nonce.toNat ≤ acct'.nonce.toNat)
    {total count : UInt64} (htotal : ar.sub old.totalStaked s.amount = .ok total)
    (hcount : ar.sub old.stakerCount 1 = .ok count) :
    TakenBack ar ws old a ((ws.setAccount acct').removePostStake old.postID a)
      { old with totalStaked := total, stakerCount := count } where
  unstaked := .one hb hs hg ha hp hbal hst hn
  gone := WorldState.getPostStake_removePostStake_self
  others b hne := WorldState.getPostStake_removePostStake_ne fun h => hne (Prod.mk.inj h).2
  samePost := ⟨rfl, rfl, rfl⟩
  tallied ht := by
    obtain ⟨h₁, h₂, h₃, h₄⟩ := ht.remove hs
    have htotal := Arith.sub_toNat htotal h₁
    have hcount := Arith.sub_toNat hcount h₂
    rw [UInt64.toNat_one] at hcount
    change total.toNat = stakedOn (ws.removePostStake old.postID a) old.postID ∧
      count.toNat = stakersOn (ws.removePostStake old.postID a) old.postID
    omega

/-- What the sender of an UnstakePost takes back. -/
theorem takenBack_sender (hb : Books ws) {sender : Account} (hg : ws.getAccount tx.sender = some sender)
    (hs : ws.getPostStake tx.postID tx.sender = some s) (hpost : ws.getPost tx.postID = some old)
    {balance psb nonce total count : UInt64} (hbal : ar.add sender.balance s.amount = .ok balance)
    (hpsb : ar.sub sender.postStakeBalance s.amount = .ok psb) (hn : ar.add sender.nonce 1 = .ok nonce)
    (htotal : ar.sub old.totalStaked s.amount = .ok total) (hcount : ar.sub old.stakerCount 1 = .ok count) :
    TakenBack ar ws old tx.sender
      ((ws.setAccount { sender with balance, postStakeBalance := psb, nonce }).removePostStake tx.postID tx.sender)
      { old with totalStaked := total, stakerCount := count } := by
  have hid := hb.keyed.post _ _ hpost
  have haddr := hb.keyed.account _ _ hg
  rw [← hid]
  exact takenBack { sender with balance, postStakeBalance := psb, nonce } hb (by rwa [hid]) hg haddr (Arith.sub_ok hpsb)
    (fun ht => Arith.add_toNat hbal ht) rfl (fun ht => le_of_add ht hn) htotal hcount

theorem forceUnstake_effect (hb : Books ws) {p : PostID} {new : Post} (hp : p = old.postID)
    (hs : ws.getPostStake p s.staker = some s)
    (h : forceUnstake ar p (ws, old) s = .ok (ws', new)) : TakenBack ar ws old s.staker ws' new := by
  subst hp
  obtain ⟨w, hw, total, htotal, count, hcount, hnew⟩ := forceUnstake_ok_iff.mp h
  cases hnew
  obtain ⟨acct, hg, balance, hbal, psb, hpsb, rfl⟩ | ⟨hnone, -⟩ := returnStake_ok_iff.mp hw
  · have haddr := hb.keyed.account _ _ hg
    exact takenBack { acct with balance, postStakeBalance := psb } hb hs hg haddr (Arith.sub_ok hpsb)
      (fun ht => Arith.add_toNat hbal ht) rfl (fun _ => Nat.le_refl _) htotal hcount
  · obtain ⟨acct, hg⟩ := hb.staker _ _ _ hs
    cases hg.symm.trans hnone

/-- The records the loop has still to take back are held after an iteration. -/
theorem TakenBack.rest {p : PostID} {l : List PostStake} {new : Post} (h : TakenBack ar ws old s.staker ws' new)
    (hp : p = old.postID) (hl : ∀ t ∈ s :: l, ws.getPostStake p t.staker = some t)
    (hnd : ((s :: l).map (·.staker)).Nodup) :
    (∀ t ∈ l, ws'.getPostStake p t.staker = some t) ∧ (l.map (·.staker)).Nodup := by
  obtain ⟨hnotin, hnd⟩ := List.nodup_cons.mp (List.map_cons ▸ hnd)
  refine ⟨fun t ht => ?_, hnd⟩
  have hne : t.staker ≠ s.staker := fun he => hnotin (he ▸ List.mem_map_of_mem ht)
  rw [hp, h.others _ hne, ← hp]
  exact hl t (List.mem_cons_of_mem s ht)

/-- The author's withdrawal takes back every record it loops over. -/
theorem forceUnstakeAll (old : Post) (hb : Books ws) {p : PostID} {l : List PostStake} {new : Post}
    (hp : p = old.postID)
    (hl : ∀ s ∈ l, ws.getPostStake p s.staker = some s) (hnd : (l.map (·.staker)).Nodup)
    (h : l.foldlM (forceUnstake ar p) (ws, old) = .ok (ws', new)) :
    Unstaked ar p ws ws' ∧ (new.postID = old.postID ∧ new.author = old.author ∧ new.withdrawn = old.withdrawn) ∧
      (∀ s ∈ l, ws'.getPostStake p s.staker = none) ∧ (Tallied ws old → Tallied ws' new) := by
  induction l generalizing ws old with
  | nil =>
    rw [Except.foldlM_nil_ok_iff] at h
    cases h
    exact ⟨.refl, ⟨rfl, rfl, rfl⟩, by simp, id⟩
  | cons s l ih =>
    obtain ⟨⟨w, mid⟩, hw, hrest⟩ := Except.foldlM_cons_ok_iff.mp h
    have hone := forceUnstake_effect hb hp (hl s List.mem_cons_self) hw
    obtain ⟨hl', hnd'⟩ := hone.rest hp hl hnd
    have hun : Unstaked ar p ws w := hp ▸ hone.unstaked
    obtain ⟨hun', hsame, hgone, htally⟩ := ih mid (hb.unstaked hun) (hp.trans hone.samePost.1.symm) hl' hnd' hrest
    refine ⟨hun.trans hun', ?_, ?_, htally ∘ hone.tallied⟩
    · obtain ⟨h₁, h₂, h₃⟩ := hone.samePost
      exact ⟨hsame.1.trans h₁, hsame.2.1.trans h₂, hsame.2.2.trans h₃⟩
    · intro s' hs'
      rcases List.mem_cons.mp hs' with rfl | hs'
      · cases hg : ws'.getPostStake p s'.staker with
        | none => rfl
        | some t =>
          have hgone₁ := hone.gone
          rw [← hp, hun'.fewer _ _ hg] at hgone₁
          cases hgone₁
      · exact hgone s' hs'

/-- The sender's record is taken back; if the sender is the author, so is every
other, and the post is withdrawn. -/
structure UnstakeEffect (ar : Arith) (ws : WorldState) (tx : Transaction) (ws' w : WorldState) (old new : Post) :
    Prop where
  found : ws.getPost tx.postID = some old
  held : ∃ s, ws.getPostStake tx.postID tx.sender = some s
  unstaked : Unstaked ar tx.postID ws w
  result : ws' = w.setPost new
  samePost : new.postID = tx.postID ∧ new.author = old.author
  gone : w.getPostStake tx.postID tx.sender = none
  tallied : Tallied ws old → Tallied w new
  byAuthor : tx.sender = old.author → new.withdrawn = true ∧ ∀ b, w.getPostStake tx.postID b = none
  byOther : tx.sender ≠ old.author → new.withdrawn = old.withdrawn ∧
    ∀ b, b ≠ tx.sender → w.getPostStake tx.postID b = ws.getPostStake tx.postID b

theorem UnstakeEffect.books {w : WorldState} {new : Post} (hb : Books ws)
    (h : UnstakeEffect ar ws tx ws' w old new) : Books ws' := by
  have hw := hb.unstaked h.unstaked
  have hkeyed : Keyed (w.setPost new) := hw.keyed.setPost
  rw [h.result]
  refine ⟨hkeyed, fun q post hq => ?_, hw.staker, hw.held⟩
  have hauthor : ∃ acct, w.getAccount old.author = some acct := by
    refine hw.author tx.postID old ?_
    rw [WorldState.getPost, h.unstaked.posts]
    exact h.found
  by_cases hqp : q = new.postID
  · subst hqp
    rw [WorldState.getPost_setPost_self] at hq
    cases hq
    rw [h.samePost.2]
    exact hauthor
  · rw [WorldState.getPost_setPost_ne hqp] at hq
    exact hw.author q post hq

theorem applyUnstakePost_effect (hb : Books ws) (h : applyUnstakePost ar ord ws tx = .ok ws') :
    ∃ w old new, UnstakeEffect ar ws tx ws' w old new := by
  obtain ⟨sender, hg, s, hs, old, hpost, balance, hbal, psb, hpsb, nonce, hn, total, htotal, count, hcount, h⟩ :=
    applyUnstakePost_ok_iff.mp h
  have hid := hb.keyed.post _ _ hpost
  obtain ⟨sender', hsender⟩ : ∃ x, x = { sender with balance, postStakeBalance := psb, nonce } := ⟨_, rfl⟩
  obtain ⟨w₁, hw₁⟩ : ∃ w, w = (ws.setAccount sender').removePostStake tx.postID tx.sender := ⟨_, rfl⟩
  have hone : TakenBack ar ws old tx.sender w₁ { old with totalStaked := total, stakerCount := count } := by
    rw [hw₁, hsender]
    exact takenBack_sender hb hg hs hpost hbal hpsb hn htotal hcount
  rw [← hsender, ← hw₁] at h
  have hun : Unstaked ar tx.postID ws w₁ := hid ▸ hone.unstaked
  have hgone : w₁.getPostStake tx.postID tx.sender = none := hid ▸ hone.gone
  obtain ⟨hauthor, ⟨w, new⟩, hloop, rfl⟩ | ⟨hother, rfl⟩ := h
  · have hk := hun.keyed hb.keyed
    obtain ⟨hun', hsame, hall, htally⟩ := forceUnstakeAll
      { old with totalStaked := total, stakerCount := count, withdrawn := true }
      (hb.unstaked hun) hid.symm (fun s => hk.getPostStake_stakers) hk.nodup_stakers hloop
    have hnone : ∀ b, w.getPostStake tx.postID b = none := by
      intro b
      cases hgb : w.getPostStake tx.postID b with
      | none => rfl
      | some t =>
        have hgb₁ := hun'.fewer _ _ hgb
        have hb' := hall t (WorldState.mem_getPostStakers.mpr ⟨b, hgb₁⟩)
        rw [(hk.stake _ _ _ hgb₁).2, hgb] at hb'
        cases hb'
    exact ⟨w, old, new, {
      found := hpost
      held := ⟨s, hs⟩
      unstaked := hun.trans hun'
      result := rfl
      samePost := ⟨hsame.1.trans hid, hsame.2.1⟩
      gone := hnone tx.sender
      tallied := fun ht => htally (hone.tallied ht)
      byAuthor := fun _ => ⟨hsame.2.2, hnone⟩
      byOther := fun hne => absurd hauthor hne }⟩
  · exact ⟨w₁, old, { old with totalStaked := total, stakerCount := count }, {
      found := hpost
      held := ⟨s, hs⟩
      unstaked := hun
      result := rfl
      samePost := ⟨hid, rfl⟩
      gone := hgone
      tallied := hone.tallied
      byAuthor := fun he => absurd he hother
      byOther := fun _ => ⟨rfl, fun b hne => hid ▸ hone.others b hne⟩ }⟩

/-! ## All types -/

/-- What a transaction does, by its type. -/
inductive TxEffect (E : Env) (ar : Arith) (params : GenesisConfig) (ws : WorldState) (tx : Transaction)
    (ws' : WorldState) : Prop
  | plain (moved : Nat)
      (kind : tx.kind ≠ some .createPost ∧ tx.kind ≠ some .boostPost ∧ tx.kind ≠ some .unstakePost)
      (kept : StakesKept ws ws') (counters : counters ws' = counters ws)
      (holdings : ∀ S, holdings S ws' + within S tx.sender moved = holdings S ws + within S tx.recipient moved)
  | create (sender : Account) (post : Post) (s : PostStake) (kind : tx.kind = some .createPost)
      (effect : CreateEffect E params ws tx ws' sender post s)
  | boost (old new : Post) (s : PostStake) (staked : UInt64) (kind : tx.kind = some .boostPost)
      (effect : BoostEffect params ws tx ws' old new s staked)
  | unstake (w : WorldState) (old new : Post) (kind : tx.kind = some .unstakePost)
      (effect : UnstakeEffect ar ws tx ws' w old new)

theorem applyTransaction_effect (htrap : ar.trapAdd = true) (hf : FeesFit params tx) (hb : Books ws)
    {height : UInt64} {time : Int64} (h : applyTransaction E ar params ord ws tx height time = .ok ws') :
    TxEffect E ar params ws tx ws' := by
  have hunmoved : ∀ {w}, (∀ S, holdings S w = holdings S ws) →
      ∀ S, holdings S w + within S tx.sender 0 = holdings S ws + within S tx.recipient 0 := by
    intro w heq S
    rw [heq, within_zero, within_zero]
  unfold applyTransaction at h
  split at h
  · next hkind =>
    have heff := fun S => applyTransfer_effect (S := S) htrap hb.keyed h
    exact .plain _ (by simp [hkind]) (heff fun _ => true).1 (heff fun _ => true).2.1 fun S => (heff S).2.2
  · next hkind =>
    obtain ⟨sender, post, s, heff⟩ := applyCreatePost_effect htrap (hf.post hkind) hb.keyed h
    exact .create sender post s hkind heff
  · next hkind =>
    obtain ⟨old, new, s, staked, heff⟩ := applyBoostPost_effect htrap (hf.boost hkind) hb h
    exact .boost old new s staked hkind heff
  · next hkind =>
    obtain ⟨w, old, new, heff⟩ := applyUnstakePost_effect hb h
    exact .unstake w old new hkind heff
  · next hkind =>
    have heff := fun S => applyRegisterName_effect (S := S) htrap hb.keyed h
    exact .plain 0 (by simp [hkind]) (heff fun _ => true).1 (heff fun _ => true).2.1
      (hunmoved fun S => (heff S).2.2)
  · next hkind =>
    have heff := fun S => applyStake_effect (S := S) htrap hb.keyed h
    exact .plain 0 (by simp [hkind]) (heff fun _ => true).1 (heff fun _ => true).2.1
      (hunmoved fun S => (heff S).2.2)
  · next hkind =>
    have heff := fun S => applyUnstake_effect (S := S) htrap hb.keyed h
    exact .plain 0 (by simp [hkind]) (heff fun _ => true).1 (heff fun _ => true).2.1
      (hunmoved fun S => (heff S).2.2)
  · cases h

theorem TxEffect.books (hb : Books ws) (h : TxEffect E ar params ws tx ws') : Books ws' := by
  cases h with
  | plain _ _ kept => exact hb.kept kept
  | create sender post s kind effect =>
    refine hb.stakeAdded effect.added ?_ ⟨sender, effect.author ▸ effect.found⟩
    rw [effect.amount]
    omega
  | boost old new s staked kind effect =>
    refine hb.stakeAdded effect.added ?_ ?_
    · rw [effect.amount, effect.stake.1, effect.stake.2]
    · rw [effect.samePost.2.1]
      exact hb.author _ old effect.found
  | unstake w old new kind effect => exact effect.books hb

theorem FeesFit.effect (hf : FeesFit params tx) (htrap : ar.trapAdd = true) (hb : Books ws)
    {header : BlockHeader} {i : Nat} (h : executeTransaction E ar params ord header i ws tx = .ok ws') :
    TxEffect E ar params ws tx ws' := by
  obtain ⟨-, h⟩ := executeTransaction_ok_iff.mp h
  exact applyTransaction_effect htrap hf hb h

theorem executeTransaction_effect (htrap : ar.trapAdd = true) (hp : PercentagesOk params) (hb : Books ws)
    {header : BlockHeader} {i : Nat} (h : executeTransaction E ar params ord header i ws tx = .ok ws') :
    TxEffect E ar params ws tx ws' := hp.feesFit.effect htrap hb h

end Drana
