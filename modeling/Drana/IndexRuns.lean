/-
The indexer over runs. The node's JSON view of an UnstakePost leaves the post
out, so the index learns of no stake taken back; where none is, and no post
replaces another, it agrees with the chain after every block.
-/
import Drana.IndexTables
import Mathlib.Data.Prod.Lex
import Mathlib.Data.String.Basic

namespace Drana

variable {E : Env} {ar : Arith} {params : GenesisConfig} {ws ws' : WorldState} {tx : Transaction}
  {ord : RangeOrder} {f : Follower} {db : DB} {rows : RowOrder} {height : UInt64} {time : Int64}

/-! ## What is compared -/

/-- The follower's percentages are those in effect on the chain. -/
structure Follower.SameFees (f : Follower) (params : GenesisConfig) : Prop where
  postFee : f.postFeePercent = if params.postFeePercent = 0 then 6 else params.postFeePercent
  boost : (f.boostBurnPct, f.boostAuthorPct, f.boostStakerPct) = boostPercents params

namespace Follower.SameFees

theorem fee (hf : f.SameFees params) (n : UInt64) : mulDiv n f.postFeePercent 100 = Drana.postFee params n := by
  rw [hf.postFee, Drana.postFee]

theorem burn (hf : f.SameFees params) (n : UInt64) : mulDiv n f.boostBurnPct 100 = burnAmount params n := by
  rw [burnAmount, ← hf.boost]

theorem author (hf : f.SameFees params) (n : UInt64) : mulDiv n f.boostAuthorPct 100 = authorReward params n := by
  rw [authorReward, ← hf.boost]

theorem staker (hf : f.SameFees params) (n : UInt64) : mulDiv n f.boostStakerPct 100 = stakerReward params n := by
  rw [stakerReward, ← hf.boost]

end Follower.SameFees

/-- The stake a boost of `n` leaves. -/
def stakedOf (params : GenesisConfig) (n : UInt64) : UInt64 :=
  n - burnAmount params n - authorReward params n - stakerReward params n

/-- What an amount is divided into. -/
def amountsOf (params : GenesisConfig) (n : UInt64) : List UInt64 :=
  [n, postFee params n, n - postFee params n, burnAmount params n, authorReward params n, stakerReward params n,
    stakedOf params n]

/-- Amounts below `2 ^ 63`: the transaction's, and those of the posts and stakes it finds. -/
structure SmallAmounts (params : GenesisConfig) (e : Applied) : Prop where
  tx : ∀ n ∈ amountsOf params e.tx.amount, n.toNat < 2 ^ 63
  posts : ∀ p post, e.before.getPost p = some post → post.totalStaked.toNat < 2 ^ 63 ∧ post.totalBurned.toNat < 2 ^ 63
  stakes : ∀ p a, heldOn e.before p a < 2 ^ 63

theorem smallAmounts_iff {e : Applied} : SmallAmounts params e ↔
    ((amountsOf params e.tx.amount).all fun n => n.toNat < 2 ^ 63) ∧
    (∀ x ∈ e.before.posts.pairs, x.2.totalStaked.toNat < 2 ^ 63 ∧ x.2.totalBurned.toNat < 2 ^ 63) ∧
    ∀ x ∈ e.before.postStakes.pairs, x.2.amount.toNat < 2 ^ 63 := by
  constructor
  · intro h
    refine ⟨by simpa using h.tx, fun x hx => h.posts x.1 x.2 (GoMap.mem_pairs.mp hx), fun x hx => ?_⟩
    have hheld := h.stakes x.1.1 x.1.2
    rwa [heldOn_of (GoMap.mem_pairs.mp hx)] at hheld
  · intro h
    obtain ⟨htx, hposts, hstakes⟩ := h
    refine ⟨by simpa using htx, fun p post hp => hposts (p, post) (GoMap.mem_pairs.mpr hp), fun p a => ?_⟩
    cases hs : e.before.getPostStake p a with
    | none =>
      rw [heldOn_none hs]
      exact Nat.two_pow_pos 63
    | some s =>
      rw [heldOn_of hs]
      exact hstakes ((p, a), s) (GoMap.mem_pairs.mpr hs)

instance {e : Applied} : Decidable (SmallAmounts params e) := decidable_of_iff _ smallAmounts_iff.symm

/-- What the index can follow: a post under an ID that was free, and nothing
taken back. An UnstakePost by one who is not the author and holds nothing is harmless. -/
def Followable (E : Env) (e : Applied) : Prop :=
  (e.tx.kind = some .createPost → e.before.getPost (derivePostID E e.tx.sender e.tx.nonce) = none) ∧
  (e.tx.kind = some .unstakePost → heldOn e.before e.tx.postID e.tx.sender = 0 ∧
    (e.before.getPost e.tx.postID).all fun post => e.tx.sender ≠ post.author)

instance {e : Applied} : Decidable (Followable E e) := inferInstanceAs (Decidable (_ ∧ _))

/-! ## What the follower is told -/

theorem txToResponse_type {k : TxKind} (hk : tx.kind = some k) : (txToResponse E tx height).type = k.name := by
  have hname : txTypeString tx.type = k.name := by
    rw [txTypeString, show txKind tx.type = some k from hk]
  unfold txToResponse
  simp only [hk]
  cases k <;> exact hname

@[simp] theorem txToResponse_sender : (txToResponse E tx height).sender = addrString tx.sender := by
  unfold txToResponse
  split <;> rfl

@[simp] theorem txToResponse_amount : (txToResponse E tx height).amount = tx.amount := by
  unfold txToResponse
  split <;> rfl

@[simp] theorem txToResponse_nonce : (txToResponse E tx height).nonce = tx.nonce := by
  unfold txToResponse
  split <;> rfl

@[simp] theorem txToResponse_hash : (txToResponse E tx height).hash = hexEncode (tx.hash E).toList := by
  unfold txToResponse
  split <;> rfl

theorem txToResponse_postID (hk : tx.kind = some .boostPost) : (txToResponse E tx height).postID = postKey tx.postID := by
  simp [txToResponse, hk, postKey]

/-- The follower goes by the kind of a transaction. -/
theorem indexTransaction_kind {k : TxKind} (hk : tx.kind = some k) :
    f.indexTransaction E rows height time db (txToResponse E tx height) = match k with
      | .transfer => Follower.indexTransfer db height time (txToResponse E tx height)
      | .createPost => f.indexCreatePost E db height time (txToResponse E tx height)
      | .boostPost => f.indexBoostPost rows db height time (txToResponse E tx height)
      | .unstakePost => Follower.indexUnstakePost rows db (txToResponse E tx height)
      | _ => db := by
  rw [Follower.indexTransaction, txToResponse_type hk]
  cases k <;> simp [TxKind.name]

/-- **An UnstakePost is not indexed**: its response names no post. -/
theorem indexUnstakePost_ignored (hk : tx.kind = some .unstakePost) :
    f.indexTransaction E rows height time db (txToResponse E tx height) = db := by
  rw [indexTransaction_kind hk]
  have hpost : (txToResponse E tx height).postID = "" := by
    unfold txToResponse
    simp only [hk]
  simp only [Follower.indexUnstakePost, hpost, if_pos]

theorem executeTransaction_validate {header : BlockHeader} {i : Nat}
    (h : executeTransaction E ar params ord header i ws tx = .ok ws') : tx.sender.validate E = .ok () := by
  obtain ⟨hv, -⟩ := executeTransaction_ok_iff.mp h
  obtain ⟨acct, hc⟩ := validateTransaction_ok hv
  obtain ⟨hkey, -⟩ := validateCommonNoBalanceCheck_ok hc
  exact hkey ▸ addressFromPublicKey_validate tx.pubKey

theorem findPostID_sender {n : UInt64} {a : Address} (ha : a.validate E = .ok ()) :
    findPostID E (addrString a) n = postKey (derivePostID E a n) := by
  rw [findPostID, addrString, parseAddress_toString ha]
  rfl

/-! ## One transaction -/

theorem createPost_mirrors (hf : f.SameFees params) (hfol : Mirrors db ws) (hk : tx.kind = some .createPost)
    {sender : Account} (hg : ws.getAccount tx.sender = some sender) (hnonce : tx.nonce = sender.nonce + 1)
    (hvalid : tx.sender.validate E = .ok ()) (hheight : height.toNat < 2 ^ 63)
    (hsmall : ∀ n ∈ amountsOf params tx.amount, n.toNat < 2 ^ 63)
    (hfree : ws.getPost (derivePostID E tx.sender tx.nonce) = none)
    (h : applyCreatePost E ar params ws tx height time = .ok ws') :
    Mirrors (f.indexTransaction E rows height time db (txToResponse E tx height)) ws' := by
  have hnone : ws.getPostStake (derivePostID E tx.sender (sender.nonce + 1)) tx.sender = none := by
    refine Option.eq_none_iff_forall_ne_some.mpr fun s hs => ?_
    have hposted := hfol.posted _ _ s hs
    rw [← hnonce, hfree] at hposted
    cases hposted
  obtain ⟨post, hid, -, hfig, hst⟩ := applyCreatePost_staked h hg hnone
  rw [← hnonce] at hid
  simp only [indexTransaction_kind hk, Follower.indexCreatePost, txToResponse_sender, txToResponse_nonce,
    txToResponse_amount, findPostID_sender hvalid, hf.fee, ← hid, if_neg (postKey_ne_empty _)]
  have hheld : heldOn ws post.postID tx.sender = 0 := heldOn_none (by rw [hid, hnonce]; exact hnone)
  have hstaked := hsmall (tx.amount - postFee params tx.amount) (by simp [amountsOf])
  have hburned := hsmall (postFee params tx.amount) (by simp [amountsOf])
  refine hfol.grow hst ?_ (by omega) DB.insertPost_postStakes fun k => ?_
  · simp only [DB.binds_cons]
    exact ⟨hstaked, hheight, rfl⟩
  · rw [DB.figuresOf_insertPost, hfig]
    · rfl
    · simp only [DB.binds_cons]
      exact ⟨hheight, hstaked, hstaked, by decide, by decide, by decide, hburned, rfl⟩
    · have hnew := hfol.figures post.postID
      rw [hid, hfree] at hnew
      simpa [DB.figuresOf, hid] using hnew

theorem boostPost_mirrors (hf : f.SameFees params) (hfol : Mirrors db ws) (hkeyed : Keyed ws)
    (hk : tx.kind = some .boostPost) (hheight : height.toNat < 2 ^ 63)
    (hsmall : ∀ n ∈ amountsOf params tx.amount, n.toNat < 2 ^ 63)
    (hposts : ∀ p post, ws.getPost p = some post → post.totalStaked.toNat < 2 ^ 63 ∧ post.totalBurned.toNat < 2 ^ 63)
    (hheld : ∀ p a, heldOn ws p a < 2 ^ 63)
    (h : applyBoostPost ar params ord ws tx height = .ok ws') :
    Mirrors (f.indexTransaction E rows height time db (txToResponse E tx height)) ws' := by
  obtain ⟨n, post, new, hn, hpost, hid, -, hfig, hst⟩ := applyBoostPost_staked hkeyed h
  simp only [indexTransaction_kind hk, Follower.indexBoostPost, txToResponse_sender, txToResponse_amount,
    txToResponse_postID hk, hf.burn, hf.author, hf.staker, ← hn, ← hid, if_neg (postKey_ne_empty _)]
  have hamount := hsmall tx.amount (by simp [amountsOf])
  have hburned := hsmall (burnAmount params tx.amount) (by simp [amountsOf])
  have hpaid := hsmall (authorReward params tx.amount) (by simp [amountsOf])
  have hshared := hsmall (stakerReward params tx.amount) (by simp [amountsOf])
  have hstaked : n.toNat < 2 ^ 63 := hsmall n (by simp [amountsOf, stakedOf, hn])
  refine hfol.grow hst ?_ (hheld _ _) ?_ fun k => ?_
  · simp only [DB.binds_cons]
    exact ⟨hstaked, hheight, rfl⟩
  · exact (rewardAuthor_same.trans rewardStakers_same).postStakes.trans DB.insertBoost_postStakes
  · rw [rewardStakers_same.figuresOf, rewardAuthor_same.figuresOf, DB.figuresOf_insertBoost]
    · split
      · next hkey =>
        rw [hkey, hid, hfol.figures, hpost, Option.map_some, Option.map_some, hfig, Post.figures]
        obtain ⟨hst', hbt'⟩ := hposts _ _ hpost
        rw [UInt64.toNat_add, UInt64.toNat_add, Nat.mod_eq_of_lt (by omega), Nat.mod_eq_of_lt (by omega)]
      · rfl
    · simp only [DB.binds_cons]
      exact ⟨hamount, hpaid, hshared, hburned, hstaked, hheight, rfl⟩

/-- **One step**: what can be followed is mirrored. -/
theorem executeTransaction_mirrors (hf : f.SameFees params) (hfol : Mirrors db ws) (hkeyed : Keyed ws)
    {header : BlockHeader} {i : Nat} (hheight : header.height.toNat < 2 ^ 63)
    (hsmall : SmallAmounts params ⟨ws, tx, ws'⟩) (hcan : Followable E ⟨ws, tx, ws'⟩)
    (h : executeTransaction E ar params ord header i ws tx = .ok ws') :
    Mirrors (f.indexTransaction E rows header.height header.timestamp db (txToResponse E tx header.height)) ws' := by
  have hvalid := executeTransaction_validate h
  obtain ⟨sender, hg, hnonce⟩ := executeTransaction_sender h
  obtain ⟨-, h⟩ := executeTransaction_ok_iff.mp h
  unfold applyTransaction at h
  split at h
  · next hk =>
    rw [indexTransaction_kind hk]
    have hframe := applyTransfer_frame h
    exact hfol.same DB.insertTransfer_same hframe.posts hframe.postStakes
  · next hk =>
    exact createPost_mirrors hf hfol hk hg hnonce hvalid hheight hsmall.tx (hcan.1 hk) h
  · next hk => exact boostPost_mirrors hf hfol hkeyed hk hheight hsmall.tx hsmall.posts hsmall.stakes h
  · next hk =>
    obtain ⟨hheld, hauthor⟩ := hcan.2 hk
    rw [indexUnstakePost_ignored hk]
    obtain ⟨s, hs, post, hpost⟩ : ∃ s, ws.getPostStake tx.postID tx.sender = some s ∧
        ∃ post, ws.getPost tx.postID = some post := by
      obtain ⟨-, -, s, hs, post, hpost, -⟩ := applyUnstakePost_ok_iff.mp h
      exact ⟨s, hs, post, hpost⟩
    have hzero : s.amount = 0 := by
      rw [heldOn_of hs] at hheld
      exact UInt64.toNat_inj.mp hheld
    have hother : tx.sender ≠ post.author := by
      change (ws.getPost tx.postID).all _ = true at hauthor
      simpa [hpost] using hauthor
    obtain ⟨hfig, hstakes⟩ := applyUnstakePost_nothing hpost hother hs hzero (hkeyed.post _ _ hpost) h
    exact hfol.drop hheld hfig hstakes
  · next hk =>
    rw [indexTransaction_kind hk]
    obtain ⟨sender, -, nonce, -, rfl⟩ := applyRegisterName_ok_iff.mp h
    exact hfol.same .refl rfl rfl
  · next hk =>
    rw [indexTransaction_kind hk]
    have hframe := applyStake_frame h
    exact hfol.same .refl hframe.posts hframe.postStakes
  · next hk =>
    rw [indexTransaction_kind hk]
    have hframe := applyUnstake_frame h
    exact hfol.same .refl hframe.posts hframe.postStakes
  · cases h

/-! ## Runs -/

/-- What is asked of everything a run applies. -/
def AllFollowable (E : Env) (params : GenesisConfig) (log : List Applied) : Prop :=
  ∀ e ∈ log, SmallAmounts params e ∧ Followable E e

theorem executeTransactions_mirrors (hf : f.SameFees params) {header : BlockHeader}
    (hheight : header.height.toNat < 2 ^ 63) {order : Nat → RangeOrder} {rows : Nat → RowOrder}
    {txs : List Transaction} {i : Nat} (hfol : Mirrors db ws) (hkeyed : Keyed ws)
    (hall : AllFollowable E params (appliedTransactions E ar params order header i ws txs))
    (h : executeTransactions E ar params order header i ws txs = .ok ws') :
    Mirrors (f.indexTransactions E rows header.height header.timestamp i db
      (txs.map (txToResponse E · header.height))) ws' := by
  induction txs generalizing i ws db with
  | nil =>
    simp only [executeTransactions, Except.pure_ok_iff] at h
    subst h
    exact hfol
  | cons tx txs ih =>
    simp only [executeTransactions, Except.bind_ok_iff] at h
    obtain ⟨w, hw, hrest⟩ := h
    simp only [AllFollowable, appliedTransactions, hw, List.forall_mem_cons] at hall
    obtain ⟨⟨hsmall, hcan⟩, htail⟩ := hall
    exact ih (executeTransaction_mirrors hf hfol hkeyed hheight hsmall hcan hw)
      ((executeTransaction_writes hw).keyed hkeyed) htail hrest

theorem applyBlock_mirrors (hf : f.SameFees params) {order : Nat → RangeOrder} {block : Block}
    (hheight : block.header.height.toNat < 2 ^ 63) {rows : Nat → RowOrder} (hfol : Mirrors db ws) (hkeyed : Keyed ws)
    (hall : AllFollowable E params (appliedInBlock E ar params order ws block))
    (h : applyBlock E ar params order ws block = .ok ws') :
    Mirrors (f.indexBlock E rows db block.header.height (blockToResponse E block true)) ws' := by
  rw [applyBlock_eq] at h
  simp only [Except.bind_ok_iff, Except.pure_ok_iff] at h
  obtain ⟨w₁, h₁, w₂, h₂, w₃, h₃, rfl⟩ := h
  rw [appliedInBlock, h₁] at hall
  have hstart : Frame ws w₁ := by
    simp only [beforeTransactions, Except.bind_ok_iff] at h₁
    obtain ⟨w, hw, he⟩ := h₁
    exact Except.foldlM_inv (Frame ws) (fun _ _ _ _ hb hs => hb.trans (applySlashEvidence_frame hs))
      (releaseMatured_frame hw) he
  have hkeyed₁ : Keyed w₁ := (@Keeps.before _ _ _ _ [] _ _ keeps_writes _ .refl h₁).keyed hkeyed
  have hdone : Mirrors (f.indexTransactions E rows block.header.height block.header.timestamp 0 db
      (block.transactions.map (txToResponse E · block.header.height))) w₂ :=
    executeTransactions_mirrors hf hheight (hfol.same .refl hstart.posts hstart.postStakes) hkeyed₁ hall h₂
  -- What comes after the transactions leaves the posts alone.
  have hend : Frame w₂ (epochTransition params (order block.transactions.length) w₃ block.header.height) :=
    (issueReward_frame h₃).trans epochTransition_frame
  exact hdone.same ⟨rfl, rfl⟩ hend.posts hend.postStakes

theorem applyBlocks_mirrors (hf : f.SameFees params) {rows : Nat → Nat → RowOrder}
    {bs : List ((Nat → RangeOrder) × Block)} {i : Nat} (hheights : ∀ b ∈ bs, b.2.header.height.toNat < 2 ^ 63)
    (hfol : Mirrors db ws) (hkeyed : Keyed ws) (hall : AllFollowable E params (appliedInRun E ar params ws bs))
    (h : applyBlocks E ar params ws bs = .ok ws') :
    Mirrors (f.indexBlocks E rows i db (bs.map (·.2))) ws' := by
  induction bs generalizing i ws db with
  | nil =>
    simp only [applyBlocks, Except.foldlM_nil_ok_iff] at h
    subst h
    exact hfol
  | cons b bs ih =>
    obtain ⟨w, hw, hrest⟩ := applyBlocks_cons_ok_iff.mp h
    rw [appliedInRun, hw] at hall
    obtain ⟨hb, htail⟩ := List.forall_mem_cons.mp hheights
    exact ih htail (applyBlock_mirrors hf hb hfol hkeyed (fun e he => hall e (List.mem_append_left _ he)) hw)
      ((applyBlock_writes hw).keyed hkeyed) (fun e he => hall e (List.mem_append_right _ he)) hrest

theorem Fresh.mirrors (h : Fresh ws) : Mirrors {} ws where
  figures p := by
    rw [WorldState.getPost, h.posts]
    rfl
  staked p a := by
    rw [heldOn, WorldState.getPostStake, h.postStakes]
    rfl
  stakers p k row hrow := by
    cases hrow
  posted p a s hs := by
    rw [WorldState.getPostStake, h.postStakes] at hs
    cases hs

/-- **The indexer agrees with the chain** as long as no stake is taken back and
no post replaces another: from genesis, whatever the blocks and the orders in
which maps and rows are visited. -/
theorem indexer_agrees (hf : f.SameFees params) {ws₀ : WorldState} (h₀ : initializeState E params = .ok ws₀)
    {bs : List ((Nat → RangeOrder) × Block)} (hrun : applyBlocks E .go params ws₀ bs = .ok ws)
    (hheights : ∀ b ∈ bs, b.2.header.height.toNat < 2 ^ 63)
    (hall : ∀ e ∈ appliedInRun E .go params ws₀ bs, SmallAmounts params e ∧ Followable E e)
    (rows : Nat → Nat → RowOrder) : Agrees (f.indexBlocks E rows 0 {} (bs.map (·.2))) ws := by
  have hfresh := (initializeState_fresh h₀).1
  exact (applyBlocks_mirrors hf hheights hfresh.mirrors hfresh.keyed hall hrun).agrees

section

open Sample

/-- The percentages in effect on the sample chain. -/
def Sample.follower : Follower := ⟨6, 3, 2, 1⟩

theorem follower_sameFees : follower.SameFees config := ⟨by decide, by decide⟩

/-- Rows in ascending order of post and staker. -/
def Sample.rowOrder : RowOrder :=
  have : Std.Total fun k k' : String × String => toLex k ≤ toLex k' := ⟨fun _ _ => le_total _ _⟩
  have : IsTrans (String × String) fun k k' => toLex k ≤ toLex k' := ⟨fun _ _ _ => le_trans⟩
  have : Std.Antisymm fun k k' : String × String => toLex k ≤ toLex k' :=
    ⟨fun _ _ h h' => toLex.injective (le_antisymm h h')⟩
  .sorted fun k k' => toLex k ≤ toLex k'

/-- A post and a boost. -/
def Sample.boosted : List ((Nat → RangeOrder) × Block) :=
  [block 1 [createPost 1 100 1], block 2 [boostPost 2 firstPost 100 1]]

theorem boosted_run : (applyBlocks env .go config genesis boosted).isOk = true ∧
    ∀ e ∈ appliedInRun env .go config genesis boosted, SmallAmounts config e ∧ Followable env e := by decide +kernel

theorem indexer_agrees_boosted :
    Agrees (follower.indexBlocks env (fun _ _ => rowOrder) 0 {} (boosted.map (·.2)))
      (applyBlocks env .go config genesis boosted).value :=
  indexer_agrees follower_sameFees genesis_ok (Except.ok_value boosted_run.1) (by decide) boosted_run.2 _

/-- The author of that post takes it back. -/
def Sample.tookBack : (Nat → RangeOrder) × Block := block 3 [unstakePost 1 firstPost 2]

theorem tookBack_small : (applyBlocks env .go config genesis (boosted ++ [tookBack])).isOk = true ∧
    (∀ e ∈ appliedInRun env .go config genesis (boosted ++ [tookBack]), SmallAmounts config e) ∧
    ((applyBlocks env .go config genesis boosted).value.getPost firstPost).map (·.withdrawn) = some false ∧
    ((applyBlocks env .go config genesis (boosted ++ [tookBack])).value.getPost firstPost).map (·.withdrawn) =
      some true := by decide +kernel

/-- The index still shows the post, with the stakes that went back. -/
theorem withdrawal_not_indexed :
    (applyBlocks env .go config genesis (boosted ++ [tookBack])).isOk = true ∧
    (∀ e ∈ appliedInRun env .go config genesis (boosted ++ [tookBack]), SmallAmounts config e) ∧
    ¬ Agrees (follower.indexBlocks env (fun _ _ => rowOrder) 0 {} ((boosted ++ [tookBack]).map (·.2)))
      (applyBlocks env .go config genesis (boosted ++ [tookBack])).value := by
  obtain ⟨hok, hsmall, hbefore, hafter⟩ := tookBack_small
  refine ⟨hok, hsmall, fun hagree => ?_⟩
  have hfresh := (initializeState_fresh genesis_ok).1
  have hfol : Mirrors (follower.indexBlocks env (fun _ _ => rowOrder) 0 {} (boosted.map (·.2)))
      (applyBlocks env .go config genesis boosted).value :=
    applyBlocks_mirrors follower_sameFees (by decide) hfresh.mirrors hfresh.keyed boosted_run.2
      (Except.ok_value boosted_run.1)
  -- The last block holds the UnstakePost alone.
  have hsame : SameTables (follower.indexBlocks env (fun _ _ => rowOrder) 0 {} (boosted.map (·.2)))
      (follower.indexBlocks env (fun _ _ => rowOrder) 0 {} ((boosted ++ [tookBack]).map (·.2))) := by
    change SameTables _ ((follower.indexTransaction env rowOrder 3 0 _
      (txToResponse env (unstakePost 1 firstPost 2) 3)).setLastIndexedHeight 3)
    rw [indexUnstakePost_ignored rfl]
    exact ⟨rfl, rfl⟩
  have hfig := hagree.figures firstPost
  rw [hsame.figuresOf, hfol.figures] at hfig
  have hflag := congrArg (Option.map (·.2.2)) hfig
  rw [Option.map_map, Option.map_map] at hflag
  have : some false = some true := hbefore.symm.trans (hflag.trans hafter)
  cases this

end

end Drana
