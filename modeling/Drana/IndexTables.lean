/-
The indexer against the chain: what each transaction does to the figures of the
posts and to their stakes, in the tables and in the world state.
-/
import Drana.Indexer

namespace Drana

variable {E : Env} {ar : Arith} {params : GenesisConfig} {ws ws' : WorldState} {tx : Transaction}
  {ord : RangeOrder} {f : Follower} {db db' : DB} {k k' s s' : String}

/-! ## What is compared -/

/-- Total staked, total burned, withdrawn. -/
abbrev Figures := Nat × Nat × Bool

def PostRow.figures (row : PostRow) : Figures := (row.totalStaked, row.totalBurned, row.withdrawn)

def Post.figures (post : Post) : Figures := (post.totalStaked.toNat, post.totalBurned.toNat, post.withdrawn)

/-- A post's key in the tables. -/
def postKey (p : PostID) : String := hexEncode p.toList

namespace DB

/-- The indexed figures of a post. -/
def figuresOf (db : DB) (k : String) : Option Figures := (db.getPost k).map PostRow.figures

/-- The indexed stake of `s`; zero without a row. -/
def staked (db : DB) (k s : String) : Nat := (db.postStakes.lookup (k, s)).elim 0 (·.amount)

/-- The rows of a post that hold something. -/
def stakeRows (db : DB) (k : String) : Set (String × Nat) :=
  {x | x.2 ≠ 0 ∧ ∃ row, db.postStakes.lookup (k, x.1) = some row ∧ row.amount = x.2}

end DB

/-- The stake records of a post that hold something. -/
def stakeRecords (ws : WorldState) (p : PostID) : Set (String × Nat) :=
  {x | x.2 ≠ 0 ∧ ∃ a s, ws.getPostStake p a = some s ∧ addrString a = x.1 ∧ s.amount.toNat = x.2}

/-- The index says of every post what the chain says. -/
structure Agrees (db : DB) (ws : WorldState) : Prop where
  figures : ∀ p, db.figuresOf (postKey p) = (ws.getPost p).map Post.figures
  stakes : ∀ p, db.stakeRows (postKey p) = stakeRecords ws p

theorem postKey_inj {p q : PostID} (h : postKey p = postKey q) : p = q :=
  ByteArr.toList_inj (hexEncode_injective h)

theorem addrString_inj {a b : Address} (h : addrString a = addrString b) : a = b := by
  have h : addressPrefix ++ hexEncode a.toList = addressPrefix ++ hexEncode b.toList := h
  have hchars := congrArg String.toList h
  rw [String.toList_append, String.toList_append, List.append_cancel_left_eq, String.toList_inj] at hchars
  exact ByteArr.toList_inj (hexEncode_injective hchars)

theorem postKey_ne_empty (p : PostID) : postKey p ≠ "" := hexEncode_ne_empty (by decide)

/-! ## The tables -/

/-- Posts and stakes are as they were. -/
structure SameTables (db db' : DB) : Prop where
  posts : db'.posts = db.posts
  postStakes : db'.postStakes = db.postStakes

namespace SameTables

protected theorem refl : SameTables db db := ⟨rfl, rfl⟩

theorem trans {db₁ : DB} (h : SameTables db db₁) (h' : SameTables db₁ db') : SameTables db db' :=
  ⟨h'.posts.trans h.posts, h'.postStakes.trans h.postStakes⟩

theorem figuresOf (h : SameTables db db') : db'.figuresOf k = db.figuresOf k := by
  rw [DB.figuresOf, DB.getPost, h.posts, DB.figuresOf, DB.getPost]

theorem staked (h : SameTables db db') : db'.staked k s = db.staked k s := by
  rw [DB.staked, h.postStakes, DB.staked]

end SameTables

namespace DB

theorem binds_cons {n : UInt64} {args : List UInt64} :
    binds (n :: args) = true ↔ n.toNat < 2 ^ 63 ∧ binds args = true := by
  simp only [binds, List.all_cons, Bool.and_eq_true, decide_eq_true_eq]

theorem insertTransfer_same {t : IndexedTransfer} : SameTables db (db.insertTransfer t) := by
  unfold insertTransfer
  split
  · split <;> exact ⟨rfl, rfl⟩
  · exact .refl

theorem insertRewardEvent_same {e : RewardEvent} : SameTables db (db.insertRewardEvent e) := by
  unfold insertRewardEvent
  split <;> exact ⟨rfl, rfl⟩

theorem updatePost_postStakes {set : PostRow → PostRow} : (db.updatePost k set).postStakes = db.postStakes := by
  unfold updatePost
  split <;> rfl

theorem getPost_updatePost {set : PostRow → PostRow} :
    (db.updatePost k set).getPost k' = if k' = k then (db.getPost k).map set else db.getPost k' := by
  unfold updatePost
  split
  · next row hrow =>
    by_cases hk : k' = k
    · subst hk
      rw [if_pos rfl, hrow]
      exact Finmap.lookup_insert _
    · rw [if_neg hk]
      exact Finmap.lookup_insert_of_ne _ hk
  · next hrow =>
    by_cases hk : k' = k
    · simp [hk, hrow]
    · simp [hk]

/-- A count that is not compared. -/
theorem figuresOf_updatePost_same {set : PostRow → PostRow} (hset : ∀ row, (set row).figures = row.figures) :
    (db.updatePost k set).figuresOf k' = db.figuresOf k' := by
  rw [figuresOf, getPost_updatePost]
  split
  · next hk =>
    rw [hk, figuresOf, Option.map_map]
    exact congrArg (Option.map · _) (funext hset)
  · rfl

theorem insertPost_postStakes {p : IndexedPost} : (db.insertPost p).postStakes = db.postStakes := by
  unfold insertPost
  split
  · split <;> split <;> simp [updatePost_postStakes]
  · rfl

theorem figuresOf_insertPost {p : IndexedPost}
    (hb : binds [p.createdAtHeight, p.totalStaked, p.authorStaked, p.thirdPartyStaked, p.stakerCount,
      p.lastBoostAtHeight, p.totalBurned] = true) (hnew : db.getPost p.postID = none) :
    (db.insertPost p).figuresOf k = if k = p.postID then some p.row.figures else db.figuresOf k := by
  have hmem : p.postID ∉ db.posts := by
    rw [← Finmap.lookup_isSome]
    simpa [getPost] using hnew
  have hins : (DB.figuresOf { db with posts := db.posts.insert p.postID p.row } k) =
      if k = p.postID then some p.row.figures else db.figuresOf k := by
    by_cases hk : k = p.postID
    · subst hk
      simp [figuresOf, getPost]
    · simp [figuresOf, getPost, hk, Finmap.lookup_insert_of_ne]
  simp only [insertPost, hb, if_pos, if_neg hmem]
  split
  · refine (figuresOf_updatePost_same ?_).trans hins
    intro row
    rfl
  · exact hins

theorem insertBoost_postStakes {b : IndexedBoost} : (db.insertBoost b s).postStakes = db.postStakes := by
  unfold insertBoost
  split
  · rw [updatePost_postStakes, updatePost_postStakes]
    split <;> rfl
  · rfl

theorem figuresOf_insertBoost {b : IndexedBoost}
    (hb : binds [b.amount, b.authorReward, b.stakerReward, b.burnAmount, b.stakedAmount, b.blockHeight] = true) :
    (db.insertBoost b s).figuresOf k = if k = b.postID then
      (db.figuresOf k).map fun x => (x.1 + b.stakedAmount.toNat, x.2.1 + b.burnAmount.toNat, x.2.2)
    else db.figuresOf k := by
  simp only [insertBoost, hb, if_pos]
  rw [figuresOf_updatePost_same (by intro row; rfl), figuresOf, getPost_updatePost]
  have hpost : ∀ id, (if b.txHash ∈ db.boosts then db else { db with boosts := db.boosts.insert b.txHash b }).getPost id =
      db.getPost id := by
    intro id
    split <;> rfl
  rw [hpost, hpost]
  split
  · next hk =>
    rw [hk, figuresOf, Option.map_map, Option.map_map]
    -- Both branches of the UPDATE move the same two sums.
    refine congrArg (Option.map · _) (funext fun row => ?_)
    simp only [Function.comp_apply]
    split <;> rfl
  · rfl

theorem upsertPostStake_posts {n h : UInt64} : (db.upsertPostStake k s n h).posts = db.posts := by
  unfold upsertPostStake
  split <;> rfl

theorem staked_upsertPostStake {n h : UInt64} (hb : binds [n, h] = true) :
    (db.upsertPostStake k s n h).staked k' s' = db.staked k' s' + if (k', s') = (k, s) then n.toNat else 0 := by
  simp only [upsertPostStake, hb, if_pos, staked]
  split
  · next hk =>
    rw [hk, Finmap.lookup_insert, Option.elim_some]
  · next hk =>
    rw [Finmap.lookup_insert_of_ne _ hk, Nat.add_zero]

/-- A row comes from where it was or is the sender's. -/
theorem lookup_upsertPostStake {n h : UInt64} {row : PostStakeRecord}
    (hrow : (db.upsertPostStake k s n h).postStakes.lookup (k', s') = some row) :
    (k', s') = (k, s) ∨ ∃ old, db.postStakes.lookup (k', s') = some old := by
  by_cases hk : (k', s') = (k, s)
  · exact .inl hk
  · unfold upsertPostStake at hrow
    split at hrow
    · exact .inr ⟨row, by rwa [Finmap.lookup_insert_of_ne _ hk] at hrow⟩
    · exact .inr ⟨row, hrow⟩

end DB

theorem rewardAuthor_same {height : UInt64} {time : Int64} {r : TransactionResponse} {author : String} {n : UInt64} :
    SameTables db (Follower.rewardAuthor db height time r author n) := by
  unfold Follower.rewardAuthor
  split
  · exact DB.insertRewardEvent_same
  · exact .refl

theorem rewardStakers_same {rows : RowOrder} {height : UInt64} {time : Int64} {r : TransactionResponse}
    {post : Option PostRow} {n : UInt64} : SameTables db (Follower.rewardStakers rows db height time r post n) := by
  have hone : ∀ (total : UInt64) (db : DB) (e : String × PostStakeRecord),
      SameTables db (Follower.rewardStaker height time r n total db e) := by
    intro total db e
    unfold Follower.rewardStaker
    simp only
    split
    · exact DB.insertRewardEvent_same
    · exact .refl
  have hall : ∀ (total : UInt64) (l : List (String × PostStakeRecord)) (db : DB),
      SameTables db (l.foldl (Follower.rewardStaker height time r n total) db) := by
    intro total l
    induction l with
    | nil => exact fun db => .refl
    | cons e l ih => exact fun db => (hone total db e).trans (ih _)
  unfold Follower.rewardStakers
  simp only
  split
  · split
    · exact hall _ _ db
    · exact .refl
  · exact .refl

/-! ## The world state -/

/-- A post is written, and the stake of `a` on it grows. -/
structure Staked (ws : WorldState) (post : Post) (a : Address) (n : UInt64) (ws' : WorldState) : Prop where
  getPost : ∀ p, ws'.getPost p = if p = post.postID then some post else ws.getPost p
  amount : ∃ s, ws'.getPostStake post.postID a = some s ∧
    s.amount = (ws.getPostStake post.postID a).elim 0 (·.amount) + n
  other : ∀ p b, (p, b) ≠ (post.postID, a) → ws'.getPostStake p b = ws.getPostStake p b

theorem getPost_setPost_ite {post : Post} {p : PostID} :
    (ws.setPost post).getPost p = if p = post.postID then some post else ws.getPost p := by
  by_cases hp : p = post.postID
  · rw [hp, WorldState.getPost_setPost_self, if_pos rfl]
  · rw [WorldState.getPost_setPost_ne hp, if_neg hp]

theorem applyCreatePost_staked {height : UInt64} {time : Int64} {sender : Account}
    (h : applyCreatePost E ar params ws tx height time = .ok ws') (hg : ws.getAccount tx.sender = some sender)
    (hnone : ws.getPostStake (derivePostID E tx.sender (sender.nonce + 1)) tx.sender = none) :
    ∃ post, post.postID = derivePostID E tx.sender (sender.nonce + 1) ∧ post.author = tx.sender ∧
      post.figures = ((tx.amount - postFee params tx.amount).toNat, (postFee params tx.amount).toNat, false) ∧
      Staked ws post tx.sender (tx.amount - postFee params tx.amount) ws' := by
  obtain ⟨_, hacct, -, staked, hs, nonce, hn, balance, -, psb, -, burned, -, rfl⟩ := applyCreatePost_ok_iff.mp h
  cases hg.symm.trans hacct
  cases Arith.add_ok hn
  cases Arith.sub_ok hs
  let post : Post :=
    { postID := derivePostID E tx.sender (sender.nonce + 1), author := tx.sender, text := tx.text
      channel := tx.channel, parentPostID := tx.postID, createdAtHeight := height, createdAtTime := time
      totalStaked := tx.amount - postFee params tx.amount, totalBurned := postFee params tx.amount, stakerCount := 1 }
  refine ⟨post, rfl, rfl, rfl, ?_, ?_, ?_⟩
  · intro p
    exact getPost_setPost_ite
  · refine ⟨_, WorldState.getPostStake_setPostStake_self, ?_⟩
    change _ = (ws.getPostStake (derivePostID E tx.sender (sender.nonce + 1)) tx.sender).elim 0 _ + _
    rw [hnone, Option.elim_none, UInt64.zero_add]
  · intro p b hne
    exact WorldState.getPostStake_setPostStake_ne hne

theorem addBoostStake_staked (hk : Keyed ws) {post : Post} {n height : UInt64} (hid : post.postID = tx.postID)
    (h : addBoostStake ar ws post tx n height = .ok ws') :
    ∃ new, new.postID = tx.postID ∧ new.author = post.author ∧ new.figures = post.figures ∧
      Staked ws new tx.sender n ws' := by
  obtain ⟨existing, hg, amount, ha, rfl⟩ | ⟨hg, count, -, rfl⟩ := addBoostStake_ok_iff.mp h
  · obtain ⟨hp, hs⟩ := hk.stake _ _ _ hg
    have hkey : (tx.postID, tx.sender) = (existing.postID, existing.staker) := by rw [hp, hs]
    refine ⟨post, hid, rfl, rfl, fun p => getPost_setPost_ite, ⟨{ existing with amount }, ?_, ?_⟩, ?_⟩
    · rw [WorldState.getPostStake_setPost, hid, ← hp, ← hs]
      exact @WorldState.getPostStake_setPostStake_self ws { existing with amount }
    · rw [hid, hg]
      exact Arith.add_ok ha
    · intro p b hne
      rw [hid, hkey] at hne
      exact WorldState.getPostStake_setPostStake_ne hne
  · refine ⟨{ post with stakerCount := count }, hid, rfl, rfl, fun p => getPost_setPost_ite,
      ⟨⟨tx.postID, tx.sender, n, height⟩, ?_, ?_⟩, ?_⟩
    · rw [WorldState.getPostStake_setPost]
      change WorldState.getPostStake _ post.postID _ = _
      rw [hid]
      exact WorldState.getPostStake_setPostStake_self
    · change n = (ws.getPostStake post.postID _).elim 0 _ + n
      rw [hid, hg]
      simp
    · intro p b hne
      change (p, b) ≠ (post.postID, tx.sender) at hne
      rw [hid] at hne
      exact WorldState.getPostStake_setPostStake_ne hne

theorem applyBoostPost_staked (hk : Keyed ws) {height : UInt64}
    (h : applyBoostPost ar params ord ws tx height = .ok ws') :
    ∃ n post new, n = tx.amount - burnAmount params tx.amount - authorReward params tx.amount -
        stakerReward params tx.amount ∧
      ws.getPost tx.postID = some post ∧ new.postID = tx.postID ∧ new.author = post.author ∧
      new.figures = ((post.totalStaked + n).toNat, (post.totalBurned + burnAmount params tx.amount).toNat,
        post.withdrawn) ∧
      Staked ws new tx.sender n ws' := by
  obtain ⟨booster, hg, -, post, hpost, staked, hs, balance, -, psb, -, nonce, -, burned, -, w₁, h₁, w₂, h₂, total, ht,
    onPost, hb, h⟩ := applyBoostPost_ok_iff.mp h
  have hpaid := (payAuthor_frame h₁).trans (payStakers_frame h₂)
  have hk₂ : Keyed w₂ :=
    ((payAuthor_writes h₁).trans (payStakers_writes h₂)).keyed (hk.setAccount.congr rfl rfl rfl)
  have hold : post.postID = tx.postID := hk.post _ _ hpost
  have hid : { post with totalStaked := total, totalBurned := onPost }.postID = tx.postID := hold
  obtain ⟨new, hid, hauthor, hfig, hst⟩ := addBoostStake_staked hk₂ hid h
  refine ⟨staked, post, new, boostStaked_eq hs, hpost, hid, hauthor, ?_, ?_, ?_, ?_⟩
  · rw [hfig, Post.figures, Arith.add_ok ht, Arith.add_ok hb]
  · intro p
    rw [hst.getPost, hpaid.getPost]
    rfl
  · obtain ⟨s, hs', hn⟩ := hst.amount
    exact ⟨s, hs', by rw [hn, hpaid.getPostStake]; rfl⟩
  · intro p b hne
    rw [hst.other p b hne, hpaid.getPostStake]
    rfl

/-- A staker other than the author takes nothing back. -/
theorem applyUnstakePost_nothing {post : Post} {s : PostStake} (hpost : ws.getPost tx.postID = some post)
    (hauthor : tx.sender ≠ post.author) (hs : ws.getPostStake tx.postID tx.sender = some s) (hzero : s.amount = 0)
    (hid : post.postID = tx.postID) (h : applyUnstakePost ar ord ws tx = .ok ws') :
    (∀ p, (ws'.getPost p).map Post.figures = (ws.getPost p).map Post.figures) ∧
      ∀ p a, ws'.getPostStake p a = if (p, a) = (tx.postID, tx.sender) then none else ws.getPostStake p a := by
  obtain ⟨sender, -, _, hstake, _, hfound, balance, -, psb, -, nonce, -, total, ht, count, -, h⟩ :=
    applyUnstakePost_ok_iff.mp h
  cases hs.symm.trans hstake
  cases hpost.symm.trans hfound
  obtain ⟨hself, -⟩ | ⟨-, rfl⟩ := h
  · exact absurd hself hauthor
  rw [hzero] at ht
  cases Arith.sub_ok ht
  constructor
  · intro p
    rw [getPost_setPost_ite]
    change Option.map _ (if p = post.postID then _ else ws.getPost p) = _
    split
    · next hp =>
      rw [hp, hid, hpost, Option.map_some, Option.map_some, Post.figures, Post.figures, UInt64.sub_zero]
    · rfl
  · intro p a
    rw [WorldState.getPostStake_setPost]
    split
    · next hk =>
      cases hk
      exact WorldState.getPostStake_removePostStake_self
    · next hk => exact WorldState.getPostStake_removePostStake_ne hk

/-! ## The simulation -/

/-- The index mirrors the chain. -/
structure Mirrors (db : DB) (ws : WorldState) : Prop where
  figures : ∀ p, db.figuresOf (postKey p) = (ws.getPost p).map Post.figures
  staked : ∀ p a, db.staked (postKey p) (addrString a) = heldOn ws p a
  stakers : ∀ p k row, db.postStakes.lookup (postKey p, k) = some row → ∃ a, k = addrString a
  posted : ∀ p a s, ws.getPostStake p a = some s → (ws.getPost p).isSome

namespace Mirrors

theorem agrees (h : Mirrors db ws) : Agrees db ws where
  figures := h.figures
  stakes p := by
    ext ⟨k, n⟩
    constructor
    · intro hx
      obtain ⟨hn, row, hrow, hamount⟩ := hx
      obtain ⟨a, ha⟩ := h.stakers p k row hrow
      refine ⟨hn, a, ?_⟩
      have hheld := h.staked p a
      rw [← ha, DB.staked, hrow, Option.elim_some, hamount] at hheld
      cases hs : ws.getPostStake p a with
      | none =>
        rw [heldOn_none hs] at hheld
        exact absurd hheld hn
      | some s => exact ⟨s, rfl, ha.symm, by rw [← heldOn_of hs, hheld]⟩
    · intro hx
      obtain ⟨hn, a, s, hs, hk, hamount⟩ := hx
      have hheld := h.staked p a
      rw [heldOn_of hs, hk, hamount, DB.staked] at hheld
      refine ⟨hn, ?_⟩
      cases hrow : db.postStakes.lookup (postKey p, k) with
      | none =>
        rw [hrow] at hheld
        exact absurd hheld.symm hn
      | some row =>
        rw [hrow] at hheld
        exact ⟨row, rfl, hheld⟩

/-- Neither side moved. -/
theorem same (h : Mirrors db ws) (hdb : SameTables db db') (hp : ws'.posts = ws.posts)
    (hs : ws'.postStakes = ws.postStakes) : Mirrors db' ws' where
  figures p := by
    rw [hdb.figuresOf, WorldState.getPost, hp]
    exact h.figures p
  staked p a := by
    rw [hdb.staked, heldOn, WorldState.getPostStake, hs]
    exact h.staked p a
  stakers p k row hrow := by
    rw [hdb.postStakes] at hrow
    exact h.stakers p k row hrow
  posted p a s hstake := by
    rw [WorldState.getPostStake, hs] at hstake
    rw [WorldState.getPost, hp]
    exact h.posted p a s hstake

/-- Both sides grow the stake of `a` on a post. -/
theorem grow (h : Mirrors db ws) {post : Post} {a : Address} {n height : UInt64} (hst : Staked ws post a n ws')
    (hb : DB.binds [n, height] = true) (hsmall : heldOn ws post.postID a < 2 ^ 63)
    (hdb : db'.postStakes = db.postStakes)
    (hfig : ∀ k, db'.figuresOf k = if k = postKey post.postID then some post.figures else db.figuresOf k) :
    Mirrors (db'.upsertPostStake (postKey post.postID) (addrString a) n height) ws' where
  figures p := by
    rw [DB.figuresOf, DB.getPost, DB.upsertPostStake_posts]
    refine (hfig (postKey p)).trans ?_
    rw [hst.getPost]
    by_cases hp : p = post.postID
    · rw [if_pos hp, if_pos (by rw [hp]), Option.map_some]
    · rw [if_neg hp, if_neg fun hk => hp (postKey_inj hk)]
      exact h.figures p
  staked p b := by
    have hn : n.toNat < 2 ^ 63 := by
      exact (DB.binds_cons.mp hb).1
    rw [DB.staked_upsertPostStake hb]
    have hold : db'.staked (postKey p) (addrString b) = heldOn ws p b := by
      rw [DB.staked, hdb]
      exact h.staked p b
    rw [hold]
    by_cases hk : (p, b) = (post.postID, a)
    · obtain ⟨rfl, rfl⟩ := Prod.mk.inj hk
      obtain ⟨s, hs, hamount⟩ := hst.amount
      rw [if_pos rfl, heldOn_of hs, hamount, UInt64.toNat_add]
      have hheld : ((ws.getPostStake post.postID b).elim 0 (·.amount)).toNat = heldOn ws post.postID b := by
        rw [heldOn]
        cases ws.getPostStake post.postID b <;> rfl
      rw [hheld, Nat.mod_eq_of_lt (by omega)]
    · rw [if_neg, heldOn, heldOn, hst.other p b hk, Nat.add_zero]
      intro hkeys
      simp only [Prod.mk.injEq] at hkeys
      exact hk (by rw [postKey_inj hkeys.1, addrString_inj hkeys.2])
  stakers p k row hrow := by
    rcases DB.lookup_upsertPostStake hrow with hk | ⟨old, hold⟩
    · simp only [Prod.mk.injEq] at hk
      exact ⟨a, hk.2⟩
    · rw [hdb] at hold
      exact h.stakers p k old hold
  posted p b s hs := by
    rw [hst.getPost]
    by_cases hp : p = post.postID
    · rw [if_pos hp]
      rfl
    · rw [if_neg hp]
      rw [hst.other p b fun hk => hp (Prod.mk.inj hk).1] at hs
      exact h.posted p b s hs

/-- A record of nothing is taken off the chain. -/
theorem drop (h : Mirrors db ws) {q : PostID} {b : Address} (hzero : heldOn ws q b = 0)
    (hfig : ∀ p, (ws'.getPost p).map Post.figures = (ws.getPost p).map Post.figures)
    (hs : ∀ p a, ws'.getPostStake p a = if (p, a) = (q, b) then none else ws.getPostStake p a) :
    Mirrors db ws' where
  figures p := (h.figures p).trans (hfig p).symm
  staked p a := by
    rw [h.staked]
    by_cases hk : (p, a) = (q, b)
    · cases hk
      rw [hzero, heldOn_none (by rw [hs, if_pos rfl])]
    · rw [heldOn, heldOn, hs, if_neg hk]
  stakers := h.stakers
  posted p a s hstake := by
    have hsome := congrArg Option.isSome (hfig p)
    rw [Option.isSome_map, Option.isSome_map] at hsome
    rw [hsome]
    rw [hs] at hstake
    split at hstake
    · cases hstake
    · exact h.posted p a s hstake

end Mirrors

end Drana
