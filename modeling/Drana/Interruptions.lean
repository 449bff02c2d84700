/-
The indexer interrupted. `IndexBlock` is many statements, and the height is
recorded after the last: stopped in between, it indexes the block again. That
leads to the same tables exactly where no statement of the block adds to a
figure or appends to a list.
-/
import Drana.Lib.Script
import Drana.Rewards

namespace Drana

variable {E : Env} {f : Follower} {db db' : DB} {rows : RowOrder} {height : UInt64} {time : Int64}
  {r : TransactionResponse} {k s : String}

/-! ## The statements of `IndexBlock` -/

namespace DB

/-- `database/sql` takes the INSERT of a post. -/
def takesPost (p : IndexedPost) : Bool :=
  binds [p.createdAtHeight, p.totalStaked, p.authorStaked, p.thirdPartyStaked, p.stakerCount, p.lastBoostAtHeight,
    p.totalBurned]

/-- It takes the INSERT of a boost. -/
def takesBoost (b : IndexedBoost) : Bool :=
  binds [b.amount, b.authorReward, b.stakerReward, b.burnAmount, b.stakedAmount, b.blockHeight]

/-- The INSERT of `InsertPost`: a row already there stays as it is. -/
def insertPostRow (db : DB) (p : IndexedPost) : DB :=
  if p.postID ∈ db.posts then db else { db with posts := db.posts.insert p.postID p.row }

/-- Its UPDATE of the parent. -/
def countReply (db : DB) (parentPostID : String) : DB :=
  db.updatePost parentPostID fun row => { row with replyCount := row.replyCount + 1 }

end DB

/-- Two statements; the second is not reached where the first is refused. -/
def insertPostScript (p : IndexedPost) : Script DB :=
  if DB.takesPost p then
    .exec (·.insertPostRow p) (if p.parentPostID ≠ "" then .exec (·.countReply p.parentPostID) .done else .done)
  else .done

namespace Follower

variable (f : Follower)

def createPostScript (E : Env) (height : UInt64) (time : Int64) (tx : TransactionResponse) : Script DB :=
  let postID := findPostID E tx.sender tx.nonce
  if postID = "" then .done
  else
    let fee := mulDiv tx.amount f.postFeePercent 100
    let stakedAmount := tx.amount - fee
    (insertPostScript {
      postID, author := tx.sender, text := tx.text, channel := tx.channel, parentPostID := tx.parentPostID
      createdAtHeight := height, createdAtTime := time
      totalStaked := stakedAmount, authorStaked := stakedAmount, stakerCount := 1, totalBurned := fee }).andThen
      (.exec (·.upsertPostStake postID tx.sender stakedAmount height) .done)

/-- The loop over the stakers, one INSERT for each. -/
def rewardStakerScript (height : UInt64) (time : Int64) (tx : TransactionResponse) (stakerReward totalStaked : UInt64) :
    List (String × PostStakeRecord) → Script DB
  | [] => .done
  | s :: stakers =>
    .exec (fun db => rewardStaker height time tx stakerReward totalStaked db s)
      (rewardStakerScript height time tx stakerReward totalStaked stakers)

def rewardStakersScript (ord : RowOrder) (height : UInt64) (time : Int64) (tx : TransactionResponse)
    (post : Option PostRow) (stakerReward : UInt64) : Script DB :=
  if stakerReward > 0 ∧ post.isSome then
    .ask fun db =>
      let stakers := db.getPostStakePositions ord tx.postID
      let totalStaked := stakers.foldl (fun total s => total + UInt64.ofNat s.2.amount) 0
      if totalStaked > 0 then rewardStakerScript height time tx stakerReward totalStaked stakers else .done
  else .done

/-- `InsertBoost` is one SQL transaction, and so one statement here. -/
def boostPostScript (ord : RowOrder) (height : UInt64) (time : Int64) (tx : TransactionResponse) : Script DB :=
  if tx.postID = "" then .done
  else
    .ask fun db =>
      let post := db.getPost tx.postID
      let author := post.elim "" (·.author)
      let burnAmount := mulDiv tx.amount f.boostBurnPct 100
      let authorReward := mulDiv tx.amount f.boostAuthorPct 100
      let stakerReward := mulDiv tx.amount f.boostStakerPct 100
      let stakedAmount := tx.amount - burnAmount - authorReward - stakerReward
      .exec (·.insertBoost
        ⟨tx.postID, tx.sender, tx.amount, authorReward, stakerReward, burnAmount, stakedAmount, height, time, tx.hash⟩
          author) <|
      .exec (rewardAuthor · height time tx author authorReward) <|
      (rewardStakersScript ord height time tx post stakerReward).andThen
      (.exec (·.upsertPostStake tx.postID tx.sender stakedAmount height) .done)

def unstakePostScript (ord : RowOrder) (tx : TransactionResponse) : Script DB :=
  if tx.postID = "" then .done
  else
    .ask fun db =>
      if (db.getPost tx.postID).any fun post => tx.sender = post.author then
        .exec (·.removeAllPostStakes ord tx.postID) (.exec (·.setWithdrawn tx.postID) .done)
      else .exec (·.removePostStake tx.postID tx.sender) .done

def transactionScript (E : Env) (ord : RowOrder) (height : UInt64) (time : Int64) (tx : TransactionResponse) :
    Script DB :=
  if tx.type = "transfer" then .exec (indexTransfer · height time tx) .done
  else if tx.type = "create_post" then f.createPostScript E height time tx
  else if tx.type = "boost_post" then f.boostPostScript ord height time tx
  else if tx.type = "unstake_post" then unstakePostScript ord tx
  else .done

/-- The loop of `IndexBlock`; the height is recorded after it. -/
def transactionsScript (E : Env) (ord : Nat → RowOrder) (height : UInt64) (time : Int64) :
    Nat → List TransactionResponse → Script DB
  | _, [] => .done
  | i, tx :: txs =>
    (f.transactionScript E (ord i) height time tx).andThen (transactionsScript E ord height time (i + 1) txs)

/-- What `IndexBlock` can leave where it stops before the height is recorded. -/
def stops (E : Env) (ord : Nat → RowOrder) (db : DB) (height : UInt64) (block : BlockResponse) : List DB :=
  (f.transactionsScript E ord height block.timestamp 0 block.transactions).points db

end Follower

/-! ### Run to their end, the scripts are `IndexBlock` -/

theorem insertPostScript_run {p : IndexedPost} : (insertPostScript p).run db = db.insertPost p := by
  unfold insertPostScript DB.insertPost DB.takesPost
  split
  · split <;> rfl
  · rfl

theorem rewardStakersScript_run {post : Option PostRow} {n : UInt64} :
    (Follower.rewardStakersScript rows height time r post n).run db = Follower.rewardStakers rows db height time r post
    n := by
  have hloop : ∀ (total : UInt64) (l : List (String × PostStakeRecord)) (db : DB),
      (Follower.rewardStakerScript height time r n total l).run db = l.foldl
        (Follower.rewardStaker height time r n total) db := by
    intro total l
    induction l with
    | nil => exact fun db => rfl
    | cons s l ih => exact fun db => ih _
  unfold Follower.rewardStakersScript Follower.rewardStakers
  split
  · simp only [Script.run]
    split
    · exact hloop _ _ db
    · rfl
  · rfl

theorem transactionScript_run :
    (f.transactionScript E rows height time r).run db = f.indexTransaction E rows height time db r := by
  unfold Follower.transactionScript Follower.indexTransaction
  split
  · rfl
  split
  · unfold Follower.createPostScript Follower.indexCreatePost
    dsimp only
    split
    · rfl
    · rw [Script.run_andThen, insertPostScript_run]
      rfl
  split
  · unfold Follower.boostPostScript Follower.indexBoostPost
    split
    · rfl
    · simp only [Script.run, Script.run_andThen, rewardStakersScript_run]
  split
  · unfold Follower.unstakePostScript Follower.indexUnstakePost
    split
    · rfl
    · simp only [Script.run]
      split <;> rfl
  · rfl

theorem transactionsScript_run {ord : Nat → RowOrder} {i : Nat} {txs : List TransactionResponse} :
    (f.transactionsScript E ord height time i txs).run db = f.indexTransactions E ord height time i db txs := by
  induction txs generalizing i db with
  | nil => rfl
  | cons tx txs ih => rw [Follower.transactionsScript, Script.run_andThen, transactionScript_run, ih,
    Follower.indexTransactions]

/-- The whole loop is the last of the stops. -/
theorem indexTransactions_mem_stops {ord : Nat → RowOrder} {block : BlockResponse} :
    f.indexTransactions E ord height block.timestamp 0 db block.transactions ∈ f.stops E ord db height block := by
  rw [← transactionsScript_run]
  exact Script.run_mem_points

/-! ## What need not be done twice -/

/-- A write that leaves figures and events alone: a row where there is none, or
the height of a stake. -/
inductive Put
  | post (p : IndexedPost)
  | boost (b : IndexedBoost)
  | transfer (t : IndexedTransfer)
  | touch (postID staker : String)

namespace Put

def apply (height : UInt64) : Put → DB → DB
  | .post p, db => db.insertPostRow p
  | .boost b, db => if b.txHash ∈ db.boosts then db else { db with boosts := db.boosts.insert b.txHash b }
  | .transfer t, db => if t.txHash ∈ db.transfers then db else { db with transfers := db.transfers.insert t.txHash t }
  | .touch k s, db => { db with postStakes := db.postStakes.insert (k, s) ⟨db.staked k s, height.toNat⟩ }

/-- It has nothing left to do. -/
def Settled (height : UInt64) : Put → DB → Prop
  | .post p, db => p.postID ∈ db.posts
  | .boost b, db => b.txHash ∈ db.boosts
  | .transfer t, db => t.txHash ∈ db.transfers
  | .touch k s, db => ∃ row, db.postStakes.lookup (k, s) = some row ∧ row.height = height.toNat

theorem apply_settled {o : Put} : o.Settled height (o.apply height db) := by
  cases o with
  | post p =>
    show p.postID ∈ (db.insertPostRow p).posts
    unfold DB.insertPostRow
    split
    · assumption
    · exact Finmap.mem_insert.mpr (.inl rfl)
  | boost b =>
    simp only [apply, Settled]
    split
    · assumption
    · exact Finmap.mem_insert.mpr (.inl rfl)
  | transfer t =>
    simp only [apply, Settled]
    split
    · assumption
    · exact Finmap.mem_insert.mpr (.inl rfl)
  | touch k s => exact ⟨_, Finmap.lookup_insert _, rfl⟩

theorem apply_eq_self_iff {o : Put} : o.apply height db = db ↔ o.Settled height db := by
  refine ⟨fun h => h ▸ apply_settled, fun h => ?_⟩
  cases o with
  | post p => exact if_pos h
  | boost b => exact if_pos h
  | transfer t => exact if_pos h
  | touch k s =>
    obtain ⟨row, hrow, hheight⟩ := h
    have hsame : (⟨db.staked k s, height.toNat⟩ : PostStakeRecord) = row := by
      rw [DB.staked, hrow, Option.elim_some, ← hheight]
    simp only [apply, hsame, GoMap.insert_lookup hrow]

/-- What is settled stays so. -/
theorem Settled.apply {o o' : Put} (h : o.Settled height db) : o.Settled height (o'.apply height db) := by
  have hposts : ∀ {k : String}, k ∈ db.posts → k ∈ (o'.apply height db).posts := by
    intro k hk
    cases o' with
    | post p =>
      show k ∈ (db.insertPostRow p).posts
      unfold DB.insertPostRow
      split
      · exact hk
      · exact Finmap.mem_insert.mpr (.inr hk)
    | boost b => simp only [Put.apply]; split <;> exact hk
    | transfer t => simp only [Put.apply]; split <;> exact hk
    | touch k s => exact hk
  cases o with
  | post p => exact hposts h
  | boost b =>
    cases o' with
    | post p => simp only [Put.apply, DB.insertPostRow]; split <;> exact h
    | boost b' =>
      simp only [Put.apply, Settled]
      split
      · exact h
      · exact Finmap.mem_insert.mpr (.inr h)
    | transfer t => simp only [Put.apply]; split <;> exact h
    | touch k s => exact h
  | transfer t =>
    cases o' with
    | post p => simp only [Put.apply, DB.insertPostRow]; split <;> exact h
    | boost b => simp only [Put.apply]; split <;> exact h
    | transfer t' =>
      simp only [Put.apply, Settled]
      split
      · exact h
      · exact Finmap.mem_insert.mpr (.inr h)
    | touch k s => exact h
  | touch k s =>
    cases o' with
    | post p => simp only [Put.apply, DB.insertPostRow]; split <;> exact h
    | boost b => simp only [Put.apply]; split <;> exact h
    | transfer t => simp only [Put.apply]; split <;> exact h
    | touch k' s' =>
      obtain ⟨row, hrow, hheight⟩ := h
      simp only [Put.apply, Settled]
      by_cases hk : (k, s) = (k', s')
      · rw [hk, Finmap.lookup_insert]
        exact ⟨_, rfl, rfl⟩
      · rw [Finmap.lookup_insert_of_ne _ hk]
        exact ⟨row, hrow, hheight⟩

theorem lasting {puts : List Put} : Script.Lasting (puts.map (Put.apply height)) where
  once o ho db := by
    obtain ⟨o, -, rfl⟩ := List.mem_map.mp ho
    exact apply_eq_self_iff.mpr apply_settled
  stays o ho o' ho' db h := by
    obtain ⟨o, -, rfl⟩ := List.mem_map.mp ho
    obtain ⟨o', -, rfl⟩ := List.mem_map.mp ho'
    exact apply_eq_self_iff.mpr (apply_eq_self_iff.mp h).apply

end Put

/-! ## Blocks that can be indexed again -/

namespace Follower

variable (f : Follower)

/-- What `IndexBlock` makes of a CreatePost. -/
def postOf (E : Env) (height : UInt64) (time : Int64) (tx : TransactionResponse) : IndexedPost where
  postID := findPostID E tx.sender tx.nonce
  author := tx.sender
  text := tx.text
  channel := tx.channel
  parentPostID := tx.parentPostID
  createdAtHeight := height
  createdAtTime := time
  totalStaked := tx.amount - mulDiv tx.amount f.postFeePercent 100
  authorStaked := tx.amount - mulDiv tx.amount f.postFeePercent 100
  stakerCount := 1
  totalBurned := mulDiv tx.amount f.postFeePercent 100

/-- What it makes of a boost. -/
def boostOf (height : UInt64) (time : Int64) (tx : TransactionResponse) : IndexedBoost where
  postID := tx.postID
  booster := tx.sender
  amount := tx.amount
  authorReward := mulDiv tx.amount f.boostAuthorPct 100
  stakerReward := mulDiv tx.amount f.boostStakerPct 100
  burnAmount := mulDiv tx.amount f.boostBurnPct 100
  stakedAmount := tx.amount - mulDiv tx.amount f.boostBurnPct 100 - mulDiv tx.amount f.boostAuthorPct 100 -
    mulDiv tx.amount f.boostStakerPct 100
  blockHeight := height
  blockTime := time
  txHash := tx.hash

end Follower

/-- A figure that adds nothing: zero, or refused. -/
def AddsNothing (n height : UInt64) : Prop := DB.binds [n, height] = true → n = 0

/-- The block makes a post of `tx`. -/
def Creates (E : Env) (tx : TransactionResponse) : Prop :=
  tx.type = "create_post" ∧ findPostID E tx.sender tx.nonce ≠ ""

/-- It is a boost of a named post. -/
def Boosts (tx : TransactionResponse) : Prop := tx.type = "boost_post" ∧ tx.postID ≠ ""

/-- A post is indexed, or the block indexes it. -/
def Known (E : Env) (f : Follower) (db : DB) (height : UInt64) (block : BlockResponse) (k : String) : Prop :=
  k ∈ db.posts ∨ ∃ tx ∈ block.transactions, Creates E tx ∧
    DB.takesPost (f.postOf E height block.timestamp tx) = true ∧ (f.postOf E height block.timestamp tx).postID = k

/-- Nothing in the block adds to a figure or records an event: nothing is staked,
no known post is replied to or boosted, except by what is refused or zero. -/
structure Repeatable (E : Env) (f : Follower) (db : DB) (height : UInt64) (block : BlockResponse) : Prop where
  create : ∀ tx ∈ block.transactions, Creates E tx →
    AddsNothing (f.postOf E height block.timestamp tx).totalStaked height
  reply : ∀ tx ∈ block.transactions, Creates E tx → DB.takesPost (f.postOf E height block.timestamp tx) = true →
    tx.parentPostID ≠ "" → ¬ Known E f db height block tx.parentPostID
  boost : ∀ tx ∈ block.transactions, Boosts tx → AddsNothing (f.boostOf height block.timestamp tx).stakedAmount height
  known : ∀ tx ∈ block.transactions, Boosts tx → Known E f db height block tx.postID →
    DB.takesBoost (f.boostOf height block.timestamp tx) = false ∧
    AddsNothing (f.boostOf height block.timestamp tx).authorReward height ∧
    (UInt64.ofNat (db.rowsTotal tx.postID) > 0 →
      ∀ s, AddsNothing (mulDiv (f.boostOf height block.timestamp tx).stakerReward
      (UInt64.ofNat (db.staked tx.postID s)) (UInt64.ofNat (db.rowsTotal tx.postID))) height)

/-- What such a block writes. -/
def putsOf (E : Env) (f : Follower) (height : UInt64) (time : Int64) (tx : TransactionResponse) : List Put :=
  if tx.type = "transfer" then
    if DB.binds [tx.amount, height] then [.transfer ⟨tx.hash, tx.sender, tx.recipient, tx.amount, height, time⟩] else []
  else if tx.type = "create_post" then
    if findPostID E tx.sender tx.nonce = "" then []
    else
      (if DB.takesPost (f.postOf E height time tx) then [.post (f.postOf E height time tx)] else []) ++
      if DB.binds [(f.postOf E height time tx).totalStaked, height] then
        [.touch (findPostID E tx.sender tx.nonce) tx.sender] else []
  else if tx.type = "boost_post" then
    if tx.postID = "" then []
    else
      (if DB.takesBoost (f.boostOf height time tx) then [.boost (f.boostOf height time tx)] else []) ++
      if DB.binds [(f.boostOf height time tx).stakedAmount, height] then [.touch tx.postID tx.sender] else []
  else []

/-- The same is staked. -/
structure SameStakes (db db' : DB) : Prop where
  staked : ∀ k s, db'.staked k s = db.staked k s
  total : ∀ k, db'.rowsTotal k = db.rowsTotal k

namespace SameStakes

theorem of_postStakes (h : db'.postStakes = db.postStakes) : SameStakes db db' where
  staked k s := by rw [DB.staked, h, DB.staked]
  total k := DB.rowsTotal_congr h

theorem trans {db₁ : DB} (h : SameStakes db db₁) (h' : SameStakes db₁ db') : SameStakes db db' where
  staked k s := (h'.staked k s).trans (h.staked k s)
  total k := (h'.total k).trans (h.total k)

theorem touch : SameStakes db ((Put.touch k s).apply height db) where
  staked k' s' := by
    rw [DB.staked]
    simp only [Put.apply]
    by_cases hk : (k', s') = (k, s)
    · rw [hk, Finmap.lookup_insert, Option.elim_some, (Prod.mk.inj hk).1, (Prod.mk.inj hk).2]
    · rw [Finmap.lookup_insert_of_ne _ hk, ← DB.staked]
  total k' := by
    have htotal := @DB.rowsTotal_insert db ((Put.touch k s).apply height db) k s k' ⟨db.staked k s, height.toNat⟩ rfl
    exact Nat.add_right_cancel htotal

end SameStakes

/-- A state between the writes of such a block. -/
structure Steady (E : Env) (f : Follower) (db₀ : DB) (height : UInt64) (block : BlockResponse) (db : DB) : Prop where
  posts : ∀ k, k ∈ db.posts → Known E f db₀ height block k
  stakes : SameStakes db₀ db

variable {db₀ : DB} {block : BlockResponse} {tx : TransactionResponse}

theorem mem_putsOf_post {time : Int64} {p : IndexedPost} (h : Put.post p ∈ putsOf E f height time tx) :
    Creates E tx ∧ DB.takesPost p = true ∧ p = f.postOf E height time tx := by
  unfold putsOf at h
  split at h
  · split at h <;> simp at h
  split at h
  · next htype =>
    split at h
    · simp at h
    · next hid =>
      rcases List.mem_append.mp h with h | h
      · split at h
        · next htakes =>
          cases List.mem_singleton.mp h
          exact ⟨⟨htype, hid⟩, htakes, rfl⟩
        · simp at h
      · split at h <;> simp at h
  split at h
  · split at h
    · simp at h
    · rcases List.mem_append.mp h with h | h <;> split at h <;> simp at h
  · simp at h

namespace Steady

theorem start : Steady E f db height block db := ⟨fun _ hk => .inl hk, .of_postStakes rfl⟩

theorem put (h : Steady E f db₀ height block db) (htx : tx ∈ block.transactions) {o : Put}
    (ho : o ∈ putsOf E f height block.timestamp tx) : Steady E f db₀ height block (o.apply height db) := by
  have hsame : SameTables db (o.apply height db) → Steady E f db₀ height block (o.apply height db) := fun hsame =>
    ⟨fun k hk => h.posts k (by rwa [hsame.posts] at hk), h.stakes.trans (.of_postStakes hsame.postStakes)⟩
  cases o with
  | boost b =>
    refine hsame ?_
    simp only [Put.apply]
    split <;> exact ⟨rfl, rfl⟩
  | transfer t =>
    refine hsame ?_
    simp only [Put.apply]
    split <;> exact ⟨rfl, rfl⟩
  | touch k s => exact ⟨h.posts, h.stakes.trans .touch⟩
  | post p =>
    have hstakes : (db.insertPostRow p).postStakes = db.postStakes := by
      unfold DB.insertPostRow
      split <;> rfl
    refine ⟨fun k hk => ?_, h.stakes.trans (.of_postStakes hstakes)⟩
    have hcase : k = p.postID ∨ k ∈ db.posts := by
      have hk : k ∈ (db.insertPostRow p).posts := hk
      unfold DB.insertPostRow at hk
      split at hk
      · exact .inr hk
      · exact Finmap.mem_insert.mp hk
    rcases hcase with rfl | hold
    · obtain ⟨hc, htakes, rfl⟩ := mem_putsOf_post ho
      exact .inr ⟨tx, htx, hc, htakes, rfl⟩
    · exact h.posts k hold

end Steady

/-- Nothing is added to a stake. -/
theorem upsertPostStake_touch {n : UInt64} (hn : AddsNothing n height) :
    db.upsertPostStake k s n height = if DB.binds [n, height] then (Put.touch k s).apply height db else db := by
  unfold DB.upsertPostStake
  split
  · next hb =>
    rw [hn hb]
    rfl
  · rfl

theorem touch_does {n : UInt64} (hn : AddsNothing n height) :
    Script.Does ((if DB.binds [n, height] then [Put.touch k s] else []).map (Put.apply height))
      (.exec (·.upsertPostStake k s n height) .done) db := by
  have htouch := @upsertPostStake_touch db height k s n hn
  split
  · next hb =>
    rw [if_pos hb] at htouch
    exact .exec htouch .done
  · next hb =>
    rw [if_neg hb] at htouch
    exact .skip htouch .done

theorem updatePost_none {set : PostRow → PostRow} (h : k ∉ db.posts) : db.updatePost k set = db := by
  have hnone : db.getPost k = none := by
    rw [DB.getPost, ← Option.not_isSome_iff_eq_none]
    exact fun hsome => h (Finmap.lookup_isSome.mp hsome)
  rw [DB.updatePost, hnone]

theorem createPost_does (hr : Repeatable E f db₀ height block) (hs : Steady E f db₀ height block db)
    (htx : tx ∈ block.transactions) (hc : Creates E tx) :
    Script.Does ((putsOf E f height block.timestamp tx).map (Put.apply height))
      (f.createPostScript E height block.timestamp tx) db := by
  have hputs : putsOf E f height block.timestamp tx =
      (if DB.takesPost (f.postOf E height block.timestamp tx) then [.post (f.postOf E height block.timestamp tx)] else
        []) ++
      if DB.binds [(f.postOf E height block.timestamp tx).totalStaked, height] then
        [.touch (findPostID E tx.sender tx.nonce) tx.sender] else [] := by
    unfold putsOf
    rw [hc.1, if_neg (by decide), if_pos rfl, if_neg hc.2]
  rw [hputs, List.map_append]
  unfold Follower.createPostScript
  dsimp only
  rw [if_neg hc.2]
  refine .andThen ?_ (touch_does (hr.create tx htx hc))
  show Script.Does _ (insertPostScript (f.postOf E height block.timestamp tx)) db
  unfold insertPostScript
  by_cases ht : DB.takesPost (f.postOf E height block.timestamp tx) = true
  · rw [if_pos ht, if_pos ht]
    refine .exec rfl ?_
    split
    · next hparent =>
      -- The parent is not there, also after the INSERT.
      have hunknown := hr.reply tx htx hc ht hparent
      have hput : Put.post (f.postOf E height block.timestamp tx) ∈ putsOf E f height block.timestamp tx := by
        rw [hputs, if_pos ht]
        simp
      have hafter := hs.put htx hput
      exact .skip (updatePost_none fun hk => hunknown (hafter.posts _ hk)) .done
    · exact .done
  · rw [if_neg ht, if_neg ht]
    exact .done

theorem insertRewardEvent_nothing {e : RewardEvent} (h : AddsNothing e.amount e.blockHeight) (hpos : e.amount > 0) :
    db.insertRewardEvent e = db := by
  unfold DB.insertRewardEvent
  split
  · next hb =>
    rw [h hb] at hpos
    exact absurd hpos (by decide)
  · rfl

theorem rewardAuthor_nothing {author : String} {n : UInt64} (h : AddsNothing n height ∨ author = "") :
    Follower.rewardAuthor db height time tx author n = db := by
  unfold Follower.rewardAuthor
  split
  · next hpos =>
    rcases h with h | h
    · exact insertRewardEvent_nothing h hpos.1
    · exact absurd h hpos.2
  · rfl

/-- No event for any staker. -/
theorem rewardStakers_does {post : Option PostRow} {n : UInt64}
    (h : post.isSome → UInt64.ofNat (db.rowsTotal tx.postID) > 0 →
      ∀ s, AddsNothing (mulDiv n (UInt64.ofNat (db.staked tx.postID s)) (UInt64.ofNat (db.rowsTotal tx.postID))) height) :
    Script.Does [] (Follower.rewardStakersScript rows height time tx post n) db := by
  unfold Follower.rewardStakersScript
  split
  · next hsome =>
    refine .ask ?_
    dsimp only
    rw [DB.sum_rows, DB.sum_getPostStakePositions, UInt64.zero_add]
    split
    · next hpos =>
      have hrows : ∀ e ∈ db.getPostStakePositions rows tx.postID, e ∈ db.getPostStakePositions rows tx.postID :=
        fun _ he => he
      have hloop : ∀ l : List (String × PostStakeRecord), (∀ e ∈ l, e ∈ db.getPostStakePositions rows tx.postID) →
          Script.Does [] (Follower.rewardStakerScript height time tx n (UInt64.ofNat (db.rowsTotal tx.postID)) l) db := by
        intro l hl
        induction l with
        | nil => exact .done
        | cons e l ih =>
          rw [List.forall_mem_cons] at hl
          refine .skip ?_ (ih hl.2)
          have hstaked : db.staked tx.postID e.1 = e.2.amount := by
            rw [DB.staked, DB.mem_getPostStakePositions.mp hl.1]
            rfl
          have hnothing := h hsome.2 hpos e.1
          rw [hstaked] at hnothing
          simp only [Follower.rewardStaker]
          split
          · next hshare => exact insertRewardEvent_nothing hnothing hshare
          · rfl
      exact hloop _ hrows
    · exact .done
  · exact .done

/-- A boost of an unknown post has no figure to add to. -/
theorem insertBoost_unknown {b : IndexedBoost} (h : b.postID ∉ db.posts) :
    db.insertBoost b s = if DB.takesBoost b then (Put.boost b).apply height db else db := by
  have hposts : b.postID ∉ (if b.txHash ∈ db.boosts then db else
      { db with boosts := db.boosts.insert b.txHash b }).posts := by
    split <;> exact h
  unfold DB.insertBoost DB.takesBoost
  split
  · dsimp only
    rw [updatePost_none hposts, updatePost_none hposts]
    rfl
  · rfl

theorem boostPost_does (hr : Repeatable E f db₀ height block) (hs : Steady E f db₀ height block db)
    (htx : tx ∈ block.transactions) (hb : Boosts tx) :
    Script.Does ((putsOf E f height block.timestamp tx).map (Put.apply height))
      (f.boostPostScript rows height block.timestamp tx) db := by
  have hputs : putsOf E f height block.timestamp tx =
      (if DB.takesBoost (f.boostOf height block.timestamp tx) then [.boost (f.boostOf height block.timestamp tx)] else
        []) ++
      if DB.binds [(f.boostOf height block.timestamp tx).stakedAmount, height] then [.touch tx.postID tx.sender] else
        [] := by
    unfold putsOf
    rw [hb.1, if_neg (by decide), if_neg (by decide), if_pos rfl, if_neg hb.2]
  rw [hputs, List.map_append]
  unfold Follower.boostPostScript
  rw [if_neg hb.2]
  refine .ask ?_
  dsimp only
  by_cases hk : tx.postID ∈ db.posts
  · -- A post that is known: the boost is refused, and its rewards are nothing.
    obtain ⟨hrefused, hauthor, hstakers⟩ := hr.known tx htx hb (hs.posts _ hk)
    have hinsert : db.insertBoost (f.boostOf height block.timestamp tx) ((db.getPost tx.postID).elim "" (·.author)) =
        db := by
      rw [DB.insertBoost]
      exact if_neg (Bool.not_eq_true _ ▸ hrefused)
    rw [hrefused, if_neg Bool.false_ne_true, List.map_nil]
    refine .skip hinsert ?_
    refine .skip (rewardAuthor_nothing (.inl hauthor)) ?_
    refine .andThen (rewardStakers_does fun _ hpos s => ?_) (touch_does (hr.boost tx htx hb))
    rw [hs.stakes.total] at hpos
    rw [hs.stakes.total, hs.stakes.staked]
    exact hstakers hpos s
  · -- A post that is not: no figure to add to, nobody to reward.
    have hnone : db.getPost tx.postID = none := by
      rw [DB.getPost, ← Option.not_isSome_iff_eq_none]
      exact fun hsome => hk (Finmap.lookup_isSome.mp hsome)
    rw [hnone, Option.elim_none]
    have hrest : ∀ db' : DB, Script.Does
        ((if DB.binds [(f.boostOf height block.timestamp tx).stakedAmount, height] then
          [Put.touch tx.postID tx.sender] else []).map (Put.apply height))
        (.exec (Follower.rewardAuthor · height block.timestamp tx "" (f.boostOf height block.timestamp tx).authorReward)
          ((Follower.rewardStakersScript rows height block.timestamp tx none
            (f.boostOf height block.timestamp tx).stakerReward).andThen
            (.exec (·.upsertPostStake tx.postID tx.sender (f.boostOf height block.timestamp tx).stakedAmount height)
              .done))) db' := by
      intro db'
      refine .skip (rewardAuthor_nothing (.inr rfl)) ?_
      refine .andThen (rewardStakers_does fun hsome => ?_) (touch_does (hr.boost tx htx hb))
      exact absurd hsome Bool.false_ne_true
    have hinsert := @insertBoost_unknown db height "" (f.boostOf height block.timestamp tx) hk
    split
    · next ht =>
      rw [if_pos ht] at hinsert
      exact .exec hinsert (hrest _)
    · next ht =>
      rw [if_neg ht] at hinsert
      exact .skip hinsert (hrest _)

/-- What a node reports of a transaction: somebody sent it, and an UnstakePost names no post. -/
structure Reported (tx : TransactionResponse) : Prop where
  sender : tx.sender ≠ ""
  unstake : tx.type = "unstake_post" → tx.postID = ""

theorem txToResponse_reported {t : Transaction} : Reported (txToResponse E t height) where
  sender := by
    have hsender : (txToResponse E t height).sender = addrString t.sender := by
      unfold txToResponse
      dsimp only
      split <;> rfl
    rw [hsender]
    exact addrString_ne_empty t.sender
  unstake h := by
    have hkind : t.kind ≠ some .boostPost := by
      intro hk
      rw [txToResponse_type hk] at h
      exact absurd h (by decide)
    unfold txToResponse
    dsimp only
    split <;> first | rfl | exact absurd ‹_› hkind

theorem transaction_does (hr : Repeatable E f db₀ height block) (hs : Steady E f db₀ height block db)
    (htx : tx ∈ block.transactions) (hrep : Reported tx) :
    Script.Does ((putsOf E f height block.timestamp tx).map (Put.apply height))
      (f.transactionScript E rows height block.timestamp tx) db := by
  unfold Follower.transactionScript
  split
  · next htype =>
    have hputs : putsOf E f height block.timestamp tx = if DB.binds [tx.amount, height] then
        [.transfer ⟨tx.hash, tx.sender, tx.recipient, tx.amount, height, block.timestamp⟩] else [] := if_pos htype
    rw [hputs]
    split
    · next hb => exact .exec (if_pos hb) .done
    · next hb => exact .skip (if_neg hb) .done
  split
  · next htype =>
    by_cases hid : findPostID E tx.sender tx.nonce = ""
    · have hputs : putsOf E f height block.timestamp tx = [] := by
        unfold putsOf
        rw [htype, if_neg (by decide), if_pos rfl, if_pos hid]
      have hscript : f.createPostScript E height block.timestamp tx = .done := if_pos hid
      rw [hputs, hscript]
      exact .done
    · exact createPost_does hr hs htx ⟨htype, hid⟩
  split
  · next htype =>
    by_cases hid : tx.postID = ""
    · have hputs : putsOf E f height block.timestamp tx = [] := by
        unfold putsOf
        rw [htype, if_neg (by decide), if_neg (by decide), if_pos rfl, if_pos hid]
      have hscript : f.boostPostScript rows height block.timestamp tx = .done := if_pos hid
      rw [hputs, hscript]
      exact .done
    · exact boostPost_does hr hs htx ⟨htype, hid⟩
  next htransfer hcreate hboost =>
    have hputs : putsOf E f height block.timestamp tx = [] := by
      unfold putsOf
      rw [if_neg htransfer, if_neg hcreate, if_neg hboost]
    rw [hputs]
    split
    · next htype =>
      have hscript : Follower.unstakePostScript rows tx = .done := if_pos (hrep.unstake htype)
      rw [hscript]
      exact .done
    · exact .done

theorem Steady.puts (h : Steady E f db₀ height block db) {l : List Put}
    (hl : ∀ o ∈ l, ∃ tx ∈ block.transactions, o ∈ putsOf E f height block.timestamp tx) :
    Steady E f db₀ height block (Script.applyAll (l.map (Put.apply height)) db) := by
  induction l generalizing db with
  | nil => exact h
  | cons o l ih =>
    rw [List.forall_mem_cons] at hl
    obtain ⟨⟨tx, htx, ho⟩, hl⟩ := hl
    exact ih (h.put htx ho) hl

/-- The writes of a whole block. -/
def blockPuts (E : Env) (f : Follower) (height : UInt64) (time : Int64) (txs : List TransactionResponse) : List Put :=
  txs.flatMap (putsOf E f height time)

theorem transactions_does (hr : Repeatable E f db₀ height block) (hrep : ∀ tx ∈ block.transactions, Reported tx)
    {ord : Nat → RowOrder} {i : Nat} {txs : List TransactionResponse} (htxs : ∀ tx ∈ txs, tx ∈ block.transactions)
    (hs : Steady E f db₀ height block db) :
    Script.Does ((blockPuts E f height block.timestamp txs).map (Put.apply height))
      (f.transactionsScript E ord height block.timestamp i txs) db := by
  induction txs generalizing i db with
  | nil => exact .done
  | cons tx txs ih =>
    rw [List.forall_mem_cons] at htxs
    rw [blockPuts, List.flatMap_cons, List.map_append]
    have hone := @transaction_does E f db (ord i) height db₀ block tx hr hs htxs.1 (hrep tx htxs.1)
    exact hone.andThen (ih htxs.2 (hs.puts fun o ho => ⟨tx, htxs.1, ho⟩))

/-- **Such a block can be indexed again** from wherever it was stopped. -/
theorem Repeatable.again (hr : Repeatable E f db height block) (hrep : ∀ tx ∈ block.transactions, Reported tx)
    {ord ord' : Nat → RowOrder} {y : DB} (hy : y ∈ f.stops E ord db height block) :
    f.indexBlock E ord' y height block = f.indexBlock E ord db height block := by
  have hself : ∀ tx ∈ block.transactions, tx ∈ block.transactions := fun _ htx => htx
  have hfirst : Script.Does ((blockPuts E f height block.timestamp block.transactions).map (Put.apply height))
      (f.transactionsScript E ord height block.timestamp 0 block.transactions) db :=
        transactions_does hr hrep hself .start
  obtain ⟨before, hpre, rfl⟩ := hfirst.points y hy
  obtain ⟨puts, hputs, rfl⟩ := List.prefix_map_iff.mp hpre
  have hsteady : Steady E f db height block (Script.applyAll (puts.map (Put.apply height)) db) :=
    Steady.start.puts fun o ho => List.mem_flatMap.mp (hputs.subset ho)
  have hsecond : Script.Does ((blockPuts E f height block.timestamp block.transactions).map (Put.apply height))
      (f.transactionsScript E ord' height block.timestamp 0 block.transactions)
      (Script.applyAll (puts.map (Put.apply height)) db) := transactions_does hr hrep hself hsteady
  rw [Follower.indexBlock, Follower.indexBlock, ← transactionsScript_run, ← transactionsScript_run, hsecond.run,
    hfirst.run, Put.lasting.again hpre]

end Drana
