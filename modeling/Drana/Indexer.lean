/-
The indexer (`internal/indexer`): a database of posts, boosts, rewards and stakes
kept from the blocks a node's JSON interface returns.

The SQL engine is faithful: an integer column holds the integer written to it,
and a statement that fails changes nothing. What `database/sql` refuses to bind,
a `uint64` with its high bit set, is refused here. A query without ORDER BY
returns its rows in some order, which is a parameter.
-/
import Drana.Rpc
import Drana.Nonces

namespace Drana

/-! ## Blocks as the node returns them -/

/-- A transaction as a client decodes it; what was left out as empty is empty. -/
structure TransactionResponse where
  hash : String
  type : String
  sender : String
  recipient : String := ""
  postID : String := ""
  parentPostID : String := ""
  text : String := ""
  channel : String := ""
  amount : UInt64
  nonce : UInt64
  blockHeight : UInt64

structure BlockResponse where
  height : UInt64
  hash : String
  prevHash : String
  proposerAddr : String
  timestamp : Int64
  stateRoot : String
  txRoot : String
  txCount : Nat
  transactions : List TransactionResponse := []

/-- `addrString`. -/
def addrString (a : Address) : String := a.toString

def txToResponse (E : Env) (tx : Transaction) (blockHeight : UInt64) : TransactionResponse :=
  let resp : TransactionResponse := {
    hash := hexEncode (tx.hash E).toList, type := txTypeString tx.type, sender := addrString tx.sender
    amount := tx.amount, nonce := tx.nonce, blockHeight }
  match tx.kind with
  | some .transfer => { resp with recipient := addrString tx.recipient }
  | some .createPost =>
    { resp with
      text := jsonText tx.text, channel := jsonText tx.channel
      parentPostID := if tx.postID ≠ .zero then hexEncode tx.postID.toList else "" }
  | some .boostPost => { resp with postID := hexEncode tx.postID.toList }
  | _ => resp

def blockToResponse (E : Env) (block : Block) (includeTxs : Bool) : BlockResponse where
  height := block.header.height
  hash := hexEncode (block.header.hash E).toList
  prevHash := hexEncode block.header.prevHash.toList
  proposerAddr := addrString block.header.proposerAddr
  timestamp := block.header.timestamp
  stateRoot := hexEncode block.header.stateRoot.toList
  txRoot := hexEncode block.header.txRoot.toList
  txCount := block.transactions.length
  transactions := if includeTxs then block.transactions.map (txToResponse E · block.header.height) else []

/-! ## The tables -/

/-- What `IndexBlock` says of a post. -/
structure IndexedPost where
  postID : String
  author : String
  text : String
  channel : String
  parentPostID : String
  createdAtHeight : UInt64
  createdAtTime : Int64
  totalStaked : UInt64
  authorStaked : UInt64
  thirdPartyStaked : UInt64 := 0
  stakerCount : UInt64
  uniqueBoosterCount : Nat := 0
  lastBoostAtHeight : UInt64 := 0
  replyCount : Nat := 0
  withdrawn : Bool := false
  totalBurned : UInt64

/-- A row of `posts`, without its key. Its figures are natural numbers; the columns
end at 2^63 - 1, and what they come to beyond is left out. -/
structure PostRow where
  author : String
  text : String
  channel : String
  parentPostID : String
  createdAtHeight : Nat
  createdAtTime : Int64
  totalStaked : Nat
  authorStaked : Nat
  thirdPartyStaked : Nat
  stakerCount : Nat
  uniqueBoosterCount : Nat
  lastBoostAtHeight : Nat
  replyCount : Nat
  withdrawn : Bool
  totalBurned : Nat

/-- The values of an INSERT into `posts`. -/
def IndexedPost.row (p : IndexedPost) : PostRow where
  author := p.author
  text := p.text
  channel := p.channel
  parentPostID := p.parentPostID
  createdAtHeight := p.createdAtHeight.toNat
  createdAtTime := p.createdAtTime
  totalStaked := p.totalStaked.toNat
  authorStaked := p.authorStaked.toNat
  thirdPartyStaked := p.thirdPartyStaked.toNat
  stakerCount := p.stakerCount.toNat
  uniqueBoosterCount := p.uniqueBoosterCount
  lastBoostAtHeight := p.lastBoostAtHeight.toNat
  replyCount := p.replyCount
  withdrawn := p.withdrawn
  totalBurned := p.totalBurned.toNat

/-- What `IndexBlock` says of a boost: a row of `boosts` with its key. -/
structure IndexedBoost where
  postID : String
  booster : String
  amount : UInt64
  authorReward : UInt64
  stakerReward : UInt64
  burnAmount : UInt64
  stakedAmount : UInt64
  blockHeight : UInt64
  blockTime : Int64
  txHash : String

structure IndexedTransfer where
  txHash : String
  sender : String
  recipient : String
  amount : UInt64
  blockHeight : UInt64
  blockTime : Int64

structure RewardEvent where
  postID : String
  recipient : String
  amount : UInt64
  blockHeight : UInt64
  blockTime : Int64
  triggerTx : String
  triggerAddress : String
  type : String

/-- A row of `post_stakes`, without its key. -/
structure PostStakeRecord where
  amount : Nat
  height : Nat

structure DB where
  posts : GoMap String PostRow := ∅
  boosts : GoMap String IndexedBoost := ∅
  transfers : GoMap String IndexedTransfer := ∅
  rewardEvents : List RewardEvent := []
  postStakes : GoMap (String × String) PostStakeRecord := ∅
  lastIndexedHeight : UInt64 := 0

/-- The order in which a query returns the rows of `post_stakes`. -/
abbrev RowOrder := MapRange (String × String) PostStakeRecord

namespace DB

/-- What `database/sql` takes as an argument. -/
def binds (args : List UInt64) : Bool := args.all (·.toNat < 2 ^ 63)

def getPost (db : DB) (postID : String) : Option PostRow := db.posts.lookup postID

/-- `UPDATE posts SET … WHERE post_id = ?`. -/
def updatePost (db : DB) (postID : String) (set : PostRow → PostRow) : DB :=
  match db.getPost postID with
  | some row => { db with posts := db.posts.insert postID (set row) }
  | none => db

/-- A row already there stays as it is; the parent's count grows either way. -/
def insertPost (db : DB) (p : IndexedPost) : DB :=
  if binds [p.createdAtHeight, p.totalStaked, p.authorStaked, p.thirdPartyStaked, p.stakerCount,
      p.lastBoostAtHeight, p.totalBurned] then
    let db := if p.postID ∈ db.posts then db else { db with posts := db.posts.insert p.postID p.row }
    if p.parentPostID ≠ "" then
      db.updatePost p.parentPostID fun row => { row with replyCount := row.replyCount + 1 }
    else db
  else db

/-- `SELECT COUNT(DISTINCT booster) FROM boosts WHERE post_id = ?`. -/
def boosterCount (db : DB) (postID : String) : Nat :=
  ((db.boosts.pairs.filter fun e => e.2.postID = postID).map (·.2.booster)).toFinset.card

/-- One SQL transaction: all of it or nothing. -/
def insertBoost (db : DB) (b : IndexedBoost) (postAuthor : String) : DB :=
  if binds [b.amount, b.authorReward, b.stakerReward, b.burnAmount, b.stakedAmount, b.blockHeight] then
    let db := if b.txHash ∈ db.boosts then db else { db with boosts := db.boosts.insert b.txHash b }
    let staked := b.stakedAmount.toNat
    let db := db.updatePost b.postID fun row =>
      if b.booster = postAuthor then
        { row with
          totalStaked := row.totalStaked + staked, authorStaked := row.authorStaked + staked
          totalBurned := row.totalBurned + b.burnAmount.toNat
          stakerCount := row.stakerCount + 1, lastBoostAtHeight := b.blockHeight.toNat }
      else
        { row with
          totalStaked := row.totalStaked + staked, thirdPartyStaked := row.thirdPartyStaked + staked
          totalBurned := row.totalBurned + b.burnAmount.toNat
          stakerCount := row.stakerCount + 1, lastBoostAtHeight := b.blockHeight.toNat }
    db.updatePost b.postID fun row => { row with uniqueBoosterCount := db.boosterCount b.postID }
  else db

def insertTransfer (db : DB) (t : IndexedTransfer) : DB :=
  if binds [t.amount, t.blockHeight] then
    if t.txHash ∈ db.transfers then db else { db with transfers := db.transfers.insert t.txHash t }
  else db

def insertRewardEvent (db : DB) (e : RewardEvent) : DB :=
  if binds [e.amount, e.blockHeight] then { db with rewardEvents := db.rewardEvents ++ [e] } else db

/-- A new position, or the old one grown. -/
def upsertPostStake (db : DB) (postID staker : String) (amount height : UInt64) : DB :=
  if binds [amount, height] then
    let old := (db.postStakes.lookup (postID, staker)).elim 0 (·.amount)
    { db with postStakes := db.postStakes.insert (postID, staker) ⟨old + amount.toNat, height.toNat⟩ }
  else db

def removePostStake (db : DB) (postID staker : String) : DB :=
  { db with postStakes := db.postStakes.erase (postID, staker) }

/-- The rows of a post, each with its staker. -/
def getPostStakePositions (ord : RowOrder) (db : DB) (postID : String) : List (String × PostStakeRecord) :=
  ((ord.list db.postStakes).filter fun e => e.1.1 = postID).map fun e => (e.1.2, e.2)

def removeAllPostStakes (ord : RowOrder) (db : DB) (postID : String) : DB :=
  (db.getPostStakePositions ord postID).foldl (fun db s => db.removePostStake postID s.1) db

/-- The `UPDATE` of an author's withdrawal. -/
def setWithdrawn (db : DB) (postID : String) : DB :=
  db.updatePost postID fun row =>
    { row with withdrawn := true, totalStaked := 0, authorStaked := 0, thirdPartyStaked := 0, stakerCount := 0 }

def setLastIndexedHeight (db : DB) (h : UInt64) : DB := { db with lastIndexedHeight := h }

end DB

/-! ## Indexing a block -/

structure Follower where
  postFeePercent : UInt64
  boostBurnPct : UInt64
  boostAuthorPct : UInt64
  boostStakerPct : UInt64

/-- The ID of the post a CreatePost made, from its sender and nonce; empty if the sender does not parse. -/
def findPostID (E : Env) (senderDisplay : String) (nonce : UInt64) : String :=
  match parseAddress E senderDisplay with
  | .ok addr => hexEncode (derivePostID E addr nonce).toList
  | .error _ => ""

namespace Follower

variable (f : Follower)

def indexTransfer (db : DB) (height : UInt64) (time : Int64) (tx : TransactionResponse) : DB :=
  db.insertTransfer ⟨tx.hash, tx.sender, tx.recipient, tx.amount, height, time⟩

def indexCreatePost (E : Env) (db : DB) (height : UInt64) (time : Int64) (tx : TransactionResponse) : DB :=
  let postID := findPostID E tx.sender tx.nonce
  if postID = "" then db
  else
    let fee := mulDiv tx.amount f.postFeePercent 100
    let stakedAmount := tx.amount - fee
    let db := db.insertPost {
      postID, author := tx.sender, text := tx.text, channel := tx.channel, parentPostID := tx.parentPostID
      createdAtHeight := height, createdAtTime := time
      totalStaked := stakedAmount, authorStaked := stakedAmount, stakerCount := 1, totalBurned := fee }
    db.upsertPostStake postID tx.sender stakedAmount height

/-- The author's share of a boost, if there is one to pay and an author known. -/
def rewardAuthor (db : DB) (height : UInt64) (time : Int64) (tx : TransactionResponse) (author : String)
    (authorReward : UInt64) : DB :=
  if authorReward > 0 ∧ author ≠ "" then
    db.insertRewardEvent ⟨tx.postID, author, authorReward, height, time, tx.hash, tx.sender, "author"⟩
  else db

/-- One staker's share. -/
def rewardStaker (height : UInt64) (time : Int64) (tx : TransactionResponse) (stakerReward totalStaked : UInt64)
    (db : DB) (s : String × PostStakeRecord) : DB :=
  let share := mulDiv stakerReward (UInt64.ofNat s.2.amount) totalStaked
  if share > 0 then
    db.insertRewardEvent ⟨tx.postID, s.1, share, height, time, tx.hash, tx.sender, "staker"⟩
  else db

/-- The stakers' shares, in proportion to their rows. -/
def rewardStakers (ord : RowOrder) (db : DB) (height : UInt64) (time : Int64) (tx : TransactionResponse)
    (post : Option PostRow) (stakerReward : UInt64) : DB :=
  if stakerReward > 0 ∧ post.isSome then
    let stakers := db.getPostStakePositions ord tx.postID
    let totalStaked := stakers.foldl (fun total s => total + UInt64.ofNat s.2.amount) 0
    if totalStaked > 0 then stakers.foldl (rewardStaker height time tx stakerReward totalStaked) db else db
  else db

def indexBoostPost (ord : RowOrder) (db : DB) (height : UInt64) (time : Int64) (tx : TransactionResponse) : DB :=
  if tx.postID = "" then db
  else
    let post := db.getPost tx.postID
    let author := post.elim "" (·.author)
    let burnAmount := mulDiv tx.amount f.boostBurnPct 100
    let authorReward := mulDiv tx.amount f.boostAuthorPct 100
    let stakerReward := mulDiv tx.amount f.boostStakerPct 100
    let stakedAmount := tx.amount - burnAmount - authorReward - stakerReward
    let db := db.insertBoost
      ⟨tx.postID, tx.sender, tx.amount, authorReward, stakerReward, burnAmount, stakedAmount, height, time, tx.hash⟩
        author
    let db := rewardAuthor db height time tx author authorReward
    let db := rewardStakers ord db height time tx post stakerReward
    db.upsertPostStake tx.postID tx.sender stakedAmount height

def indexUnstakePost (ord : RowOrder) (db : DB) (tx : TransactionResponse) : DB :=
  if tx.postID = "" then db
  else if (db.getPost tx.postID).any fun post => tx.sender = post.author then
    (db.removeAllPostStakes ord tx.postID).setWithdrawn tx.postID
  else db.removePostStake tx.postID tx.sender

/-- One turn of the loop of `IndexBlock`. -/
def indexTransaction (E : Env) (ord : RowOrder) (height : UInt64) (time : Int64) (db : DB)
    (tx : TransactionResponse) : DB :=
  if tx.type = "transfer" then indexTransfer db height time tx
  else if tx.type = "create_post" then f.indexCreatePost E db height time tx
  else if tx.type = "boost_post" then f.indexBoostPost ord db height time tx
  else if tx.type = "unstake_post" then indexUnstakePost ord db tx
  -- Names and validator stakes are read from the node.
  else db

/-- The loop of `IndexBlock`, from transaction `i` on. -/
def indexTransactions (E : Env) (ord : Nat → RowOrder) (height : UInt64) (time : Int64) :
    Nat → DB → List TransactionResponse → DB
  | _, db, [] => db
  | i, db, tx :: txs =>
    indexTransactions E ord height time (i + 1) (f.indexTransaction E (ord i) height time db tx) txs

def indexBlock (E : Env) (ord : Nat → RowOrder) (db : DB) (height : UInt64) (block : BlockResponse) : DB :=
  (f.indexTransactions E ord height block.timestamp 0 db block.transactions).setLastIndexedHeight height

/-- Blocks indexed in order, from the `i`th on. -/
def indexBlocks (E : Env) (ord : Nat → Nat → RowOrder) : Nat → DB → List Block → DB
  | _, db, [] => db
  | i, db, block :: blocks =>
    indexBlocks E ord (i + 1) (f.indexBlock E (ord i) db block.header.height (blockToResponse E block true)) blocks

end Follower
end Drana
