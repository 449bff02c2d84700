/-
The accounts, posts and transactions that a node and the indexer answer with
(`internal/rpc/types.go`, `internal/indexer/types.go`), and which of them the web
client reads as they were written.
-/
import Drana.Feed
import Drana.IndexRuns
import Drana.Reviver

namespace Drana

open Except (wrapErr)

/-! ## Responses -/

structure AccountResponse where
  address : String
  balance : UInt64
  nonce : UInt64
  name : String := ""
  stakedBalance : UInt64 := 0
  postStakeBalance : UInt64 := 0

/-- The response of `handleGetAccount` and `handleGetAccountByName` for an account. -/
def accountToResponse (acct : Account) : AccountResponse where
  address := acct.address.toString
  balance := acct.balance
  nonce := acct.nonce
  name := jsonText acct.name
  stakedBalance := acct.stakedBalance
  postStakeBalance := acct.postStakeBalance

def handleGetAccount (E : Env) (ws : WorldState) (addrStr : String) : Except String AccountResponse := do
  let addr ← wrapErr ("invalid address: " ++ ·) (parseAddress E addrStr)
  match ws.getAccount addr with
  | none => return { address := addr.toString, balance := 0, nonce := 0 }
  | some acct => return accountToResponse acct

def AccountResponse.fields (r : AccountResponse) : Fields := List.flatten [
  [("address", .string r.address), ("balance", .uint64 r.balance), ("nonce", .uint64 r.nonce)],
  omittingEmpty "name" (.string r.name),
  [("stakedBalance", .uint64 r.stakedBalance), ("postStakeBalance", .uint64 r.postStakeBalance)]]

def PostResponse.fields (r : PostResponse) : Fields := List.flatten [
  [("postId", .string r.postID), ("author", .string r.author), ("text", .string r.text)],
  omittingEmpty "channel" (.string r.channel), omittingEmpty "parentPostId" (.string r.parentPostID),
  [("createdAtHeight", .uint64 r.createdAtHeight), ("createdAtTime", .int r.createdAtTime.toInt),
    ("totalStaked", .uint64 r.totalStaked), ("totalBurned", .uint64 r.totalBurned),
      ("stakerCount", .uint64 r.stakerCount)],
  omittingEmpty "withdrawn" (.bool r.withdrawn)]

def TransactionResponse.fields (r : TransactionResponse) : Fields := List.flatten [
  [("hash", .string r.hash), ("type", .string r.type), ("sender", .string r.sender)],
  omittingEmpty "recipient" (.string r.recipient), omittingEmpty "postId" (.string r.postID),
  omittingEmpty "parentPostId" (.string r.parentPostID), omittingEmpty "text" (.string r.text),
  omittingEmpty "channel" (.string r.channel),
  [("amount", .uint64 r.amount), ("nonce", .uint64 r.nonce)],
  omittingEmpty "blockHeight" (.uint64 r.blockHeight)]

/-- A row as a query reads it. -/
def PostRow.post (postID : String) (row : PostRow) : IndexedPost where
  postID
  author := row.author
  text := row.text
  channel := row.channel
  parentPostID := row.parentPostID
  createdAtHeight := UInt64.ofNat row.createdAtHeight
  createdAtTime := row.createdAtTime
  totalStaked := UInt64.ofNat row.totalStaked
  authorStaked := UInt64.ofNat row.authorStaked
  thirdPartyStaked := UInt64.ofNat row.thirdPartyStaked
  stakerCount := UInt64.ofNat row.stakerCount
  uniqueBoosterCount := row.uniqueBoosterCount
  lastBoostAtHeight := UInt64.ofNat row.lastBoostAtHeight
  replyCount := row.replyCount
  withdrawn := row.withdrawn
  totalBurned := UInt64.ofNat row.totalBurned

/-- A post of the indexer. With its score, a number, it is a `RankedPost`. -/
def IndexedPost.fields (p : IndexedPost) : Fields := List.flatten [
  [("postId", .string p.postID), ("author", .string p.author), ("text", .string p.text)],
  omittingEmpty "channel" (.string p.channel), omittingEmpty "parentPostId" (.string p.parentPostID),
  [("createdAtHeight", .uint64 p.createdAtHeight), ("createdAtTime", .int p.createdAtTime.toInt),
    ("totalStaked", .uint64 p.totalStaked), ("authorStaked", .uint64 p.authorStaked),
    ("thirdPartyStaked", .uint64 p.thirdPartyStaked), ("stakerCount", .uint64 p.stakerCount),
    ("uniqueBoosterCount", .int p.uniqueBoosterCount), ("lastBoostAtHeight", .uint64 p.lastBoostAtHeight),
    ("replyCount", .int p.replyCount), ("withdrawn", .bool p.withdrawn), ("totalBurned", .uint64 p.totalBurned)]]

/-! ## What is no numeral -/

theorem not_numeralText_of_mem {s : String} {c : Char} (hc : c ∈ s.toList) (hdigit : c.isDigit = false) :
    ¬ NumeralText s := by
  intro h
  have hall := List.all_eq_true.mp h.2.1 c hc
  rw [hdigit] at hall
  cases hall

@[simp] theorem not_numeralText_empty : ¬ NumeralText "" := by decide

@[simp] theorem not_numeralText_address (a : Address) : ¬ NumeralText a.toString := by
  have hmem : 'd' ∈ a.toString.toList := by
    rw [Address.toString, String.toList_append]
    exact List.mem_append_left _ (by decide)
  exact not_numeralText_of_mem hmem rfl

/-- 64 digits are too many. -/
@[simp] theorem not_numeralText_hash (h : ByteArr 32) : ¬ NumeralText (hexEncode h.toList) := by
  intro hn
  have hlen := hn.2.2.1
  rw [length_hexEncode] at hlen
  simp at hlen

@[simp] theorem not_numeralText_parent (p : PostID) : ¬ NumeralText (if p = .zero then "" else hexEncode p.toList) := by
  split
  · decide
  · exact not_numeralText_hash p

@[simp] theorem not_numeralText_type (t : UInt8) : ¬ NumeralText (txTypeString t) := by
  rw [txTypeString]
  split
  · next k _ => cases k <;> decide
  · refine not_numeralText_of_mem (c := 'u') ?_ rfl
    simp only [String.toList_append, List.mem_append]
    exact .inl (.inl (by decide))

@[simp] theorem not_numeralText_findPostID {E : Env} {s : String} {n : UInt64} : ¬ NumeralText (findPostID E s n) := by
  rw [findPostID]
  split
  · exact not_numeralText_hash _
  · decide

/-! ## Responses that survive -/

section

variable {E : Env}

theorem accountToResponse_survives {acct : Account} :
    Survives (accountToResponse acct).fields ↔ ¬ NumeralText (jsonText acct.name) := by
  simp [AccountResponse.fields, accountToResponse]

theorem postToResponse_survives {post : Post} :
    Survives (postToResponse post).fields ↔ ¬ NumeralText (jsonText post.text) ∧
    ¬ NumeralText (jsonText post.channel) := by
  simp [PostResponse.fields, postToResponse, addrString]

theorem txToResponse_survives {tx : Transaction} {height : UInt64} :
    Survives (txToResponse E tx height).fields ↔
      (tx.kind = some .createPost → ¬ NumeralText (jsonText tx.text) ∧ ¬ NumeralText (jsonText tx.channel)) := by
  unfold txToResponse
  split
  · next hk => simp [TransactionResponse.fields, hk, addrString]
  · next hk => simp [TransactionResponse.fields, hk, addrString]
  · next hk => simp [TransactionResponse.fields, hk, addrString]
  · next hcreate _ =>
    have hother : tx.kind ≠ some .createPost := hcreate
    simp [TransactionResponse.fields, hother, addrString]

/-- A row that tells of a CreatePost. -/
structure TellsOf (E : Env) (tx : Transaction) (postID : String) (row : PostRow) : Prop where
  postID : postID = findPostID E (addrString tx.sender) tx.nonce
  author : row.author = addrString tx.sender
  text : row.text = jsonText tx.text
  channel : row.channel = jsonText tx.channel
  parentPostID : row.parentPostID = if tx.postID ≠ .zero then hexEncode tx.postID.toList else ""

theorem TellsOf.survives {tx : Transaction} {postID : String} {row : PostRow} (h : TellsOf E tx postID row) :
    Survives (row.post postID).fields ↔ ¬ NumeralText (jsonText tx.text) ∧ ¬ NumeralText (jsonText tx.channel) := by
  simp [IndexedPost.fields, PostRow.post, h.postID, h.author, h.text, h.channel, h.parentPostID, addrString]

/-! ## The rows of the indexer -/

/-- Every row tells of a CreatePost among those that satisfy `P`. -/
def RowsTell (E : Env) (P : Transaction → Prop) (db : DB) : Prop :=
  ∀ postID row, db.getPost postID = some row → ∃ tx, P tx ∧ tx.kind = some .createPost ∧ TellsOf E tx postID row

namespace RowsTell

variable {P : Transaction → Prop} {db db' : DB} {f : Follower} {rows : RowOrder} {height : UInt64} {time : Int64}
  {tx : Transaction}

theorem congr (h : RowsTell E P db) (hposts : db'.posts = db.posts) : RowsTell E P db' := by
  intro postID row hrow
  rw [DB.getPost, hposts] at hrow
  exact h postID row hrow

/-- An update of other columns. -/
theorem updatePost (h : RowsTell E P db) {postID : String} {set : PostRow → PostRow}
    (hset : ∀ row, (set row).author = row.author ∧ (set row).text = row.text ∧ (set row).channel = row.channel ∧
      (set row).parentPostID = row.parentPostID) : RowsTell E P (db.updatePost postID set) := by
  intro k row hrow
  rw [DB.getPost_updatePost] at hrow
  split at hrow
  · next hk =>
    obtain ⟨old, hold, rfl⟩ := Option.map_eq_some_iff.mp hrow
    obtain ⟨tx, hP, hkind, htells⟩ := h postID old hold
    obtain ⟨hauthor, htext, hchannel, hparent⟩ := hset old
    refine ⟨tx, hP, hkind, hk ▸ htells.postID, ?_, ?_, ?_, ?_⟩
    · rw [hauthor, htells.author]
    · rw [htext, htells.text]
    · rw [hchannel, htells.channel]
    · rw [hparent, htells.parentPostID]
  · exact h k row hrow

theorem insertPost (h : RowsTell E P db) {p : IndexedPost}
    (hp : ∃ tx, P tx ∧ tx.kind = some .createPost ∧ TellsOf E tx p.postID p.row) : RowsTell E P (db.insertPost p) := by
  have hins : RowsTell E P (if p.postID ∈ db.posts then db else { db with posts := db.posts.insert p.postID p.row }) := by
    split
    · exact h
    · intro k row hrow
      by_cases hk : k = p.postID
      · subst hk
        obtain rfl : p.row = row := by
          rw [DB.getPost, Finmap.lookup_insert] at hrow
          exact Option.some.inj hrow
        exact hp
      · rw [DB.getPost, Finmap.lookup_insert_of_ne _ hk] at hrow
        exact h k row hrow
  unfold DB.insertPost
  split
  · dsimp only
    split
    · exact hins.updatePost fun row => ⟨rfl, rfl, rfl, rfl⟩
    · exact hins
  · exact h

theorem insertBoost (h : RowsTell E P db) {b : IndexedBoost} {author : String} :
    RowsTell E P (db.insertBoost b author) := by
  unfold DB.insertBoost
  split
  · have hins : RowsTell E P (if b.txHash ∈ db.boosts then db else
        { db with boosts := db.boosts.insert b.txHash b }) := by
      refine h.congr ?_
      split <;> rfl
    refine (hins.updatePost fun row => ?_).updatePost fun row => ⟨rfl, rfl, rfl, rfl⟩
    split <;> exact ⟨rfl, rfl, rfl, rfl⟩
  · exact h

/-- One turn of the loop of `IndexBlock`, from the response for a transaction. -/
theorem indexTransaction (h : RowsTell E P db) (hP : P tx) :
    RowsTell E P (f.indexTransaction E rows height time db (txToResponse E tx height)) := by
  cases hk : tx.kind with
  | none =>
    have htype (k : TxKind) : (txToResponse E tx height).type ≠ k.name := by
      have hmem : '(' ∈ (txToResponse E tx height).type.toList := by
        have hname : (txToResponse E tx height).type = txTypeString tx.type := by
          simp only [txToResponse, hk]
        rw [hname, txTypeString, show txKind tx.type = none from hk]
        simp only [String.toList_append, List.mem_append]
        exact .inl (.inl (by decide))
      intro heq
      rw [heq] at hmem
      revert hmem
      cases k <;> decide
    have hsame : f.indexTransaction E rows height time db (txToResponse E tx height) = db := by
      rw [Follower.indexTransaction]
      exact (if_neg (htype .transfer)).trans <| (if_neg (htype .createPost)).trans <| (if_neg (htype .boostPost)).trans <|
        if_neg (htype .unstakePost)
    rw [hsame]
    exact h
  | some k =>
    cases k with
    | transfer =>
      rw [indexTransaction_kind hk]
      exact h.congr DB.insertTransfer_same.posts
    | createPost =>
      rw [indexTransaction_kind hk]
      show RowsTell E P (f.indexCreatePost E db height time (txToResponse E tx height))
      have hresp : (txToResponse E tx height).sender = addrString tx.sender ∧
          (txToResponse E tx height).nonce = tx.nonce ∧
          (txToResponse E tx height).text = jsonText tx.text ∧ (txToResponse E tx height).channel = jsonText tx.channel ∧
          (txToResponse E tx height).parentPostID = if tx.postID ≠ .zero then hexEncode tx.postID.toList else "" := by
        simp [txToResponse, hk]
      obtain ⟨hsender, hnonce, htext, hchannel, hparent⟩ := hresp
      unfold Follower.indexCreatePost
      dsimp only
      split
      · exact h
      · refine congr ?_ DB.upsertPostStake_posts
        refine h.insertPost ⟨tx, hP, hk, ?_, hsender, htext, hchannel, hparent⟩
        show findPostID E (txToResponse E tx height).sender (txToResponse E tx height).nonce = _
        rw [hsender, hnonce]
    | boostPost =>
      rw [indexTransaction_kind hk]
      show RowsTell E P (f.indexBoostPost rows db height time (txToResponse E tx height))
      unfold Follower.indexBoostPost
      split
      · exact h
      · refine congr ?_ DB.upsertPostStake_posts
        refine congr ?_ rewardStakers_same.posts
        refine congr ?_ rewardAuthor_same.posts
        exact h.insertBoost
    | unstakePost =>
      rw [indexUnstakePost_ignored hk]
      exact h
    | registerName | stake | unstake =>
      rw [indexTransaction_kind hk]
      exact h

theorem indexTransactions (h : RowsTell E P db) {ord : Nat → RowOrder} {i : Nat} {txs : List Transaction}
    (hP : ∀ tx ∈ txs, P tx) :
    RowsTell E P (f.indexTransactions E ord height time i db (txs.map (txToResponse E · height))) := by
  induction txs generalizing i db with
  | nil => exact h
  | cons tx txs ih =>
    rw [List.forall_mem_cons] at hP
    exact ih (h.indexTransaction hP.1) hP.2

/-- Whatever blocks are indexed, each row tells of a CreatePost in one of them. -/
theorem indexBlocks (h : RowsTell E P db) {ord : Nat → Nat → RowOrder} {i : Nat} {blocks : List Block}
    (hP : ∀ block ∈ blocks, ∀ tx ∈ block.transactions, P tx) : RowsTell E P (f.indexBlocks E ord i db blocks) := by
  induction blocks generalizing i db with
  | nil => exact h
  | cons block blocks ih =>
    rw [List.forall_mem_cons] at hP
    refine ih ?_ hP.2
    exact congr (h.indexTransactions hP.1) rfl

end RowsTell

end

/-! ## What validation admits -/

section

variable {E : Env} {params : GenesisConfig}

/-- No name, or one that is valid. A channel is checked as a name is. -/
def NameAdmitted (name : GoString) : Prop := name = .empty ∨ validateName name = .ok ()

/-- The text and the channel of a post. -/
def PostAdmitted (E : Env) (params : GenesisConfig) (text channel : GoString) : Prop :=
  validatePostText E text params.maxPostLength params.maxPostBytes = .ok () ∧ NameAdmitted channel

theorem checkNameRunes_valid {l : List (Nat × Option Nat)} (h : checkNameRunes l = .ok ()) :
    l.all (·.2.isSome) = true := by
  induction l with
  | nil => rfl
  | cons r l ih =>
    obtain ⟨i, r⟩ := r
    simp only [checkNameRunes, Except.bind_ok_iff, Except.throwIf_ok_iff] at h
    obtain ⟨u, hrune, hrest⟩ := h
    cases r with
    | none => exact absurd rfl hrune
    | some c => simpa using ih hrest

theorem NameAdmitted.valid {name : GoString} (h : NameAdmitted name) : validString name = true := by
  rcases h with rfl | h
  · rfl
  · simp only [validateName, Except.bind_ok_iff] at h
    obtain ⟨-, -, -, -, u, hrunes, -⟩ := h
    exact checkNameRunes_valid hrunes

theorem validatePostText_valid {text : GoString} {n m : Int64} (h : validatePostText E text n m = .ok ()) :
    validString text = true := by
  simp only [validatePostText, Except.bind_ok_iff, Except.throwIf_ok_iff] at h
  obtain ⟨-, hvalid, -⟩ := h
  simpa using hvalid

/-- What a transaction that is valid says is admitted. -/
theorem validateTransaction_admitted {tx : Transaction} {sr : StateReader} {u : Unit}
    (h : validateTransaction E tx sr params = .ok u) (hk : tx.kind = some .createPost) :
    PostAdmitted E params tx.text tx.channel := by
  rw [validateTransaction, hk] at h
  simp only [validateCreatePost, Except.bind_ok_iff, Except.wrapErr_ok_iff] at h
  obtain ⟨-, -, u₁, htext, u₂, hchannel, -⟩ := h
  refine ⟨htext, ?_⟩
  unfold validateChannel at hchannel
  split at hchannel
  · exact .inr (Except.wrapErr_ok_iff.mp hchannel)
  · next hempty => exact .inl (not_not.mp hempty)

/-- A transaction that shows a text shows one that is admitted. -/
def TxAdmitted (E : Env) (params : GenesisConfig) (tx : Transaction) : Prop :=
  tx.kind = some .createPost → PostAdmitted E params tx.text tx.channel

end

/-- **A response survives** exactly where no name, text or channel in it is a numeral below 2^53. -/
theorem responses_survive_iff (E : Env) (params : GenesisConfig) :
    (∀ acct : Account, NameAdmitted acct.name →
      utf8Encode (accountToResponse acct).name = acct.name.bytes ∧
      (Survives (accountToResponse acct).fields ↔ ¬ Numeral acct.name)) ∧
    (∀ post : Post, PostAdmitted E params post.text post.channel →
      utf8Encode (postToResponse post).text = post.text.bytes ∧
      utf8Encode (postToResponse post).channel = post.channel.bytes ∧
      (Survives (postToResponse post).fields ↔ ¬ Numeral post.text ∧ ¬ Numeral post.channel)) ∧
    (∀ (tx : Transaction) (height : UInt64), TxAdmitted E params tx →
      (Survives (txToResponse E tx height).fields ↔
        (tx.kind = some .createPost → ¬ Numeral tx.text ∧ ¬ Numeral tx.channel))) ∧
    (∀ (f : Follower) (ord : Nat → Nat → RowOrder) (blocks : List Block),
      (∀ block ∈ blocks, ∀ tx ∈ block.transactions, TxAdmitted E params tx) →
      ∀ postID row, (f.indexBlocks E ord 0 {} blocks).getPost postID = some row →
        ∃ tx, (∃ block ∈ blocks, tx ∈ block.transactions) ∧ TellsOf E tx postID row ∧
          (Survives (row.post postID).fields ↔ ¬ Numeral tx.text ∧ ¬ Numeral tx.channel)) ∧
    ∀ os : List Fields, revive (.array (os.map Fields.parsed)) = .array (os.map fun o => revive o.parsed) := by
  have hpost {text channel : GoString} (h : PostAdmitted E params text channel) :
      (¬ NumeralText (jsonText text) ∧ ¬ NumeralText (jsonText channel)) ↔ ¬ Numeral text ∧ ¬ Numeral channel := by
    rw [numeral_iff (validatePostText_valid h.1), numeral_iff h.2.valid]
  refine ⟨fun acct h => ⟨utf8Encode_jsonText h.valid, ?_⟩, fun post h =>
    ⟨utf8Encode_jsonText (validatePostText_valid h.1), utf8Encode_jsonText h.2.valid, ?_⟩, fun tx height h => ?_,
    fun f ord blocks h postID row hrow => ?_, fun os => ?_⟩
  · rw [accountToResponse_survives, numeral_iff h.valid]
  · rw [postToResponse_survives, hpost h]
  · rw [txToResponse_survives]
    exact forall_congr' fun hk => hpost (h hk)
  · have hnone : RowsTell E (fun tx => ∃ block ∈ blocks, tx ∈ block.transactions) {} := by
      intro k row hrow
      cases hrow
    obtain ⟨tx, ⟨block, hblock, htx⟩, hk, htells⟩ :=
      hnone.indexBlocks (fun block hblock tx htx => ⟨block, hblock, htx⟩) postID row hrow
    refine ⟨tx, ⟨block, hblock, htx⟩, htells, ?_⟩
    rw [htells.survives, hpost (h block hblock tx htx hk)]
  · rw [revive_array, List.map_map]
    rfl

namespace Sample

/-- A post whose text is `12345`. -/
def digitsPost : Transaction :=
  signed 1 { type := 2, sender := address 1, pubKey := (key 1).publicKey, text := ⟨[49, 50, 51, 52, 53], by decide⟩
             amount := 100, nonce := 1 }

/-- A name that is a number. -/
def digitsName : GoString := ⟨[48, 48, 55], by decide⟩

theorem digitsPost_run : (validateTransaction env digitsPost genesis.reader config).isOk = true ∧
    (applyBlocks env .go config genesis [block 1 [digitsPost]]).isOk = true := by decide +kernel

end Sample

/-- A post of the chain and a name that reach the client as numbers. -/
theorem digits_do_not_survive :
    (applyBlocks Sample.env .go Sample.config Sample.genesis [Sample.block 1 [Sample.digitsPost]]).isOk = true ∧
    TxAdmitted Sample.env Sample.config Sample.digitsPost ∧ NameAdmitted Sample.digitsName ∧
    numericReviver (.string (txToResponse Sample.env Sample.digitsPost 1).text) = .number 12345 ∧
    numericReviver (.string (jsonText Sample.digitsName)) = .number 7 ∧
    ¬ Survives (txToResponse Sample.env Sample.digitsPost 1).fields := by
  obtain ⟨u, hvalid⟩ := Except.exists_ok Sample.digitsPost_run.1
  refine ⟨Sample.digitsPost_run.2, validateTransaction_admitted hvalid, .inr rfl, rfl, rfl, fun h => ?_⟩
  have hnumeral : NumeralText (jsonText Sample.digitsPost.text) := by decide
  exact (txToResponse_survives.mp h rfl).1 hnumeral

theorem responses_survive_iff_plain : Survives (postToResponse { Sample.told with text := Sample.plain }).fields := by
  have hadmitted : PostAdmitted Sample.env Sample.config Sample.plain .empty := ⟨rfl, .inl rfl⟩
  exact (((responses_survive_iff Sample.env Sample.config).2.1
    { Sample.told with text := Sample.plain } hadmitted).2.2).mpr
    (by decide)

end Drana
