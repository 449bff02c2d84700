/-
Only such a block can be indexed again. No statement takes from a figure or
from the list of reward events; so if a second run, after the first, changes
nothing, none of its statements adds anything, and that says what is in the block.
-/
import Drana.Interruptions

namespace Drana

variable {E : Env} {f : Follower} {db db' db₀ : DB} {rows : RowOrder} {height : UInt64} {time : Int64}
  {block : BlockResponse} {tx : TransactionResponse} {k s : String}

/-! ## What only grows -/

/-- The counts of a row that only grow. -/
def PostRow.counts (row : PostRow) : Nat := row.replyCount + row.stakerCount

namespace DB

/-- What an addition or an event adds to. -/
def weight (db : DB) : Nat :=
  db.posts.total (fun _ row => row.counts) + db.postStakes.total (fun _ row => row.amount) + db.rewardEvents.length

theorem upsertPostStake_weight {n : UInt64} :
    (db.upsertPostStake k s n height).weight = db.weight + if binds [n, height] then n.toNat else 0 := by
  unfold upsertPostStake
  split
  · have htotal := @GoMap.total_insert _ _ _ (fun (_ : String × String) (row : PostStakeRecord) => row.amount)
      db.postStakes (k, s)
      ⟨db.staked k s + n.toNat, height.toNat⟩
    have hat : GoMap.at (fun (_ : String × String) (row : PostStakeRecord) => row.amount) (k, s) db.postStakes =
        db.staked k s := rfl
    rw [hat] at htotal
    unfold weight
    rw [← DB.staked]
    dsimp only at htotal ⊢
    omega
  · rfl

theorem insertRewardEvent_weight {e : RewardEvent} :
    (db.insertRewardEvent e).weight = db.weight + if binds [e.amount, e.blockHeight] then 1 else 0 := by
  unfold insertRewardEvent
  split
  · simp only [weight, List.length_append, List.length_singleton]
    omega
  · rfl

theorem updatePost_weight {set : PostRow → PostRow} {row : PostRow} (hrow : db.getPost k = some row) :
    (db.updatePost k set).weight + row.counts = db.weight + (set row).counts := by
  have htotal := @GoMap.total_insert _ _ _ (fun (_ : String) (row : PostRow) => row.counts) db.posts k (set row)
  have hat : GoMap.at (fun (_ : String) (row : PostRow) => row.counts) k db.posts = row.counts := by
    rw [GoMap.at, show db.posts.lookup k = some row from hrow, Option.elim_some]
  rw [hat] at htotal
  simp only [updatePost, hrow, weight]
  omega

end DB

/-- No row is lost, and nothing taken away. -/
structure Grows (db db' : DB) : Prop where
  posts : ∀ k, k ∈ db.posts → k ∈ db'.posts
  weight : db.weight ≤ db'.weight

namespace Grows

theorem refl : Grows db db := ⟨fun _ hk => hk, Nat.le_refl _⟩

theorem trans {db₁ : DB} (h : Grows db db₁) (h' : Grows db₁ db') : Grows db db' :=
  ⟨fun k hk => h'.posts k (h.posts k hk), h.weight.trans h'.weight⟩

end Grows

/-- Every post has an author. -/
def Authored (db : DB) : Prop := ∀ k row, db.getPost k = some row → row.author ≠ ""

/-- What the statements of a node's block keep: a new post has an author, an
update leaves the author and takes from no count, nothing else concerns posts. -/
structure Kept (I : DB → Prop) : Prop where
  tables : ∀ db db' : DB, db'.posts = db.posts → db.weight ≤ db'.weight → db'.lastIndexedHeight = db.lastIndexedHeight →
    I db → I db'
  post : ∀ (db : DB) (p : IndexedPost), p.author ≠ "" → I db → I (db.insertPostRow p)
  update : ∀ (db : DB) (k : String) (set : PostRow → PostRow),
    (∀ row, (set row).author = row.author ∧ row.counts ≤ (set row).counts) → I db → I (db.updatePost k set)

theorem mem_updatePost {set : PostRow → PostRow} {k' : String} (h : k' ∈ db.posts) :
    k' ∈ (db.updatePost k set).posts := by
  unfold DB.updatePost
  split
  · exact Finmap.mem_insert.mpr (.inr h)
  · exact h

theorem mem_insertPostRow {p : IndexedPost} : k ∈ (db.insertPostRow p).posts ↔ k = p.postID ∨ k ∈ db.posts := by
  unfold DB.insertPostRow
  split
  · next hp =>
    constructor
    · exact .inr
    · rintro (rfl | hk)
      · exact hp
      · exact hk
  · exact Finmap.mem_insert

theorem insertPostRow_weight {p : IndexedPost} : db.weight ≤ (db.insertPostRow p).weight := by
  unfold DB.insertPostRow
  split
  · exact Nat.le_refl _
  · next hp =>
    have htotal := GoMap.total_insert_of_notMem (f := fun (_ : String) (row : PostRow) => row.counts) (v := p.row) hp
    simp only [DB.weight]
    omega

theorem kept_grows : Kept (Grows db₀) where
  tables db db' hposts hweight _ h := h.trans ⟨fun k hk => by rwa [hposts], hweight⟩
  post db p _ h := h.trans ⟨fun k hk => mem_insertPostRow.mpr (.inr hk), insertPostRow_weight⟩
  update db k set hset h := by
    refine h.trans ⟨fun k' hk' => mem_updatePost hk', ?_⟩
    cases hrow : db.getPost k with
    | none => rw [DB.updatePost, hrow]
    | some row =>
      have hweight := @DB.updatePost_weight db k set row hrow
      have hcounts := (hset row).2
      omega

theorem kept_authored : Kept Authored where
  tables db db' hposts _ _ h := by
    intro k row hrow
    rw [DB.getPost, hposts] at hrow
    exact h k row hrow
  post db p hp h := by
    intro k row hrow
    unfold DB.insertPostRow at hrow
    split at hrow
    · exact h k row hrow
    · by_cases hk : k = p.postID
      · rw [DB.getPost, hk, Finmap.lookup_insert] at hrow
        cases hrow
        exact hp
      · rw [DB.getPost, Finmap.lookup_insert_of_ne _ hk] at hrow
        exact h k row hrow
  update db k set hset h := by
    intro k' row' hrow
    rw [DB.getPost_updatePost] at hrow
    split at hrow
    · obtain ⟨row, hold, rfl⟩ := Option.map_eq_some_iff.mp hrow
      rw [(hset row).1]
      exact h k row hold
    · exact h k' row' hrow

namespace Kept

variable {I : DB → Prop}

theorem upsert {n : UInt64} (h : Kept I) (hdb : I db) : I (db.upsertPostStake k s n height) := by
  refine h.tables db _ DB.upsertPostStake_posts ?_ ?_ hdb
  · rw [DB.upsertPostStake_weight]
    exact Nat.le_add_right _ _
  · unfold DB.upsertPostStake
    split <;> rfl

theorem event {e : RewardEvent} (h : Kept I) (hdb : I db) : I (db.insertRewardEvent e) := by
  refine h.tables db _ DB.insertRewardEvent_same.posts ?_ ?_ hdb
  · rw [DB.insertRewardEvent_weight]
    exact Nat.le_add_right _ _
  · unfold DB.insertRewardEvent
    split <;> rfl

theorem rewardAuthor {author : String} {n : UInt64} (h : Kept I) (hdb : I db) :
    I (Follower.rewardAuthor db height time tx author n) := by
  unfold Follower.rewardAuthor
  split
  · exact h.event hdb
  · exact hdb

theorem rewardStaker {n total : UInt64} {e : String × PostStakeRecord} (h : Kept I) (hdb : I db) :
    I (Follower.rewardStaker height time tx n total db e) := by
  simp only [Follower.rewardStaker]
  split
  · exact h.event hdb
  · exact hdb

theorem transfer (h : Kept I) (hdb : I db) : I (Follower.indexTransfer db height time tx) := by
  unfold Follower.indexTransfer DB.insertTransfer
  split
  · split
    · exact hdb
    · exact h.tables db _ rfl (Nat.le_refl _) rfl hdb
  · exact hdb

theorem boost {b : IndexedBoost} (h : Kept I) (hdb : I db) : I (db.insertBoost b s) := by
  unfold DB.insertBoost
  split
  · refine h.update _ _ _ (fun row => ⟨rfl, Nat.le_refl _⟩) (h.update _ _ _ (fun row => ?_) ?_)
    · split <;> exact ⟨rfl, by simp only [PostRow.counts]; omega⟩
    · split
      · exact hdb
      · exact h.tables db _ rfl (Nat.le_refl _) rfl hdb
  · exact hdb

theorem rewardStakers {post : Option PostRow} {n : UInt64} (h : Kept I) :
    (Follower.rewardStakersScript rows height time tx post n).Keeps I := by
  unfold Follower.rewardStakersScript
  split
  · intro db
    dsimp only
    split
    · generalize db.getPostStakePositions rows tx.postID = l
      generalize l.foldl _ _ = total
      induction l with
      | nil => trivial
      | cons e l ih => exact ⟨fun _ hdb => h.rewardStaker hdb, ih⟩
    · trivial
  · trivial

theorem post_reply {p : IndexedPost} (h : Kept I) (hp : p.author ≠ "") : (insertPostScript p).Keeps I := by
  unfold insertPostScript
  split
  · refine ⟨fun db hdb => h.post db p hp hdb, ?_⟩
    split
    · refine ⟨fun db hdb => h.update db _ _ (fun row => ⟨rfl, ?_⟩) hdb, trivial⟩
      simp only [PostRow.counts]
      omega
    · trivial
  · trivial

theorem transaction (h : Kept I) (hrep : Reported tx) : (f.transactionScript E rows height time tx).Keeps I := by
  unfold Follower.transactionScript
  split
  · exact ⟨fun _ hdb => h.transfer hdb, trivial⟩
  split
  · unfold Follower.createPostScript
    dsimp only
    split
    · trivial
    · exact .andThen (h.post_reply hrep.sender) ⟨fun _ hdb => h.upsert hdb, trivial⟩
  split
  · unfold Follower.boostPostScript
    split
    · trivial
    · intro db
      have hupsert : (Script.exec (fun db => db.upsertPostStake tx.postID tx.sender
          (f.boostOf height time tx).stakedAmount height) .done).Keeps I := ⟨fun _ hdb => h.upsert hdb, trivial⟩
      exact ⟨fun _ hdb => h.boost hdb, fun _ hdb => h.rewardAuthor hdb, h.rewardStakers.andThen hupsert⟩
  split
  · next htype =>
    have hscript : Follower.unstakePostScript rows tx = .done := if_pos (hrep.unstake htype)
    rw [hscript]
    trivial
  · trivial

theorem transactions {ord : Nat → RowOrder} {i : Nat} {txs : List TransactionResponse} (h : Kept I)
    (hrep : ∀ tx ∈ txs, Reported tx) : (f.transactionsScript E ord height time i txs).Keeps I := by
  induction txs generalizing i with
  | nil => trivial
  | cons tx txs ih =>
    rw [List.forall_mem_cons] at hrep
    exact (h.transaction hrep.1).andThen (ih hrep.2)

end Kept

/-! ## A transaction that adds nothing -/

theorem transaction_grows (hrep : Reported tx) : Grows db (f.indexTransaction E rows height time db tx) := by
  rw [← transactionScript_run]
  exact (kept_grows.transaction hrep).run .refl

theorem transactions_grow {ord : Nat → RowOrder} {i : Nat} {txs : List TransactionResponse}
    (hrep : ∀ tx ∈ txs, Reported tx) :
    Grows db (f.indexTransactions E ord height time i db txs) := by
  rw [← transactionsScript_run]
  exact (kept_grows.transactions hrep).run .refl

theorem addsNothing_of_weight {n : UInt64} (h : (if DB.binds [n, height] then n.toNat else 0) = 0) :
    AddsNothing n height := by
  intro hb
  rw [if_pos hb] at h
  exact UInt64.toNat_inj.mp h

theorem exists_getPost (h : k ∈ db.posts) : ∃ row, db.getPost k = some row :=
  Option.isSome_iff_exists.mp (Finmap.lookup_isSome.mpr h)

/-- A CreatePost whose indexing adds nothing: nothing is staked, and no reply counted. -/
theorem create_idle (hc : Creates E tx) (hrep : Reported tx)
    (h : (f.indexTransaction E rows height time db tx).weight = db.weight) :
    AddsNothing (f.postOf E height time tx).totalStaked height ∧
    (DB.takesPost (f.postOf E height time tx) = true → tx.parentPostID ≠ "" → tx.parentPostID ∉ db.posts) := by
  have hindex : f.indexTransaction E rows height time db tx = (db.insertPost (f.postOf E height time tx)).upsertPostStake
      (findPostID E tx.sender tx.nonce) tx.sender (f.postOf E height time tx).totalStaked height := by
    rw [Follower.indexTransaction, hc.1, if_neg (by decide), if_pos rfl]
    exact if_neg hc.2
  have hinsert : Grows db (db.insertPost (f.postOf E height time tx)) := by
    rw [← insertPostScript_run]
    exact (kept_grows.post_reply hrep.sender).run .refl
  have hweight := hinsert.weight
  rw [hindex, DB.upsertPostStake_weight] at h
  refine ⟨addsNothing_of_weight (by omega), fun ht hparent hmem => ?_⟩
  have hreply : db.insertPost (f.postOf E height time tx) =
      (db.insertPostRow (f.postOf E height time tx)).countReply tx.parentPostID := by
    have hparent' : (f.postOf E height time tx).parentPostID ≠ "" := hparent
    rw [← insertPostScript_run, insertPostScript, if_pos ht, if_pos hparent']
    rfl
  obtain ⟨row, hrow⟩ := exists_getPost (mem_insertPostRow.mpr (.inr hmem) :
    tx.parentPostID ∈ (db.insertPostRow (f.postOf E height time tx)).posts)
  have hcount := @DB.updatePost_weight _ _ (fun row => { row with replyCount := row.replyCount + 1 }) row hrow
  have hrowWeight := @insertPostRow_weight db (f.postOf E height time tx)
  rw [hreply, DB.countReply] at h
  simp only [PostRow.counts] at hcount
  omega

theorem rewardStaker_weight {n total : UInt64} {e : String × PostStakeRecord} :
    (Follower.rewardStaker height time tx n total db e).weight = db.weight +
      if mulDiv n (UInt64.ofNat e.2.amount) total > 0 ∧ DB.binds [mulDiv n (UInt64.ofNat e.2.amount) total, height] then 1
      else 0 := by
  simp only [Follower.rewardStaker]
  split
  · next hpos =>
    rw [DB.insertRewardEvent_weight]
    simp only [hpos, true_and]
  · next hzero => simp only [hzero, false_and, if_false, Nat.add_zero]

/-- No event was recorded: no share, or a refused one. -/
theorem addsNothing_of_event {n : UInt64} (h : (if n > 0 ∧ DB.binds [n, height] then 1 else 0) = 0) :
    AddsNothing n height := by
  intro hb
  by_contra hne
  rw [if_pos ⟨UInt64.pos_iff_ne_zero.mpr hne, hb⟩] at h
  exact absurd h (by decide)

theorem rewardStakerList_idle {n total : UInt64} {l : List (String × PostStakeRecord)} :
    db.weight ≤ (l.foldl (Follower.rewardStaker height time tx n total) db).weight ∧
    ((l.foldl (Follower.rewardStaker height time tx n total) db).weight = db.weight →
      ∀ e ∈ l, AddsNothing (mulDiv n (UInt64.ofNat e.2.amount) total) height) := by
  induction l generalizing db with
  | nil => exact ⟨Nat.le_refl _, fun _ e he => absurd he List.not_mem_nil⟩
  | cons e l ih =>
    obtain ⟨hle, hidle⟩ := @ih (Follower.rewardStaker height time tx n total db e)
    have hone := @rewardStaker_weight db height time tx n total e
    rw [List.foldl_cons]
    refine ⟨by omega, fun h => ?_⟩
    rw [List.forall_mem_cons]
    exact ⟨addsNothing_of_event (by omega), hidle (by omega)⟩

theorem rewardAuthor_weight {author : String} {n : UInt64} (ha : author ≠ "") :
    (Follower.rewardAuthor db height time tx author n).weight = db.weight +
      if n > 0 ∧ DB.binds [n, height] then 1 else 0 := by
  unfold Follower.rewardAuthor
  split
  · next hpos =>
    rw [DB.insertRewardEvent_weight]
    simp only [hpos.1, true_and]
  · next hzero =>
    have hnot : ¬ n > 0 := fun hpos => hzero ⟨hpos, ha⟩
    simp only [hnot, false_and, if_false, Nat.add_zero]

/-- Each staker's share, where there is something to share. -/
theorem rewardStakers_idle {post : Option PostRow} {n : UInt64} (hpost : post.isSome)
    (h : (Follower.rewardStakers rows db height time tx post n).weight = db.weight)
    (hpos : UInt64.ofNat (db.rowsTotal tx.postID) > 0) :
    AddsNothing (mulDiv n (UInt64.ofNat (db.staked tx.postID s)) (UInt64.ofNat (db.rowsTotal tx.postID))) height := by
  have hposNat : 0 < (UInt64.ofNat (db.rowsTotal tx.postID)).toNat := UInt64.lt_iff_toNat_lt.mp hpos
  by_cases hn : n > 0
  · unfold Follower.rewardStakers at h
    rw [if_pos ⟨hn, hpost⟩] at h
    dsimp only at h
    rw [DB.sum_rows, DB.sum_getPostStakePositions, UInt64.zero_add, if_pos hpos] at h
    cases hrow : db.postStakes.lookup (tx.postID, s) with
    | none =>
      intro _
      rw [DB.staked, hrow]
      exact mulDiv_zero hposNat
    | some row =>
      have hmem : (s, row) ∈ db.getPostStakePositions rows tx.postID := DB.mem_getPostStakePositions.mpr hrow
      have hidle := rewardStakerList_idle.2 h _ hmem
      rwa [DB.staked, hrow]
  · intro _
    have hzero : n = 0 := by
      by_contra hne
      exact hn (UInt64.pos_iff_ne_zero.mpr hne)
    rw [hzero, ← UInt64.toNat_inj, mulDiv_toNat hposNat]
    simp

theorem insertBoost_weight {b : IndexedBoost} (ht : DB.takesBoost b = true) (hmem : b.postID ∈ db.posts) :
    db.weight < (db.insertBoost b s).weight := by
  have hstart : ∀ db₁ : DB, db₁.posts = db.posts → db₁.weight = db.weight → ∀ set : PostRow → PostRow,
      (∀ row, (set row).counts = row.counts + 1) → db.weight < (db₁.updatePost b.postID set).weight := by
    intro db₁ hposts hweight set hset
    obtain ⟨row, hrow⟩ := exists_getPost (hposts ▸ hmem : b.postID ∈ db₁.posts)
    have hcount := @DB.updatePost_weight db₁ b.postID set row hrow
    have hone := hset row
    omega
  have hend : ∀ (db₁ : DB) (set : PostRow → PostRow),
      (∀ row, (set row).author = row.author ∧ row.counts ≤ (set row).counts) →
      db₁.weight ≤ (db₁.updatePost b.postID set).weight :=
        fun db₁ set hset => (kept_grows.update db₁ _ set hset .refl).weight
  unfold DB.takesBoost at ht
  unfold DB.insertBoost
  rw [if_pos ht]
  refine lt_of_lt_of_le (hstart _ ?_ ?_ _ fun row => ?_) (hend _ _ fun row => ⟨rfl, Nat.le_refl _⟩)
  · split <;> rfl
  · split <;> rfl
  · split <;> simp only [PostRow.counts] <;> omega

/-- A boost whose indexing adds nothing: nothing is staked; and if the post is
there, the boost is refused and nobody rewarded. -/
theorem boost_idle (hb : Boosts tx) (h : (f.indexTransaction E rows height time db tx).weight = db.weight) :
    AddsNothing (f.boostOf height time tx).stakedAmount height ∧
    (∀ row, db.getPost tx.postID = some row → row.author ≠ "" →
      DB.takesBoost (f.boostOf height time tx) = false ∧
      AddsNothing (f.boostOf height time tx).authorReward height ∧
      (UInt64.ofNat (db.rowsTotal tx.postID) > 0 → ∀ s, AddsNothing (mulDiv (f.boostOf height time tx).stakerReward
        (UInt64.ofNat (db.staked tx.postID s)) (UInt64.ofNat (db.rowsTotal tx.postID))) height)) := by
  obtain ⟨author, hauthor⟩ : ∃ author, author = (db.getPost tx.postID).elim "" (·.author) := ⟨_, rfl⟩
  obtain ⟨db₁, h₁⟩ : ∃ db₁, db₁ = db.insertBoost (f.boostOf height time tx) author := ⟨_, rfl⟩
  obtain ⟨db₂, h₂⟩ : ∃ db₂, db₂ = Follower.rewardAuthor db₁ height time tx author
      (f.boostOf height time tx).authorReward :=
    ⟨_, rfl⟩
  obtain ⟨db₃, h₃⟩ : ∃ db₃, db₃ = Follower.rewardStakers rows db₂ height time tx (db.getPost tx.postID)
    (f.boostOf height time tx).stakerReward := ⟨_, rfl⟩
  have hindex : f.indexTransaction E rows height time db tx =
      db₃.upsertPostStake tx.postID tx.sender (f.boostOf height time tx).stakedAmount height := by
    rw [Follower.indexTransaction, hb.1, if_neg (by decide), if_neg (by decide), if_pos rfl, Follower.indexBoostPost,
      if_neg hb.2, h₃, h₂, h₁, hauthor]
    rfl
  -- What is added is added one after the other, and comes to nothing.
  have hle₁ : db.weight ≤ db₁.weight := h₁ ▸ (kept_grows.boost .refl).weight
  have hle₂ : db₁.weight ≤ db₂.weight := h₂ ▸ (kept_grows.rewardAuthor .refl).weight
  have hle₃ : db₂.weight ≤ db₃.weight := by
    rw [h₃, ← rewardStakersScript_run]
    exact ((kept_grows.rewardStakers).run .refl).weight
  rw [hindex, DB.upsertPostStake_weight] at h
  refine ⟨addsNothing_of_weight (by omega), fun row hrow hnamed => ⟨?_, ?_, fun hpos s => ?_⟩⟩
  · by_contra ht
    rw [Bool.not_eq_false] at ht
    have hmem : tx.postID ∈ db.posts := Finmap.lookup_isSome.mp (Option.isSome_iff_exists.mpr ⟨row, hrow⟩)
    have hlt := @insertBoost_weight db author _ ht hmem
    rw [← h₁] at hlt
    omega
  · rw [hrow, Option.elim_some] at hauthor
    have hweight := @rewardAuthor_weight db₁ height time tx author (f.boostOf height time tx).authorReward
      (hauthor ▸ hnamed)
    rw [← h₂] at hweight
    exact addsNothing_of_event (by omega)
  · have hstakes : SameStakes db db₂ := by
      have htables : db₂.postStakes = db.postStakes := by
        rw [h₂, rewardAuthor_same.postStakes, h₁, DB.insertBoost_postStakes]
      exact .of_postStakes htables
    rw [← hstakes.total] at hpos
    rw [← hstakes.total, ← hstakes.staked]
    have hsome : (db.getPost tx.postID).isSome := by rw [hrow]; rfl
    exact rewardStakers_idle hsome (by rw [← h₃]; omega) hpos

/-! ## A run that adds nothing -/

/-- Each transaction of such a run meets a state to which it adds nothing. -/
theorem run_idle {J : DB → Prop} {ord : Nat → RowOrder} {i : Nat} {txs : List TransactionResponse}
    (hrep : ∀ tx ∈ txs, Reported tx) (hJ : ∀ tx ∈ txs, ∀ rows db, J db → J (f.indexTransaction E rows height time db tx))
    (hdb : J db) (h : (f.indexTransactions E ord height time i db txs).weight = db.weight) :
    ∀ tx ∈ txs, ∃ rows z, J z ∧ (f.indexTransaction E rows height time z tx).weight = z.weight := by
  induction txs generalizing i db with
  | nil => exact fun tx htx => absurd htx List.not_mem_nil
  | cons tx txs ih =>
    rw [List.forall_mem_cons] at hrep hJ
    rw [Follower.indexTransactions] at h
    have hone : db.weight ≤ (f.indexTransaction E (ord i) height time db tx).weight := (transaction_grows hrep.1).weight
    have hrest : (f.indexTransaction E (ord i) height time db tx).weight ≤
        (f.indexTransactions E ord height time (i + 1) (f.indexTransaction E (ord i) height time db tx) txs).weight :=
      (transactions_grow hrep.2).weight
    have hend : (f.indexTransactions E ord height time (i + 1) (f.indexTransaction E (ord i) height time db tx)
        txs).weight =
        (f.indexTransaction E (ord i) height time db tx).weight := by omega
    rw [List.forall_mem_cons]
    exact ⟨⟨ord i, db, hdb, by omega⟩, ih hrep.2 hJ.2 (hJ.1 (ord i) db hdb) hend⟩

theorem created_mem (hc : Creates E tx) (ht : DB.takesPost (f.postOf E height time tx) = true) :
    (f.postOf E height time tx).postID ∈ (f.indexTransaction E rows height time db tx).posts := by
  have hindex : f.indexTransaction E rows height time db tx = (db.insertPost (f.postOf E height time tx)).upsertPostStake
      (findPostID E tx.sender tx.nonce) tx.sender (f.postOf E height time tx).totalStaked height := by
    rw [Follower.indexTransaction, hc.1, if_neg (by decide), if_pos rfl]
    exact if_neg hc.2
  rw [hindex, DB.upsertPostStake_posts, ← insertPostScript_run, insertPostScript, if_pos ht]
  have hrow : (f.postOf E height time tx).postID ∈ (db.insertPostRow (f.postOf E height time tx)).posts :=
    mem_insertPostRow.mpr (.inl rfl)
  split
  · exact mem_updatePost hrow
  · exact hrow

theorem created_mem_run {ord : Nat → RowOrder} {i : Nat} {txs : List TransactionResponse} (hrep : ∀ tx ∈ txs, Reported tx)
    (htx : tx ∈ txs) (hc : Creates E tx) (ht : DB.takesPost (f.postOf E height time tx) = true) :
    (f.postOf E height time tx).postID ∈ (f.indexTransactions E ord height time i db txs).posts := by
  induction txs generalizing i db with
  | nil => exact absurd htx List.not_mem_nil
  | cons tx' txs ih =>
    rw [List.forall_mem_cons] at hrep
    rcases List.mem_cons.mp htx with rfl | htx
    · exact (transactions_grow hrep.2).posts _ (created_mem hc ht)
    · exact ih hrep.2 htx

/-- The posts known are there after a run. -/
theorem known_mem {ord : Nat → RowOrder} (hrep : ∀ tx ∈ block.transactions, Reported tx)
    (hk : Known E f db height block k) :
    k ∈ (f.indexTransactions E ord height block.timestamp 0 db block.transactions).posts := by
  rcases hk with hk | ⟨tx, htx, hc, ht, rfl⟩
  · exact (transactions_grow hrep).posts k hk
  · exact created_mem_run hrep htx hc ht

/-- Where nothing is staked, the stakes are the same after it. -/
theorem transaction_stakes (hrep : Reported tx)
    (hc : Creates E tx → AddsNothing (f.postOf E height time tx).totalStaked height)
    (hb : Boosts tx → AddsNothing (f.boostOf height time tx).stakedAmount height) :
    SameStakes db (f.indexTransaction E rows height time db tx) := by
  have hupsert : ∀ (db : DB) (k : String) (n : UInt64), AddsNothing n height →
      SameStakes db (db.upsertPostStake k tx.sender n height) := by
    intro db k n hn
    rw [upsertPostStake_touch hn]
    split
    · exact .touch
    · exact .of_postStakes rfl
  unfold Follower.indexTransaction
  split
  · exact .of_postStakes DB.insertTransfer_same.postStakes
  split
  · next htype =>
    unfold Follower.indexCreatePost
    dsimp only
    split
    · exact .of_postStakes rfl
    · next hid => exact .trans (.of_postStakes DB.insertPost_postStakes) (hupsert _ _ _ (hc ⟨htype, hid⟩))
  split
  · next htype =>
    unfold Follower.indexBoostPost
    split
    · exact .of_postStakes rfl
    · next hid =>
      refine .trans (.of_postStakes ?_) (hupsert _ _ _ (hb ⟨htype, hid⟩))
      rw [rewardStakers_same.postStakes, rewardAuthor_same.postStakes, DB.insertBoost_postStakes]
  split
  · next htype =>
    have hsame : Follower.indexUnstakePost rows db tx = db := if_pos (hrep.unstake htype)
    rw [hsame]
    exact .of_postStakes rfl
  · exact .of_postStakes rfl

theorem transactions_stakes {ord : Nat → RowOrder} {i : Nat} {txs : List TransactionResponse}
    (hrep : ∀ tx ∈ txs, Reported tx)
    (hc : ∀ tx ∈ txs, Creates E tx → AddsNothing (f.postOf E height time tx).totalStaked height)
    (hb : ∀ tx ∈ txs, Boosts tx → AddsNothing (f.boostOf height time tx).stakedAmount height) :
    SameStakes db (f.indexTransactions E ord height time i db txs) := by
  induction txs generalizing i db with
  | nil => exact .of_postStakes rfl
  | cons tx txs ih =>
    rw [List.forall_mem_cons] at hrep hc hb
    exact (transaction_stakes hrep.1 hc.1 hb.1).trans (ih hrep.2 hc.2 hb.2)

/-- **A block whose second run adds nothing** is one that can be indexed again. -/
theorem Repeatable.of_idle {ord ord' : Nat → RowOrder} {e : DB} (hrep : ∀ tx ∈ block.transactions, Reported tx)
    (hauthored : Authored db) (he : e = f.indexTransactions E ord height block.timestamp 0 db block.transactions)
    (h : (f.indexTransactions E ord' height block.timestamp 0 e block.transactions).weight = e.weight) :
    Repeatable E f db height block := by
  have hgrows : ∀ tx ∈ block.transactions, ∀ rows z, Grows e z →
      Grows e (f.indexTransaction E rows height block.timestamp z tx) :=
    fun tx htx rows z hz => hz.trans (transaction_grows (hrep tx htx))
  have hidle := run_idle hrep hgrows .refl h
  have hcreate : ∀ tx ∈ block.transactions, Creates E tx →
      AddsNothing (f.postOf E height block.timestamp tx).totalStaked height := by
    intro tx htx hc
    obtain ⟨rows, z, -, hz⟩ := hidle tx htx
    exact (create_idle hc (hrep tx htx) hz).1
  have hboost : ∀ tx ∈ block.transactions, Boosts tx →
      AddsNothing (f.boostOf height block.timestamp tx).stakedAmount height := by
    intro tx htx hb
    obtain ⟨rows, z, -, hz⟩ := hidle tx htx
    exact (boost_idle hb hz).1
  have hknown : ∀ {k}, Known E f db height block k → k ∈ e.posts := fun hk => he ▸ known_mem hrep hk
  -- So no stake moves in the first run, nor in the second.
  have hstakes : SameStakes db e := he ▸ transactions_stakes hrep hcreate hboost
  have hauthoredEnd : Authored e := by
    rw [he, ← transactionsScript_run]
    exact (kept_authored.transactions hrep).run hauthored
  have hsettled := run_idle (J := fun z => Grows e z ∧ SameStakes db z ∧ Authored z) hrep
    (fun tx htx rows z hz => by
      refine ⟨hz.1.trans (transaction_grows (hrep tx htx)),
        hz.2.1.trans (transaction_stakes (hrep tx htx) (hcreate tx htx) (hboost tx htx)), ?_⟩
      rw [← transactionScript_run]
      exact (kept_authored.transaction (hrep tx htx)).run hz.2.2)
    ⟨.refl, hstakes, hauthoredEnd⟩ h
  refine ⟨hcreate, fun tx htx hc ht hparent hk => ?_, hboost, fun tx htx hb hk => ?_⟩
  · obtain ⟨rows, z, hz, hsame⟩ := hsettled tx htx
    exact (create_idle hc (hrep tx htx) hsame).2 ht hparent (hz.1.posts _ (hknown hk))
  · obtain ⟨rows, z, ⟨hgrow, hsame, hnamed⟩, hweight⟩ := hsettled tx htx
    obtain ⟨row, hrow⟩ := exists_getPost (hgrow.posts _ (hknown hk))
    obtain ⟨hrefused, hauthor, hstakers⟩ := (boost_idle hb hweight).2 row hrow (hnamed _ row hrow)
    refine ⟨hrefused, hauthor, fun hpos s => ?_⟩
    rw [← hsame.total] at hpos
    rw [← hsame.total, ← hsame.staked]
    exact hstakers hpos s

/-! ## From whatever the follower has left -/

/-- The databases a follower can leave: blocks of a node are indexed, and stopped anywhere. -/
inductive Follower.Reached (E : Env) (f : Follower) : DB → Prop
  | empty : Reached E f {}
  | stop {db y : DB} (ord : Nat → RowOrder) (block : Block) (h : Reached E f db)
    (hy : y ∈ f.stops E ord db block.header.height (blockToResponse E block true)) : Reached E f y
  | index {db : DB} (ord : Nat → RowOrder) (block : Block) (h : Reached E f db) :
    Reached E f (f.indexBlock E ord db block.header.height (blockToResponse E block true))

/-- The same tables; reward events have no order but that of their rows. -/
structure SameIndex (db db' : DB) : Prop where
  posts : db'.posts = db.posts
  boosts : db'.boosts = db.boosts
  transfers : db'.transfers = db.transfers
  postStakes : db'.postStakes = db.postStakes
  rewardEvents : db'.rewardEvents.Perm db.rewardEvents
  lastIndexedHeight : db'.lastIndexedHeight = db.lastIndexedHeight

theorem SameIndex.weight (h : SameIndex db db') : db'.weight = db.weight := by
  rw [DB.weight, h.posts, h.postStakes, h.rewardEvents.length_eq, DB.weight]

theorem blockToResponse_reported {block : Block} : ∀ tx ∈ (blockToResponse E block true).transactions, Reported tx := by
  intro tx htx
  obtain ⟨t, -, rfl⟩ := List.mem_map.mp htx
  exact txToResponse_reported

theorem Follower.Reached.authored (h : f.Reached E db) : Authored db := by
  induction h with
  | empty =>
    intro k row hrow
    cases hrow
  | stop ord block _ hy ih => exact (kept_authored.transactions blockToResponse_reported).points ih _ hy
  | index ord block _ ih =>
    have hdone : Authored (f.indexTransactions E ord block.header.height (blockToResponse E block true).timestamp 0 _
        (blockToResponse E block true).transactions) :=
      (kept_authored.transactions blockToResponse_reported).points ih _ indexTransactions_mem_stops
    exact hdone

/-- Indexed again from wherever it was stopped, the block leaves what one run leaves. -/
def Follower.Repeats (E : Env) (f : Follower) (ord : Nat → RowOrder) (db : DB) (height : UInt64) (block : BlockResponse) :
    Prop :=
  ∀ y ∈ f.stops E ord db height block, ∀ ord' : Nat → RowOrder,
    SameIndex (f.indexBlock E ord db height block) (f.indexBlock E ord' y height block)

theorem Repeatable.of_repeats {ord : Nat → RowOrder} (hrep : ∀ tx ∈ block.transactions, Reported tx)
    (hauthored : Authored db)
    (h : f.Repeats E ord db height block) : Repeatable E f db height block := by
  -- The last stop is the whole run; a second one after it changes nothing.
  have hsame := h _ indexTransactions_mem_stops ord
  exact .of_idle hrep hauthored rfl hsame.weight

theorem repeats_iff {ord : Nat → RowOrder} (hrep : ∀ tx ∈ block.transactions, Reported tx) (hauthored : Authored db) :
    f.Repeats E ord db height block ↔ Repeatable E f db height block := by
  refine ⟨.of_repeats hrep hauthored, fun h y hy ord' => ?_⟩
  rw [h.again hrep hy]
  exact ⟨rfl, rfl, rfl, rfl, .rfl, rfl⟩

/-- **A block can be indexed again exactly where it adds to no figure**, whatever
the follower left before it. -/
theorem reindexing_repeats (hdb : f.Reached E db) (block : Block) (ord : Nat → RowOrder) :
    f.Repeats E ord db block.header.height (blockToResponse E block true) ↔
      Repeatable E f db block.header.height (blockToResponse E block true) :=
  repeats_iff blockToResponse_reported hdb.authored

section

open Sample

/-- After a post and a boost, a block with a transfer. -/
theorem reindexing_repeats_transfer :
    follower.Repeats env (fun _ => rowOrder) (follower.indexBlocks env (fun _ _ => rowOrder) 0 {} (boosted.map (·.2))) 3
      (blockToResponse env (Sample.block 3 [transfer 1 2 2]).2 true) := by
  refine (reindexing_repeats (.index _ _ (.index _ _ .empty)) (Sample.block 3 [transfer 1 2 2]).2 _).mpr ?_
  have htype : ∀ tx ∈ (blockToResponse env (Sample.block 3 [transfer 1 2 2]).2 true).transactions,
      tx.type = "transfer" := by
    intro tx htx
    rw [List.mem_singleton.mp htx]
    exact txToResponse_type (k := .transfer) rfl
  have hcreates : ∀ tx ∈ (blockToResponse env (Sample.block 3 [transfer 1 2 2]).2 true).transactions, ¬ Creates env tx :=
    fun tx htx hc => absurd ((htype tx htx).symm.trans hc.1) (by decide)
  have hboosts : ∀ tx ∈ (blockToResponse env (Sample.block 3 [transfer 1 2 2]).2 true).transactions, ¬ Boosts tx :=
    fun tx htx hb => absurd ((htype tx htx).symm.trans hb.1) (by decide)
  exact ⟨fun tx htx hc => absurd hc (hcreates tx htx), fun tx htx hc => absurd hc (hcreates tx htx),
    fun tx htx hb => absurd hb (hboosts tx htx), fun tx htx hb => absurd hb (hboosts tx htx)⟩

/-- The first block of the sample chain makes a post. Stopped after its last
statement, it is indexed again, and the author's stake is there twice. -/
theorem reindexing_doubles :
    (applyBlocks env .go config genesis [Sample.block 1 [createPost 1 100 1]]).isOk = true ∧
    ¬ follower.Repeats env (fun _ => rowOrder) {} 1
    (blockToResponse env (Sample.block 1 [createPost 1 100 1]).2 true) := by
  refine ⟨by decide +kernel, fun h => ?_⟩
  have hr := Repeatable.of_repeats blockToResponse_reported (Follower.Reached.empty (E := env) (f := follower)).authored h
  have hmem : txToResponse env (createPost 1 100 1) 1 ∈
      (blockToResponse env (Sample.block 1 [createPost 1 100 1]).2 true).transactions := List.mem_singleton.mpr rfl
  have hcreates : Creates env (txToResponse env (createPost 1 100 1) 1) := by
    refine ⟨rfl, ?_⟩
    have hid := @findPostID_sender env (createPost 1 100 1).nonce _ (addressFromPublicKey_validate (key 1).publicKey)
    exact fun hempty => postKey_ne_empty _ (hid.symm.trans hempty)
  have hstaked := hr.create _ hmem hcreates (by decide)
  exact absurd hstaked (by decide)

end

end Drana
