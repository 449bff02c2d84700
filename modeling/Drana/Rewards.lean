/-
The rewards of a boost, on the chain and in the index. The chain splits the
stakers' reward by its stake records, the index by its own rows; the two agree
while nobody but the author has taken a stake back from the post.
-/
import Drana.IndexRuns
import Drana.Threads

namespace Drana

variable {E : Env} {ar : Arith} {params : GenesisConfig} {ws w ws' : WorldState} {tx : Transaction}
  {ord : RangeOrder} {f : Follower} {db db' : DB} {rows : RowOrder} {height : UInt64} {time : Int64} {a : Address}
  {p : PostID} {k s : String}

/-! ## What the chain credits -/

/-- The spendable coins of an account, none without one. -/
def coinsOf (ws : WorldState) (a : Address) : UInt64 := (ws.getAccount a).elim 0 (·.balance)

/-- What an account can be credited; nothing without one. -/
def creditable (ws : WorldState) (a : Address) (n : UInt64) : UInt64 := if (ws.getAccount a).isSome then n else 0

/-- What a boost credits to `a` as the author of the post. -/
def authorCredit (params : GenesisConfig) (ws : WorldState) (tx : Transaction) (a : Address) : UInt64 :=
  match ws.getPost tx.postID with
  | some post => if a = post.author then creditable ws a (authorReward params tx.amount) else 0
  | none => 0

/-- What a boost credits to `a` as a staker of the post. -/
def stakerCredit (params : GenesisConfig) (ws : WorldState) (tx : Transaction) (a : Address) : UInt64 :=
  match ws.getPost tx.postID, ws.getPostStake tx.postID a with
  | some post, some s =>
    if stakerReward params tx.amount > 0 ∧ post.totalStaked > 0 then
      creditable ws a (stakerShare (stakerReward params tx.amount) post.totalStaked s)
    else 0
  | _, _ => 0

theorem coinsOf_of {acct : Account} (hg : ws.getAccount a = some acct) : coinsOf ws a = acct.balance := by
  rw [coinsOf, hg, Option.elim_some]

theorem coinsOf_congr (h : ws'.accounts = ws.accounts) : coinsOf ws' a = coinsOf ws a := by
  rw [coinsOf, WorldState.getAccount_congr h, coinsOf]

theorem coinsOf_setAccount {acct : Account} :
    coinsOf (ws.setAccount acct) a = if a = acct.address then acct.balance else coinsOf ws a := by
  rw [coinsOf, WorldState.getAccount_setAccount]
  split <;> rfl

/-- The same accounts are there. -/
def SameHolders (ws ws' : WorldState) : Prop := ∀ a, (ws'.getAccount a).isSome = (ws.getAccount a).isSome

theorem SameHolders.creditable {n : UInt64} (h : SameHolders ws ws') : creditable ws' a n = creditable ws a n := by
  rw [Drana.creditable, h a, Drana.creditable]

theorem setAccount_holders {acct old : Account} (hg : ws.getAccount acct.address = some old) :
    SameHolders ws (ws.setAccount acct) := by
  intro b
  rw [WorldState.getAccount_setAccount]
  split
  · next hb => rw [hb, hg]; rfl
  · rfl

theorem creditAccount_coins {b : Address} {n : UInt64} (hk : Keyed ws) (h : creditAccount .go ws b n = .ok ws') :
    SameHolders ws ws' ∧ coinsOf ws' a = coinsOf ws a + if a = b then creditable ws a n else 0 := by
  obtain ⟨acct, hg, balance, hb, rfl⟩ | ⟨hg, rfl⟩ := creditAccount_ok_iff.mp h
  · obtain rfl := Arith.add_ok hb
    have haddr : acct.address = b := hk.account b acct hg
    refine ⟨setAccount_holders (by rw [haddr]; exact hg), ?_⟩
    rw [coinsOf_setAccount, haddr]
    split
    · next hab => rw [hab, coinsOf_of hg, creditable, hg, Option.isSome_some, if_pos rfl]
    · rw [UInt64.add_zero]
  · refine ⟨fun _ => rfl, ?_⟩
    split
    · next hab => rw [hab, creditable, hg, Option.isSome_none, if_neg Bool.false_ne_true, UInt64.add_zero]
    · rw [UInt64.add_zero]

theorem payAuthor_coins {b : Address} {n : UInt64} (hk : Keyed ws) (h : payAuthor .go ws b n = .ok ws') :
    SameHolders ws ws' ∧ coinsOf ws' a = coinsOf ws a + if a = b then creditable ws a n else 0 := by
  obtain ⟨-, h⟩ | ⟨hzero, rfl⟩ := payAuthor_ok_iff.mp h
  · exact creditAccount_coins hk h
  · refine ⟨fun _ => rfl, ?_⟩
    rw [hzero, creditable, ite_self, ite_self, UInt64.add_zero]

theorem payStaker_coins {s : PostStake} {reward total : UInt64} (hk : Keyed ws)
    (h : payStaker .go reward total ws s = .ok ws') :
    SameHolders ws ws' ∧
      coinsOf ws' a = coinsOf ws a + if a = s.staker then creditable ws a (stakerShare reward total s) else 0 :=
  payAuthor_coins hk h

/-- Stakers are paid one after the other, each once. -/
theorem payStakerList_coins {l : List PostStake} {reward total : UInt64} (hk : Keyed ws)
    (hn : (l.map (·.staker)).Nodup) (h : l.foldlM (payStaker .go reward total) ws = .ok ws') :
    SameHolders ws ws' ∧ coinsOf ws' a = coinsOf ws a +
      (l.find? fun s => a = s.staker).elim 0 fun s => creditable ws a (stakerShare reward total s) := by
  induction l generalizing ws with
  | nil =>
    cases Except.foldlM_nil_ok_iff.mp h
    exact ⟨fun _ => rfl, (UInt64.add_zero _).symm⟩
  | cons s l ih =>
    obtain ⟨w, hw, hrest⟩ := Except.foldlM_cons_ok_iff.mp h
    rw [List.map_cons, List.nodup_cons] at hn
    obtain ⟨hsame, hone⟩ := payStaker_coins (a := a) hk hw
    obtain ⟨hsame', hall⟩ := ih ((payAuthor_writes hw).keyed hk) hn.2 hrest
    refine ⟨fun b => (hsame' b).trans (hsame b), ?_⟩
    rw [hall, hone, List.find?_cons]
    by_cases ha : a = s.staker
    · have hnone : l.find? (fun s => a = s.staker) = none := by
        refine List.find?_eq_none.mpr fun t ht => ?_
        rw [decide_eq_true_eq]
        exact fun hat => hn.1 (List.mem_map.mpr ⟨t, ht, by rw [← hat, ha]⟩)
      simp [ha ▸ hnone, ha]
    · simp [ha, hsame.creditable]

theorem find?_getPostStakers (hk : Keyed ws) :
    (ws.getPostStakers ord p).find? (fun s => a = s.staker) = ws.getPostStake p a := by
  cases hfound : (ws.getPostStakers ord p).find? fun s => a = s.staker with
  | some s =>
    have hmem := List.mem_of_find?_eq_some hfound
    have ha : a = s.staker := by simpa using List.find?_some hfound
    rw [ha, hk.getPostStake_stakers hmem]
  | none =>
    refine (Option.eq_none_iff_forall_ne_some.mpr fun s hs => ?_).symm
    have hmem : s ∈ ws.getPostStakers ord p := WorldState.mem_getPostStakers.mpr ⟨a, hs⟩
    exact List.find?_eq_none.mp hfound s hmem (by simp [(hk.stake p a s hs).2])

theorem addBoostStake_accounts {post : Post} {n : UInt64} (h : addBoostStake ar ws post tx n height = .ok ws') :
    ws'.accounts = ws.accounts := by
  obtain ⟨existing, -, amount, -, rfl⟩ | ⟨-, count, -, rfl⟩ := addBoostStake_ok_iff.mp h
  · rfl
  · rfl

/-- **What a boost does to everybody's coins**: the booster pays, and the
author and the stakers are credited. -/
theorem applyBoostPost_coins (hk : Keyed ws) (h : applyBoostPost .go params ord ws tx height = .ok ws') :
    coinsOf ws' a = coinsOf ws a - (if a = tx.sender then tx.amount else 0) + authorCredit params ws tx a +
      stakerCredit params ws tx a := by
  obtain ⟨booster, hg, -, post, hpost, staked, -, balance, hb, psb, -, nonce, -, burned, -, w₁, h₁, w₂, h₂, total, -,
    onPost, -, h⟩ := applyBoostPost_ok_iff.mp h
  obtain rfl := Arith.sub_ok hb
  have haddr := hk.account _ _ hg
  obtain ⟨booster', hbooster⟩ :
      ∃ x, x = { booster with balance := booster.balance - tx.amount, postStakeBalance := psb, nonce } :=
    ⟨_, rfl⟩
  obtain ⟨w₀, hw₀⟩ : ∃ w, w = { ws.setAccount booster' with burnedSupply := burned } := ⟨_, rfl⟩
  have haddr' : booster'.address = tx.sender := by rw [hbooster]; exact haddr
  have hsame₀ : SameHolders ws w₀ := by
    rw [hw₀]
    exact setAccount_holders (by rw [haddr']; exact hg)
  have hcoins₀ : coinsOf w₀ a = coinsOf ws a - if a = tx.sender then tx.amount else 0 := by
    rw [hw₀]
    change coinsOf (ws.setAccount booster') a = _
    rw [coinsOf_setAccount, haddr']
    split
    · next ha => rw [ha, coinsOf_of hg, hbooster]
    · rw [UInt64.sub_zero]
  have hk₀ : Keyed w₀ := by
    rw [hw₀]
    exact hk.setAccount.congr rfl rfl rfl
  rw [← hbooster, ← hw₀] at h₁
  obtain ⟨hsame₁, hcoins₁⟩ := payAuthor_coins (a := a) hk₀ h₁
  have hk₁ : Keyed w₁ := (payAuthor_writes h₁).keyed hk₀
  have hcoins₂ : coinsOf w₂ a = coinsOf w₁ a + stakerCredit params ws tx a := by
    have hstake : w₁.getPostStake tx.postID a = ws.getPostStake tx.postID a := by
      rw [(payAuthor_frame h₁).getPostStake, hw₀]
      rfl
    unfold payStakers at h₂
    split at h₂
    · next hpos =>
      obtain ⟨-, hall⟩ := payStakerList_coins (a := a) hk₁ hk₁.nodup_stakers h₂
      rw [hall, find?_getPostStakers hk₁, hstake, stakerCredit, hpost]
      cases ws.getPostStake tx.postID a with
      | none => rfl
      | some s =>
        dsimp only [Option.elim_some]
        rw [if_pos hpos, hsame₁.creditable, hsame₀.creditable]
    · next hpos =>
      cases h₂
      rw [stakerCredit, hpost]
      cases ws.getPostStake tx.postID a with
      | none => exact (UInt64.add_zero _).symm
      | some s =>
        dsimp only
        rw [if_neg hpos, UInt64.add_zero]
  rw [coinsOf_congr (addBoostStake_accounts h), hcoins₂, hcoins₁, hcoins₀, authorCredit, hpost]
  dsimp only
  rw [hsame₀.creditable]

/-! ## The rows of a post -/

namespace DB

/-- What the rows of a post hold together. -/
def rowsTotal (db : DB) (k : String) : Nat := db.postStakes.total fun key row => if key.1 = k then row.amount else 0

theorem rowsTotal_congr (h : db'.postStakes = db.postStakes) : db'.rowsTotal k = db.rowsTotal k := by
  rw [rowsTotal, h, rowsTotal]

/-- A row written over what was there. -/
theorem rowsTotal_insert {k' : String} {row : PostStakeRecord} (h : db'.postStakes = db.postStakes.insert (k, s) row) :
    db'.rowsTotal k' + (if k = k' then db.staked k s else 0) = db.rowsTotal k' + if k = k' then row.amount else 0 := by
  have htotal := @GoMap.total_insert _ _ _
    (fun (key : String × String) (row : PostStakeRecord) => if key.1 = k' then row.amount else 0)
    db.postStakes (k, s) row
  have hat : GoMap.at (fun (key : String × String) (row : PostStakeRecord) => if key.1 = k' then row.amount else 0) (k, s)
      db.postStakes = if k = k' then db.staked k s else 0 := by
    rw [GoMap.at, staked]
    cases db.postStakes.lookup (k, s) <;> simp
  rw [hat, ← h] at htotal
  exact htotal

theorem rowsTotal_upsertPostStake {k' : String} {n height : UInt64} (hb : binds [n, height] = true) :
    (db.upsertPostStake k s n height).rowsTotal k' = db.rowsTotal k' + if k' = k then n.toNat else 0 := by
  have hinsert : (db.upsertPostStake k s n height).postStakes =
      db.postStakes.insert (k, s) ⟨db.staked k s + n.toNat, height.toNat⟩ := by
    simp only [upsertPostStake, hb, if_pos]
    rfl
  have htotal := @rowsTotal_insert db _ k s k' _ hinsert
  by_cases hk : k = k'
  · subst hk
    rw [if_pos rfl, if_pos rfl] at htotal
    rw [if_pos rfl]
    dsimp only at htotal
    omega
  · rw [if_neg hk, if_neg hk] at htotal
    rw [if_neg (Ne.symm hk)]
    exact htotal

theorem staked_le_rowsTotal : db.staked k s ≤ db.rowsTotal k := by
  have hle := @GoMap.at_le_total _ _ _
    (fun (key : String × String) (row : PostStakeRecord) => if key.1 = k then row.amount else 0)
    db.postStakes (k, s)
  refine le_trans (le_of_eq ?_) hle
  rw [GoMap.at, staked]
  cases db.postStakes.lookup (k, s) <;> simp

theorem sum_getPostStakePositions :
    ((db.getPostStakePositions rows k).map (·.2.amount)).sum = db.rowsTotal k := by
  rw [rowsTotal, ← MapRange.sum_list (r := rows), getPostStakePositions]
  generalize rows.list db.postStakes = l
  induction l with
  | nil => rfl
  | cons e l ih =>
    rw [List.filter_cons]
    split
    · next hk => simp_all
    · next hk => simp_all

/-- The loop of `IndexBlock` over the rows adds them up, while the sum fits. -/
theorem sum_rows {l : List (String × PostStakeRecord)} {n : UInt64} :
    l.foldl (fun total s => total + UInt64.ofNat s.2.amount) n = n + UInt64.ofNat (l.map (·.2.amount)).sum := by
  induction l generalizing n with
  | nil => simp
  | cons e l ih => rw [List.foldl_cons, ih, List.map_cons, List.sum_cons, UInt64.ofNat_add, UInt64.add_assoc]

theorem mem_getPostStakePositions {row : PostStakeRecord} :
    (s, row) ∈ db.getPostStakePositions rows k ↔ db.postStakes.lookup (k, s) = some row := by
  rw [← MapRange.mem_list (r := rows), getPostStakePositions, List.mem_map]
  constructor
  · rintro ⟨⟨⟨k', s'⟩, row'⟩, he, heq⟩
    rw [List.mem_filter, decide_eq_true_eq] at he
    obtain ⟨hmem, rfl⟩ := he
    cases heq
    exact hmem
  · intro hmem
    exact ⟨((k, s), row), List.mem_filter.mpr ⟨hmem, decide_eq_true rfl⟩, rfl⟩

/-- A post has one row for each staker. -/
theorem nodup_getPostStakePositions : ((db.getPostStakePositions rows k).map (·.1)).Nodup := by
  have hn : ((rows.list db.postStakes).map Prod.fst).Nodup := MapRange.nodup_keys
  have hf := (List.Sublist.map Prod.fst (List.filter_sublist (p := fun e => e.1.1 = k)
    (l := rows.list db.postStakes))).nodup hn
  have hs : ∀ e ∈ (rows.list db.postStakes).filter fun e => e.1.1 = k, e.1 = (k, e.1.2) := by
    rintro ⟨⟨k', s⟩, row⟩ he
    rw [List.mem_filter, decide_eq_true_eq] at he
    obtain ⟨-, rfl⟩ := he
    rfl
  rw [List.map_congr_left hs] at hf
  rw [getPostStakePositions, List.map_map]
  exact List.Nodup.of_map (fun s => (k, s)) (by rw [List.map_map]; exact hf)

end DB

/-! ## The events of a boost -/

/-- The amounts of the events of one type for one recipient. -/
def amountsTo (events : List RewardEvent) (type : String) (a : Address) : List UInt64 :=
  (events.filter fun ev => ev.type = type ∧ ev.recipient = addrString a).map (·.amount)

/-- One event for a credit, none for nothing. -/
def onePayment (n : UInt64) : List UInt64 := if n > 0 then [n] else []

theorem amountsTo_append {l l' : List RewardEvent} {type : String} :
    amountsTo (l ++ l') type a = amountsTo l type a ++ amountsTo l' type a := by
  rw [amountsTo, List.filter_append, List.map_append, amountsTo, amountsTo]

/-- What `rewardAuthor` records. -/
def authorEvents (height : UInt64) (time : Int64) (r : TransactionResponse) (author : String) (n : UInt64) :
    List RewardEvent :=
  if n > 0 ∧ author ≠ "" then [⟨r.postID, author, n, height, time, r.hash, r.sender, "author"⟩] else []

/-- What `rewardStaker` records. -/
def stakerEvent (height : UInt64) (time : Int64) (r : TransactionResponse) (n total : UInt64)
    (s : String × PostStakeRecord) : Option RewardEvent :=
  if mulDiv n (UInt64.ofNat s.2.amount) total > 0 then
    some ⟨r.postID, s.1, mulDiv n (UInt64.ofNat s.2.amount) total, height, time, r.hash, r.sender, "staker"⟩
  else none

theorem rewardAuthor_events {r : TransactionResponse} {author : String} {n : UInt64} (hb : DB.binds [n, height] = true) :
    (Follower.rewardAuthor db height time r author n).rewardEvents =
      db.rewardEvents ++ authorEvents height time r author n := by
  unfold Follower.rewardAuthor authorEvents
  split
  · rw [DB.insertRewardEvent, if_pos hb]
  · rw [List.append_nil]

theorem rewardStakerList_events {r : TransactionResponse} {n total : UInt64} {l : List (String × PostStakeRecord)}
    (hb : ∀ s ∈ l, DB.binds [mulDiv n (UInt64.ofNat s.2.amount) total, height] = true) :
    (l.foldl (Follower.rewardStaker height time r n total) db).rewardEvents =
      db.rewardEvents ++ l.filterMap (stakerEvent height time r n total) := by
  induction l generalizing db with
  | nil => simp
  | cons s l ih =>
    rw [List.foldl_cons, ih fun t ht => hb t (List.mem_cons_of_mem s ht)]
    have hone : (Follower.rewardStaker height time r n total db s).rewardEvents =
        db.rewardEvents ++ (stakerEvent height time r n total s).toList := by
      simp only [Follower.rewardStaker, stakerEvent]
      split
      · rw [DB.insertRewardEvent, if_pos (hb s List.mem_cons_self)]
        rfl
      · exact (List.append_nil _).symm
    rw [hone, List.append_assoc, List.filterMap_cons]
    cases stakerEvent height time r n total s <;> rfl

theorem updatePost_events {set : PostRow → PostRow} : (db.updatePost k set).rewardEvents = db.rewardEvents := by
  unfold DB.updatePost
  split <;> rfl

theorem insertBoost_events {b : IndexedBoost} : (db.insertBoost b s).rewardEvents = db.rewardEvents := by
  unfold DB.insertBoost
  split
  · dsimp only
    rw [updatePost_events, updatePost_events]
    split <;> rfl
  · rfl

theorem insertPost_events {q : IndexedPost} : (db.insertPost q).rewardEvents = db.rewardEvents := by
  unfold DB.insertPost
  split
  · dsimp only
    split
    · rw [updatePost_events]
      split <;> rfl
    · split <;> rfl
  · rfl

theorem upsertPostStake_events {n : UInt64} : (db.upsertPostStake k s n height).rewardEvents = db.rewardEvents := by
  unfold DB.upsertPostStake
  split <;> rfl

/-- An account that has one row gets one event, or none for a share of nothing. -/
theorem amountsTo_stakers {r : TransactionResponse} {n total : UInt64} {l : List (String × PostStakeRecord)}
    (hn : (l.map (·.1)).Nodup) :
    amountsTo (l.filterMap (stakerEvent height time r n total)) "staker" a =
      (l.find? fun s => s.1 = addrString a).elim [] fun s => onePayment (mulDiv n (UInt64.ofNat s.2.amount) total) := by
  induction l with
  | nil => rfl
  | cons s l ih =>
    rw [List.map_cons, List.nodup_cons] at hn
    have hsplit : (s :: l).filterMap (stakerEvent height time r n total) =
        (stakerEvent height time r n total s).toList ++ l.filterMap (stakerEvent height time r n total) := by
      rw [List.filterMap_cons]
      cases stakerEvent height time r n total s <;> rfl
    rw [hsplit, amountsTo_append, ih hn.2, List.find?_cons]
    by_cases hs : s.1 = addrString a
    · have hnone : l.find? (fun s => s.1 = addrString a) = none := by
        refine List.find?_eq_none.mpr fun t ht => ?_
        rw [decide_eq_true_eq]
        exact fun hat => hn.1 (List.mem_map.mpr ⟨t, ht, by rw [hs, hat]⟩)
      rw [hnone, decide_eq_true hs]
      simp only [Option.elim_some, Option.elim_none, List.append_nil, stakerEvent, onePayment]
      split <;> simp [amountsTo, hs]
    · rw [decide_eq_false hs]
      simp only [stakerEvent]
      split <;> simp [amountsTo, hs]

theorem amountsTo_authors {r : TransactionResponse} {n total : UInt64} {l : List (String × PostStakeRecord)} :
    amountsTo (l.filterMap (stakerEvent height time r n total)) "author" a = [] := by
  rw [amountsTo, List.map_eq_nil_iff, List.filter_eq_nil_iff]
  intro ev hev
  obtain ⟨s, -, hs⟩ := List.mem_filterMap.mp hev
  unfold stakerEvent at hs
  split at hs
  · cases hs
    simp
  · cases hs

/-! ## The index and the chain, post by post -/

/-- The index knows who wrote a post and what is staked on it. -/
structure Told (db : DB) (ws : WorldState) (p : PostID) : Prop where
  author : (db.getPost (postKey p)).map (·.author) = (ws.getPost p).map fun post => addrString post.author
  staked : ∀ a, db.staked (postKey p) (addrString a) = heldOn ws p a
  stakers : ∀ k row, db.postStakes.lookup (postKey p, k) = some row → ∃ a, k = addrString a
  total : db.rowsTotal (postKey p) = (ws.getPost p).elim 0 (·.totalStaked.toNat)

/-- Who is named in a post or a stake has an account. -/
structure Peopled (ws : WorldState) : Prop where
  keyed : Keyed ws
  author : ∀ p post, ws.getPost p = some post → (ws.getAccount post.author).isSome
  staker : ∀ p a, (ws.getPostStake p a).isSome → (ws.getAccount a).isSome ∧ (ws.getPost p).isSome

/-- The events say of everybody what the boost `e` credited, and of nobody else. -/
structure Records (E : Env) (params : GenesisConfig) (e : Applied) (events : List RewardEvent) : Prop where
  about : ∀ ev ∈ events, ev.postID = postKey e.tx.postID ∧ ev.triggerTx = hexEncode (e.tx.hash E).toList ∧
    ev.triggerAddress = addrString e.tx.sender
  author : ∀ a, amountsTo events "author" a = onePayment (authorCredit params e.before e.tx a)
  staker : ∀ a, amountsTo events "staker" a = onePayment (stakerCredit params e.before e.tx a)
  nobodyElse : ∀ ev ∈ events, (ev.type = "author" ∨ ev.type = "staker") ∧ ∃ a, ev.recipient = addrString a
  credited : ∀ a, coinsOf e.after a = coinsOf e.before a - (if a = e.tx.sender then e.tx.amount else 0) +
    authorCredit params e.before e.tx a + stakerCredit params e.before e.tx a

theorem addrString_ne_empty (a : Address) : addrString a ≠ "" := by
  intro h
  have h : addressPrefix ++ hexEncode a.toList = "" := h
  have hchars := congrArg String.toList h
  rw [String.toList_append] at hchars
  exact absurd (List.append_eq_nil_iff.mp hchars).1 (by decide)

theorem mulDiv_zero {n total : UInt64} (h : 0 < total.toNat) : mulDiv n 0 total = 0 := by
  rw [← UInt64.toNat_inj, mulDiv_toNat_of_le h (Nat.zero_le _), UInt64.toNat_zero, Nat.mul_zero, Nat.zero_div]

/-- A staker's row and its record give the same share. -/
theorem share_eq (ht : Told db ws p) {post : Post} (hpos : 0 < post.totalStaked.toNat) (hpeople : Peopled ws)
    {n : UInt64} (a : Address) :
    ((db.getPostStakePositions rows (postKey p)).find? fun s => s.1 = addrString a).elim []
        (fun s => onePayment (mulDiv n (UInt64.ofNat s.2.amount) post.totalStaked)) =
      onePayment ((ws.getPostStake p a).elim 0 fun s => creditable ws a (stakerShare n post.totalStaked s)) := by
  have hheld := ht.staked a
  have hrow : (db.getPostStakePositions rows (postKey p)).find? (fun s => s.1 = addrString a) =
      (db.postStakes.lookup (postKey p, addrString a)).map fun row => (addrString a, row) := by
    cases hfound : (db.getPostStakePositions rows (postKey p)).find? fun s => s.1 = addrString a with
    | some s =>
      have hmem := List.mem_of_find?_eq_some hfound
      have ha : s.1 = addrString a := by simpa using List.find?_some hfound
      rw [← ha, DB.mem_getPostStakePositions.mp hmem]
      rfl
    | none =>
      cases hl : db.postStakes.lookup (postKey p, addrString a) with
      | none => rfl
      | some row =>
        have hmem : (addrString a, row) ∈ db.getPostStakePositions rows (postKey p) := DB.mem_getPostStakePositions.mpr hl
        exact absurd (List.find?_eq_none.mp hfound _ hmem) (by simp)
  have hindex : ((db.getPostStakePositions rows (postKey p)).find? fun s => s.1 = addrString a).elim []
      (fun s => onePayment (mulDiv n (UInt64.ofNat s.2.amount) post.totalStaked)) =
      onePayment (mulDiv n (UInt64.ofNat (heldOn ws p a)) post.totalStaked) := by
    rw [hrow, ← hheld, DB.staked]
    cases db.postStakes.lookup (postKey p, addrString a) with
    | some row => rfl
    | none =>
      rw [Option.map_none, Option.elim_none, Option.elim_none]
      change [] = onePayment (mulDiv n 0 post.totalStaked)
      rw [mulDiv_zero hpos]
      rfl
  rw [hindex]
  cases hs : ws.getPostStake p a with
  | none =>
    rw [heldOn_none hs, Option.elim_none]
    change onePayment (mulDiv n 0 post.totalStaked) = _
    rw [mulDiv_zero hpos]
  | some s =>
    rw [heldOn_of hs, UInt64.ofNat_toNat, Option.elim_some, creditable, if_pos (hpeople.staker p a (by rw [hs]; rfl)).1,
      stakerShare]

/-- The events of the stakers, which the index finds in its own rows. -/
def stakersEvents (rows : RowOrder) (db : DB) (height : UInt64) (time : Int64) (r : TransactionResponse)
    (n total : UInt64) : List RewardEvent :=
  if n > 0 ∧ total > 0 then (db.getPostStakePositions rows r.postID).filterMap (stakerEvent height time r n total) else []

theorem rewardStakers_events {r : TransactionResponse} {row : PostRow} {n total : UInt64}
    (htotal : db.rowsTotal r.postID = total.toNat) (hn : n.toNat < 2 ^ 63) (hheight : height.toNat < 2 ^ 63) :
    (Follower.rewardStakers rows db height time r (some row) n).rewardEvents =
      db.rewardEvents ++ stakersEvents rows db height time r n total := by
  have hsum : (db.getPostStakePositions rows r.postID).foldl (fun total s => total + UInt64.ofNat s.2.amount) 0 =
      total := by
    rw [DB.sum_rows, DB.sum_getPostStakePositions, htotal, UInt64.ofNat_toNat, UInt64.zero_add]
  simp only [Follower.rewardStakers, Option.isSome_some, and_true, hsum, stakersEvents]
  by_cases hpos : n > 0
  · by_cases hsome : total > 0
    · rw [if_pos hpos, if_pos hsome, if_pos ⟨hpos, hsome⟩, rewardStakerList_events]
      intro s hs
      -- A row holds no more than all of them, so a share is no more than the reward.
      have hstaked : db.staked r.postID s.1 = s.2.amount := by
        rw [DB.staked, DB.mem_getPostStakePositions.mp hs]
        rfl
      have hle : s.2.amount ≤ total.toNat := by
        rw [← htotal, ← hstaked]
        exact DB.staked_le_rowsTotal
      have hlt := total.toNat_lt
      have hfits : s.2.amount < 2 ^ 64 := by omega
      have htot : 0 < total.toNat := UInt64.lt_iff_toNat_lt.mp hsome
      have hamount : (UInt64.ofNat s.2.amount).toNat ≤ total.toNat := by
        rwa [UInt64.toNat_ofNat_of_lt' hfits]
      have hshare : (mulDiv n (UInt64.ofNat s.2.amount) total).toNat ≤ n.toNat := by
        rw [mulDiv_toNat_of_le htot hamount]
        exact Nat.div_le_of_le_mul (by rw [Nat.mul_comm]; exact Nat.mul_le_mul_right _ hamount)
      simp only [DB.binds_cons]
      exact ⟨by omega, hheight, rfl⟩
    · rw [if_pos hpos, if_neg hsome, if_neg fun h => hsome h.2, List.append_nil]
  · rw [if_neg hpos, if_neg fun h => hpos h.1, List.append_nil]

theorem getPostStakePositions_congr (h : db'.postStakes = db.postStakes) :
    db'.getPostStakePositions rows k = db.getPostStakePositions rows k := by
  rw [DB.getPostStakePositions, h, DB.getPostStakePositions]

/-- **A boost of a post the index knows is recorded as it is credited.** -/
theorem boost_records (hf : f.SameFees params) (ht : Told db ws tx.postID) (hpeople : Peopled ws)
    (hk : tx.kind = some .boostPost) (hheight : height.toNat < 2 ^ 63)
    (hsmall : ∀ n ∈ amountsOf params tx.amount, n.toNat < 2 ^ 63)
    (h : applyBoostPost .go params ord ws tx height = .ok ws') :
    ∃ events, (f.indexTransaction E rows height time db (txToResponse E tx height)).rewardEvents =
      db.rewardEvents ++ events ∧ Records E params ⟨ws, tx, ws'⟩ events := by
  obtain ⟨n, post, new, hn, hpost, -, -, -, -⟩ := applyBoostPost_staked hpeople.keyed h
  have hpostID : (txToResponse E tx height).postID = postKey tx.postID := txToResponse_postID hk
  have hpaid := hsmall (authorReward params tx.amount) (by simp [amountsOf])
  have hshared := hsmall (stakerReward params tx.amount) (by simp [amountsOf])
  obtain ⟨row, hrow, hrowAuthor⟩ : ∃ row, db.getPost (postKey tx.postID) = some row ∧
      row.author = addrString post.author := by
    have hrow := ht.author
    rw [hpost, Option.map_some, Option.map_eq_some_iff] at hrow
    exact hrow
  have htotal := ht.total
  rw [hpost, Option.elim_some] at htotal
  have hhas : (ws.getAccount post.author).isSome := hpeople.author _ _ hpost
  refine ⟨authorEvents height time (txToResponse E tx height) (addrString post.author) (authorReward params tx.amount) ++
    stakersEvents rows db height time (txToResponse E tx height) (stakerReward params tx.amount) post.totalStaked, ?_, ?_⟩
  · simp only [indexTransaction_kind hk, Follower.indexBoostPost, hpostID, if_neg (postKey_ne_empty _), hrow,
      Option.elim_some, hf.author, hf.staker, txToResponse_amount, hrowAuthor]
    have hstakes : ∀ {b : IndexedBoost}, (Follower.rewardAuthor (db.insertBoost b (addrString post.author)) height time
        (txToResponse E tx height) (addrString post.author) (authorReward params tx.amount)).postStakes = db.postStakes :=
      rewardAuthor_same.postStakes.trans DB.insertBoost_postStakes
    have hrows : ∀ {b : IndexedBoost}, (Follower.rewardAuthor (db.insertBoost b (addrString post.author)) height time
        (txToResponse E tx height) (addrString post.author) (authorReward params tx.amount)).rowsTotal
        (txToResponse E tx height).postID = post.totalStaked.toNat := by
      intro b
      rw [DB.rowsTotal_congr hstakes, hpostID, htotal]
    rw [upsertPostStake_events, rewardStakers_events hrows hshared hheight, rewardAuthor_events, insertBoost_events,
      List.append_assoc, stakersEvents, stakersEvents, getPostStakePositions_congr hstakes]
    simp only [DB.binds_cons]
    exact ⟨hpaid, hheight, rfl⟩
  · have hstakersAuthor : amountsTo (stakersEvents rows db height time (txToResponse E tx height)
        (stakerReward params tx.amount) post.totalStaked) "author" = fun _ => [] := by
      funext b
      unfold stakersEvents
      split
      · exact amountsTo_authors
      · rfl
    have hmem : ∀ ev ∈ stakersEvents rows db height time (txToResponse E tx height) (stakerReward params tx.amount)
        post.totalStaked, ∃ s ∈ db.getPostStakePositions rows (postKey tx.postID), ∃ n,
          ev = ⟨postKey tx.postID, s.1, n, height, time, hexEncode (tx.hash E).toList, addrString tx.sender,
            "staker"⟩ := by
      intro ev hev
      unfold stakersEvents at hev
      split at hev
      · obtain ⟨s, hs, heq⟩ := List.mem_filterMap.mp hev
        rw [hpostID] at hs
        unfold stakerEvent at heq
        split at heq
        · cases heq
          exact ⟨s, hs, _, by rw [txToResponse_sender, hpostID, txToResponse_hash]⟩
        · cases heq
      · cases hev
    have hauthors : ∀ ev ∈ authorEvents height time (txToResponse E tx height) (addrString post.author)
        (authorReward params tx.amount), ev = ⟨postKey tx.postID, addrString post.author, authorReward params tx.amount,
          height, time, hexEncode (tx.hash E).toList, addrString tx.sender, "author"⟩ := by
      intro ev hev
      unfold authorEvents at hev
      split at hev
      · rw [List.mem_singleton.mp hev, txToResponse_sender, hpostID, txToResponse_hash]
      · cases hev
    refine ⟨fun ev hev => ?_, fun b => ?_, fun b => ?_, fun ev hev => ?_, fun b => applyBoostPost_coins hpeople.keyed h⟩
    · rcases List.mem_append.mp hev with hev | hev
      · rw [hauthors ev hev]
        exact ⟨rfl, rfl, rfl⟩
      · obtain ⟨s, -, n, rfl⟩ := hmem ev hev
        exact ⟨rfl, rfl, rfl⟩
    · rw [amountsTo_append, hstakersAuthor, List.append_nil, authorCredit, hpost]
      simp only [authorEvents, addrString_ne_empty, ne_eq, not_false_eq_true, and_true, onePayment]
      by_cases hb : b = post.author
      · rw [if_pos hb, hb, creditable, if_pos hhas]
        split <;> simp [amountsTo]
      · have hne : addrString post.author ≠ addrString b := fun heq => hb (addrString_inj heq).symm
        rw [if_neg hb]
        split <;> simp [amountsTo, hne]
    · have hnone : amountsTo (authorEvents height time (txToResponse E tx height) (addrString post.author)
          (authorReward params tx.amount)) "staker" b = [] := by
        unfold authorEvents
        split <;> simp [amountsTo]
      rw [amountsTo_append, hnone, List.nil_append, stakerCredit, hpost]
      unfold stakersEvents
      split
      · next hpos =>
        rw [amountsTo_stakers DB.nodup_getPostStakePositions, hpostID,
          share_eq ht (UInt64.lt_iff_toNat_lt.mp hpos.2) hpeople]
        cases ws.getPostStake tx.postID b with
        | none => rfl
        | some s =>
          dsimp only [Option.elim_some]
          rw [if_pos hpos]
      · next hpos =>
        cases ws.getPostStake tx.postID b with
        | none => rfl
        | some s =>
          dsimp only
          rw [if_neg hpos]
          rfl
    · rcases List.mem_append.mp hev with hev | hev
      · rw [hauthors ev hev]
        exact ⟨.inl rfl, post.author, rfl⟩
      · obtain ⟨s, hs, n, rfl⟩ := hmem ev hev
        exact ⟨.inr rfl, ht.stakers _ _ (DB.mem_getPostStakePositions.mp hs)⟩

/-! ## What a transaction leaves told -/

namespace DB

theorem author_updatePost {k' : String} {set : PostRow → PostRow} (hset : ∀ row, (set row).author = row.author) :
    ((db.updatePost k set).getPost k').map (·.author) = (db.getPost k').map (·.author) := by
  rw [getPost_updatePost]
  split
  · next hk =>
    rw [hk, Option.map_map]
    exact congrArg (Option.map · _) (funext hset)
  · rfl

theorem author_insertBoost {b : IndexedBoost} :
    ((db.insertBoost b s).getPost k).map (·.author) = (db.getPost k).map (·.author) := by
  unfold insertBoost
  split
  · dsimp only
    rw [author_updatePost (by intro row; rfl), author_updatePost (by intro row; split <;> rfl)]
    split <;> rfl
  · rfl

theorem author_insertPost_ne {q : IndexedPost} (hk : k ≠ q.postID) :
    ((db.insertPost q).getPost k).map (·.author) = (db.getPost k).map (·.author) := by
  have hins : DB.getPost (if q.postID ∈ db.posts then db else { db with posts := db.posts.insert q.postID q.row }) k =
      db.getPost k := by
    split
    · rfl
    · exact Finmap.lookup_insert_of_ne _ hk
  unfold insertPost
  split
  · dsimp only
    split
    · rw [author_updatePost (by intro row; rfl), hins]
    · rw [hins]
  · rfl

theorem author_insertPost {q : IndexedPost}
    (hb : binds [q.createdAtHeight, q.totalStaked, q.authorStaked, q.thirdPartyStaked, q.stakerCount,
      q.lastBoostAtHeight, q.totalBurned] = true) (hnew : db.getPost q.postID = none) :
    ((db.insertPost q).getPost q.postID).map (·.author) = some q.author := by
  have hmem : q.postID ∉ db.posts := by
    rw [← Finmap.lookup_isSome]
    simpa [getPost] using hnew
  have hins : DB.getPost { db with posts := db.posts.insert q.postID q.row } q.postID = some q.row :=
    Finmap.lookup_insert _
  simp only [insertPost, hb, if_pos, if_neg hmem]
  split
  · rw [author_updatePost (by intro row; rfl), hins]
    rfl
  · rw [hins]
    rfl

end DB

/-- The index says of a post what it said before. -/
structure SameRows (db db' : DB) (k : String) : Prop where
  author : (db'.getPost k).map (·.author) = (db.getPost k).map (·.author)
  lookup : ∀ s, db'.postStakes.lookup (k, s) = db.postStakes.lookup (k, s)
  total : db'.rowsTotal k = db.rowsTotal k

theorem SameTables.sameRows (h : SameTables db db') : SameRows db db' k where
  author := by rw [DB.getPost, h.posts, DB.getPost]
  lookup s := by rw [h.postStakes]
  total := DB.rowsTotal_congr h.postStakes

/-- Another post's stake grows. -/
theorem SameRows.upsert {k' : String} {n : UInt64}
    (hauthor : (db'.getPost k).map (·.author) = (db.getPost k).map (·.author))
    (hdb : db'.postStakes = db.postStakes) (hk : k ≠ k') (hb : DB.binds [n, height] = true) :
    SameRows db (db'.upsertPostStake k' s n height) k where
  author := by
    rw [DB.getPost, DB.upsertPostStake_posts]
    exact hauthor
  lookup t := by
    simp only [DB.upsertPostStake, hb, if_pos]
    rw [Finmap.lookup_insert_of_ne _ fun h => hk (Prod.mk.inj h).1, hdb]
  total := by
    rw [DB.rowsTotal_upsertPostStake hb, if_neg hk, Nat.add_zero, DB.rowsTotal_congr hdb]

namespace Told

/-- Nothing about the post has moved. -/
theorem same (h : Told db ws p) (hdb : SameRows db db' (postKey p))
    (hpost : (ws'.getPost p).map (fun post => (post.author, post.totalStaked)) =
      (ws.getPost p).map fun post => (post.author, post.totalStaked))
    (hheld : ∀ a, heldOn ws' p a = heldOn ws p a) : Told db' ws' p where
  author := by
    have hauthor := congrArg (Option.map fun x : Address × UInt64 => addrString x.1) hpost
    rw [Option.map_map, Option.map_map] at hauthor
    exact hdb.author.trans (h.author.trans hauthor.symm)
  staked a := by
    rw [DB.staked, hdb.lookup, hheld]
    exact h.staked a
  stakers k row hrow := by
    rw [hdb.lookup] at hrow
    exact h.stakers k row hrow
  total := by
    have htotal := congrArg (fun o : Option (Address × UInt64) => o.elim 0 (·.2.toNat)) hpost
    rw [hdb.total, h.total]
    cases hp : ws.getPost p <;> cases hp' : ws'.getPost p <;> simp_all

/-- The stake of `a` on the post has grown on both sides. -/
theorem grow {new : Post} {n : UInt64} (h : Told db ws new.postID) (hst : Staked ws new a n ws')
    (hb : DB.binds [n, height] = true) (hdb : db'.postStakes = db.postStakes)
    (hauthor : (db'.getPost (postKey new.postID)).map (·.author) = some (addrString new.author))
    (htotal : new.totalStaked.toNat = (ws.getPost new.postID).elim 0 (·.totalStaked.toNat) + n.toNat)
    (hsmall : heldOn ws new.postID a < 2 ^ 63) :
    Told (db'.upsertPostStake (postKey new.postID) (addrString a) n height) ws' new.postID where
  author := by
    rw [DB.getPost, DB.upsertPostStake_posts, hst.getPost, if_pos rfl, Option.map_some]
    exact hauthor
  staked b := by
    have hn : n.toNat < 2 ^ 63 := (DB.binds_cons.mp hb).1
    have hold : db'.staked (postKey new.postID) (addrString b) = heldOn ws new.postID b := by
      rw [DB.staked, hdb]
      exact h.staked b
    rw [DB.staked_upsertPostStake hb, hold]
    by_cases hba : b = a
    · subst hba
      obtain ⟨s, hs, hamount⟩ := hst.amount
      have hheld : ((ws.getPostStake new.postID b).elim 0 (·.amount)).toNat = heldOn ws new.postID b := by
        rw [heldOn]
        cases ws.getPostStake new.postID b <;> rfl
      rw [if_pos rfl, heldOn_of hs, hamount, UInt64.toNat_add, hheld, Nat.mod_eq_of_lt (by omega)]
    · have hkeys : (postKey new.postID, addrString b) ≠ (postKey new.postID, addrString a) :=
        fun heq => hba (addrString_inj (Prod.mk.inj heq).2)
      rw [if_neg hkeys, Nat.add_zero, heldOn, heldOn, hst.other _ b fun heq => hba (Prod.mk.inj heq).2]
  stakers k row hrow := by
    rcases DB.lookup_upsertPostStake hrow with hk | ⟨old, hold⟩
    · exact ⟨a, (Prod.mk.inj hk).2⟩
    · rw [hdb] at hold
      exact h.stakers k old hold
  total := by
    rw [DB.rowsTotal_upsertPostStake hb, if_pos rfl, DB.rowsTotal_congr hdb, h.total, hst.getPost, if_pos rfl,
      Option.elim_some, htotal]

end Told

theorem applyCreatePost_other {sender : Account} (h : applyCreatePost E ar params ws tx height time = .ok ws')
    (hg : ws.getAccount tx.sender = some sender) (hp : p ≠ derivePostID E tx.sender (sender.nonce + 1)) :
    ws'.getPost p = ws.getPost p ∧ ∀ a, ws'.getPostStake p a = ws.getPostStake p a := by
  obtain ⟨_, hacct, -, staked, hs, nonce, hn, balance, -, psb, -, burned, -, rfl⟩ := applyCreatePost_ok_iff.mp h
  cases hg.symm.trans hacct
  cases Arith.add_ok hn
  refine ⟨Finmap.lookup_insert_of_ne _ hp, fun a => ?_⟩
  exact WorldState.getPostStake_setPostStake_ne fun heq => hp (Prod.mk.inj heq).1

/-- An UnstakePost is about one post, which the author's withdraws. -/
theorem applyUnstakePost_local (hk : Keyed ws) (h : applyUnstakePost ar ord ws tx = .ok ws') :
    ∃ post new, ws.getPost tx.postID = some post ∧ ws'.getPost tx.postID = some new ∧ new.author = post.author ∧
      (tx.sender = post.author → new.withdrawn = true) ∧
      ∀ p, p ≠ tx.postID → ws'.getPost p = ws.getPost p ∧ ∀ a, ws'.getPostStake p a = ws.getPostStake p a := by
  obtain ⟨sender, -, stake, -, post, hpost, balance, -, psb, -, nonce, -, total, -, count, -, h⟩ :=
    applyUnstakePost_ok_iff.mp h
  have hid : post.postID = tx.postID := hk.post _ post hpost
  have hwritten : ∀ {w : WorldState} {new : Post}, w.posts = ws.posts → new.postID = tx.postID → 
      (w.setPost new).getPost tx.postID = some new ∧ ∀ p, p ≠ tx.postID → (w.setPost new).getPost p = ws.getPost p := by
    intro w new hw hnew
    refine ⟨by rw [← hnew]; exact WorldState.getPost_setPost_self, fun p hp => ?_⟩
    rw [WorldState.getPost_setPost_ne (by rwa [hnew]), WorldState.getPost, hw, WorldState.getPost]
  have hremoved : ∀ p, p ≠ tx.postID → ∀ a, ((ws.setAccount
      { sender with balance, postStakeBalance := psb, nonce }).removePostStake
      tx.postID tx.sender).getPostStake p a = ws.getPostStake p a := fun p hp a =>
    WorldState.getPostStake_removePostStake_ne fun heq => hp (Prod.mk.inj heq).1
  obtain ⟨hauthor, ⟨w, new⟩, hloop, rfl⟩ | ⟨hauthor, rfl⟩ := h
  · have hstakes := (forceUnstakes_stakes hloop).1
    obtain ⟨hposts, hnew⟩ := forceUnstakes_post hloop
    rw [show new = _ from hnew]
    obtain ⟨hself, hother⟩ := @hwritten w
      { post with withdrawn := true, totalStaked := new.totalStaked, stakerCount := new.stakerCount } hposts hid
    refine ⟨post, _, hpost, hself, rfl, fun _ => rfl, fun p hp => ⟨hother p hp, fun a => ?_⟩⟩
    rw [WorldState.getPostStake_setPost, hstakes, if_neg fun hc => hp hc.1]
    exact hremoved p hp a
  · obtain ⟨hself, hother⟩ := @hwritten ((ws.setAccount
      { sender with balance, postStakeBalance := psb, nonce }).removePostStake
      tx.postID tx.sender) { post with totalStaked := total, stakerCount := count } rfl hid
    exact ⟨post, _, hpost, hself, rfl, fun heq => absurd heq hauthor, fun p hp => ⟨hother p hp, fun a => by
      rw [WorldState.getPostStake_setPost]
      exact hremoved p hp a⟩⟩

/-- No one withdrew the post. -/
def Open (ws : WorldState) (p : PostID) : Prop := ∀ post, ws.getPost p = some post → post.withdrawn = false

/-- A transaction that does not make the index lose track of `p`: the post it
creates there is the first, and a stake taken back is the author's, or nothing. -/
def Traceable (E : Env) (p : PostID) (e : Applied) : Prop :=
  (e.tx.kind = some .createPost → derivePostID E e.tx.sender e.tx.nonce = p → e.before.getPost p = none) ∧
  (e.tx.kind = some .unstakePost → e.tx.postID = p →
    ((e.before.getPost p).any fun post => e.tx.sender = post.author) ∨ heldOn e.before p e.tx.sender = 0)

theorem createPost_told (hf : f.SameFees params) (hpeople : Peopled ws) (hk : tx.kind = some .createPost)
    {sender : Account} (hg : ws.getAccount tx.sender = some sender) (hnonce : tx.nonce = sender.nonce + 1)
    (hvalid : tx.sender.validate E = .ok ()) (hheight : height.toNat < 2 ^ 63)
    (hsmall : ∀ n ∈ amountsOf params tx.amount, n.toNat < 2 ^ 63) (htrace : Traceable E p ⟨ws, tx, ws'⟩)
    (htold : Open ws p → Told db ws p) (hopen : Open ws' p)
    (h : applyCreatePost E ar params ws tx height time = .ok ws') :
    Told (f.indexTransaction E rows height time db (txToResponse E tx height)) ws' p := by
  have hstaked := hsmall (tx.amount - postFee params tx.amount) (by simp [amountsOf])
  have hburned := hsmall (postFee params tx.amount) (by simp [amountsOf])
  have hb : DB.binds [tx.amount - postFee params tx.amount, height] = true := by
    simp only [DB.binds_cons]
    exact ⟨hstaked, hheight, rfl⟩
  simp only [indexTransaction_kind hk, Follower.indexCreatePost, txToResponse_sender, txToResponse_nonce,
    txToResponse_amount, findPostID_sender hvalid, hf.fee, if_neg (postKey_ne_empty _)]
  by_cases hp : p = derivePostID E tx.sender tx.nonce
  · have hfree : ws.getPost (derivePostID E tx.sender tx.nonce) = none := hp ▸ htrace.1 hk hp.symm
    have hnone : ∀ a, ws.getPostStake (derivePostID E tx.sender tx.nonce) a = none := by
      intro a
      refine Option.eq_none_iff_forall_ne_some.mpr fun s hs => ?_
      have hposted := (hpeople.staker _ a (by rw [hs]; rfl)).2
      rw [hfree] at hposted
      cases hposted
    obtain ⟨post, hid, hauthor, hfig, hst⟩ := applyCreatePost_staked h hg (by rw [← hnonce]; exact hnone tx.sender)
    rw [← hnonce] at hid
    have htold := htold fun post hpost => by rw [hp, hfree] at hpost; cases hpost
    rw [hp, ← hid] at htold ⊢
    rw [← hid] at hfree hnone
    refine htold.grow hst hb DB.insertPost_postStakes ?_ ?_ (by rw [heldOn_none (hnone _)]; exact Nat.two_pow_pos 63)
    · rw [hauthor]
      refine DB.author_insertPost ?_ ?_
      · simp only [DB.binds_cons]
        exact ⟨hheight, hstaked, hstaked, by decide, by decide, by decide, hburned, rfl⟩
      · have hnew := htold.author
        rw [hfree] at hnew
        simpa using hnew
    · rw [hfree, Option.elim_none, Nat.zero_add]
      exact (Prod.mk.inj hfig).1
  · obtain ⟨hpost, hstakes⟩ := applyCreatePost_other h hg (by rw [← hnonce]; exact hp)
    have hkey : postKey p ≠ postKey (derivePostID E tx.sender tx.nonce) := fun heq => hp (postKey_inj heq)
    refine (htold fun post hold => hopen post (by rw [hpost, hold])).same
      (.upsert (DB.author_insertPost_ne hkey) DB.insertPost_postStakes hkey hb) (by rw [hpost]) fun a => ?_
    rw [heldOn, hstakes, heldOn]

theorem boostPost_told (hf : f.SameFees params) (hpeople : Peopled ws) (hk : tx.kind = some .boostPost)
    (hheight : height.toNat < 2 ^ 63) (hsmall : SmallAmounts params ⟨ws, tx, ws'⟩)
    (htold : Open ws p → Told db ws p) (hopen : Open ws' p)
    (h : applyBoostPost ar params ord ws tx height = .ok ws') :
    Told (f.indexTransaction E rows height time db (txToResponse E tx height)) ws' p := by
  obtain ⟨n, post, new, hn, hpost, hid, hauthor, hfig, hst⟩ := applyBoostPost_staked hpeople.keyed h
  have hstaked : n.toNat < 2 ^ 63 := hsmall.tx n (by simp [amountsOf, stakedOf, hn])
  have hb : DB.binds [n, height] = true := by
    simp only [DB.binds_cons]
    exact ⟨hstaked, hheight, rfl⟩
  have htables : ∀ {b : IndexedBoost} {author : String} {row : Option PostRow}, SameTables (db.insertBoost b author)
      (Follower.rewardStakers rows (Follower.rewardAuthor (db.insertBoost b author) height time (txToResponse E tx height)
        author (authorReward params tx.amount)) height time (txToResponse E tx height) row
          (stakerReward params tx.amount)) :=
    rewardAuthor_same.trans rewardStakers_same
  simp only [indexTransaction_kind hk, Follower.indexBoostPost, txToResponse_sender, txToResponse_amount,
    txToResponse_postID hk, hf.burn, hf.author, hf.staker, ← hn, if_neg (postKey_ne_empty _)]
  by_cases hp : p = tx.postID
  · rw [hp, ← hid] at htold hopen ⊢
    rw [← hid] at hpost
    obtain ⟨htotals, hrest⟩ := Prod.mk.inj hfig
    have htold := htold fun old hold => by
      rw [hpost] at hold
      cases hold
      rw [← (Prod.mk.inj hrest).2]
      exact hopen new (by rw [hst.getPost, if_pos rfl])
    refine htold.grow hst hb (htables.postStakes.trans DB.insertBoost_postStakes) ?_ ?_ (hsmall.stakes _ _)
    · rw [DB.getPost, htables.posts, ← DB.getPost, DB.author_insertBoost, htold.author, hpost, Option.map_some, hauthor]
    · obtain ⟨hsmallPost, -⟩ := hsmall.posts _ _ hpost
      rw [hpost, Option.elim_some, htotals, UInt64.toNat_add, Nat.mod_eq_of_lt (by omega)]
  · have hkey : postKey p ≠ postKey tx.postID := fun heq => hp (postKey_inj heq)
    have hsame : ws'.getPost p = ws.getPost p := by rw [hst.getPost, if_neg (by rwa [hid])]
    refine (htold fun post hold => hopen post (by rw [hsame, hold])).same (.upsert ?_
      (htables.postStakes.trans DB.insertBoost_postStakes) hkey hb) (by rw [hsame]) fun a => ?_
    · rw [DB.getPost, htables.posts, ← DB.getPost, DB.author_insertBoost]
    · rw [heldOn, hst.other p a fun heq => hp (by rw [(Prod.mk.inj heq).1, hid]), heldOn]

theorem unstakePost_told (hpeople : Peopled ws) (hk : tx.kind = some .unstakePost)
    (htrace : Traceable E p ⟨ws, tx, ws'⟩) (htold : Open ws p → Told db ws p) (hopen : Open ws' p)
    (h : applyUnstakePost ar ord ws tx = .ok ws') :
    Told (f.indexTransaction E rows height time db (txToResponse E tx height)) ws' p := by
  rw [indexUnstakePost_ignored hk]
  obtain ⟨post, new, hpost, hnew, hauthor, hwithdrawn, hother⟩ := applyUnstakePost_local hpeople.keyed h
  have hrows : SameRows db db (postKey p) := SameTables.refl.sameRows
  by_cases hp : p = tx.postID
  · subst hp
    -- An author's UnstakePost leaves the post withdrawn.
    have hne : tx.sender ≠ post.author := fun heq => by
      have hclosed := hopen new hnew
      rw [hwithdrawn heq] at hclosed
      cases hclosed
    have hzero : heldOn ws tx.postID tx.sender = 0 := by
      rcases htrace.2 hk rfl with hany | hzero
      · dsimp only at hany
        rw [hpost] at hany
        exact absurd (of_decide_eq_true hany) hne
      · exact hzero
    obtain ⟨s, hs⟩ : ∃ s, ws.getPostStake tx.postID tx.sender = some s := by
      obtain ⟨-, -, s, hs, -⟩ := applyUnstakePost_ok_iff.mp h
      exact ⟨s, hs⟩
    have hamount : s.amount = 0 := by
      rw [heldOn_of hs] at hzero
      exact UInt64.toNat_inj.mp hzero
    obtain ⟨hfig, hstakes⟩ := applyUnstakePost_nothing hpost hne hs hamount (hpeople.keyed.post _ _ hpost) h
    have hfig := hfig tx.postID
    rw [hpost, hnew, Option.map_some, Option.map_some, Option.some.injEq] at hfig
    obtain ⟨htotal, hrest⟩ := Prod.mk.inj hfig
    refine (htold fun old hold => ?_).same hrows ?_ fun a => ?_
    · rw [hpost] at hold
      cases hold
      rw [← (Prod.mk.inj hrest).2]
      exact hopen new hnew
    · rw [hpost, hnew, Option.map_some, Option.map_some, hauthor, UInt64.toNat_inj.mp htotal]
    · rw [heldOn, hstakes]
      split
      · next heq =>
        rw [(Prod.mk.inj heq).2, hzero]
        rfl
      · rw [heldOn]
  · obtain ⟨hsame, hstakes⟩ := hother p hp
    refine (htold fun old hold => hopen old (by rw [hsame, hold])).same hrows (by rw [hsame]) fun a => ?_
    rw [heldOn, hstakes, heldOn]

/-- **One step**: the index keeps track of a post. -/
theorem executeTransaction_told (hf : f.SameFees params) (hpeople : Peopled ws) {header : BlockHeader} {i : Nat}
    (hheight : header.height.toNat < 2 ^ 63) (hsmall : SmallAmounts params ⟨ws, tx, ws'⟩)
    (htrace : Traceable E p ⟨ws, tx, ws'⟩) (htold : Open ws p → Told db ws p) (hopen : Open ws' p)
    (h : executeTransaction E ar params ord header i ws tx = .ok ws') :
    Told (f.indexTransaction E rows header.height header.timestamp db (txToResponse E tx header.height)) ws' p := by
  have hvalid := executeTransaction_validate h
  obtain ⟨sender, hg, hnonce⟩ := executeTransaction_sender h
  obtain ⟨-, h⟩ := executeTransaction_ok_iff.mp h
  -- Where neither side writes a post or a stake.
  have hplain : ∀ {db' : DB}, SameTables db db' → ws'.posts = ws.posts → ws'.postStakes = ws.postStakes →
      Told db' ws' p := by
    intro db' hdb hposts hstakes
    have hpost : ws'.getPost p = ws.getPost p := by rw [WorldState.getPost, hposts, WorldState.getPost]
    refine (htold fun post hold => hopen post (by rw [hpost, hold])).same hdb.sameRows (by rw [hpost]) fun a => ?_
    rw [heldOn, WorldState.getPostStake, hstakes, heldOn, WorldState.getPostStake]
  unfold applyTransaction at h
  split at h
  · next hk =>
    rw [indexTransaction_kind hk]
    exact hplain DB.insertTransfer_same (applyTransfer_frame h).posts (applyTransfer_frame h).postStakes
  · next hk => exact createPost_told hf hpeople hk hg hnonce hvalid hheight hsmall.tx htrace htold hopen h
  · next hk => exact boostPost_told hf hpeople hk hheight hsmall htold hopen h
  · next hk => exact unstakePost_told hpeople hk htrace htold hopen h
  · next hk =>
    rw [indexTransaction_kind hk]
    obtain ⟨sender, -, nonce, -, rfl⟩ := applyRegisterName_ok_iff.mp h
    exact hplain .refl rfl rfl
  · next hk =>
    rw [indexTransaction_kind hk]
    exact hplain .refl (applyStake_frame h).posts (applyStake_frame h).postStakes
  · next hk =>
    rw [indexTransaction_kind hk]
    exact hplain .refl (applyUnstake_frame h).posts (applyUnstake_frame h).postStakes
  · cases h

/-- A post keeps its author; a new one has the sender. -/
theorem executeTransaction_authors (hk : Keyed ws) {header : BlockHeader} {i : Nat}
    (h : executeTransaction E ar params ord header i ws tx = .ok ws') {new : Post} (hnew : ws'.getPost p = some new) :
    (∃ old, ws.getPost p = some old ∧ new.author = old.author) ∨ new.author = tx.sender := by
  obtain ⟨sender, hg, -⟩ := executeTransaction_sender h
  obtain ⟨-, h⟩ := executeTransaction_ok_iff.mp h
  have hsame : ws'.posts = ws.posts → (∃ old, ws.getPost p = some old ∧ new.author = old.author) := by
    intro hposts
    rw [WorldState.getPost, hposts] at hnew
    exact ⟨new, hnew, rfl⟩
  unfold applyTransaction at h
  split at h
  · exact .inl (hsame (applyTransfer_frame h).posts)
  · by_cases hp : p = derivePostID E tx.sender (sender.nonce + 1)
    · obtain ⟨_, hacct, -, staked, -, nonce, hn, balance, -, psb, -, burned, -, rfl⟩ := applyCreatePost_ok_iff.mp h
      cases hg.symm.trans hacct
      cases Arith.add_ok hn
      subst hp
      cases (Finmap.lookup_insert _).symm.trans hnew
      exact .inr rfl
    · rw [(applyCreatePost_other h hg hp).1] at hnew
      exact .inl ⟨new, hnew, rfl⟩
  · obtain ⟨n, post, new', -, hpost, hid, hauthor, -, hst⟩ := applyBoostPost_staked hk h
    rw [hst.getPost] at hnew
    split at hnew
    · next hp =>
      cases hnew
      exact .inl ⟨post, by rw [hp, hid, hpost], hauthor⟩
    · exact .inl ⟨new, hnew, rfl⟩
  · obtain ⟨post, new', hpost, hnew', hauthor, -, hother⟩ := applyUnstakePost_local hk h
    by_cases hp : p = tx.postID
    · rw [hp, hnew'] at hnew
      cases hnew
      exact .inl ⟨post, by rw [hp, hpost], hauthor⟩
    · rw [(hother p hp).1] at hnew
      exact .inl ⟨new, hnew, rfl⟩
  · obtain ⟨sender, -, nonce, -, rfl⟩ := applyRegisterName_ok_iff.mp h
    exact .inl (hsame rfl)
  · exact .inl (hsame (applyStake_frame h).posts)
  · exact .inl (hsame (applyUnstake_frame h).posts)
  · cases h

namespace Peopled

theorem same (h : Peopled ws) (hf : Frame ws ws') (hw : Writes ws ws') : Peopled ws' where
  keyed := hw.keyed h.keyed
  author p post hp := by
    rw [WorldState.getPost, hf.posts] at hp
    exact hw.accounts_grow _ (h.author p post hp)
  staker p a hs := by
    rw [hf.getPostStake] at hs
    exact ⟨hw.accounts_grow _ (h.staker p a hs).1, hw.posts_grow _ (h.staker p a hs).2⟩

theorem transaction (h : Peopled ws) {header : BlockHeader} {i : Nat}
    (hs : executeTransaction E ar params ord header i ws tx = .ok ws') : Peopled ws' := by
  have hw := executeTransaction_writes hs
  have hn := executeTransaction_numbers h.keyed hs
  obtain ⟨sender, hg, hnext⟩ := executeTransaction_sender hs
  have hsender : (ws'.getAccount tx.sender).isSome := hw.accounts_grow _ (by rw [hg]; rfl)
  refine ⟨hw.keyed h.keyed, fun p new hnew => ?_, fun p a hst => ?_⟩
  · rcases executeTransaction_authors h.keyed hs hnew with ⟨old, hold, hauthor⟩ | hauthor
    · rw [hauthor]
      exact hw.accounts_grow _ (h.author p old hold)
    · rwa [hauthor]
  · rw [executeTransaction_stakes h.keyed hs] at hst
    simp only [holdsAfter, Bool.and_eq_true, Bool.or_eq_true, decide_eq_true_eq] at hst
    rcases hst.2 with hold | ⟨hon, ha⟩
    · exact ⟨hw.accounts_grow _ (h.staker p a hold).1, hw.posts_grow _ (h.staker p a hold).2⟩
    · refine ⟨by rwa [← ha], hn.staked p hon ?_⟩
      rw [hnext, nonceOf_of hg]

end Peopled

/-! ## Runs -/

/-- The rewards of a transaction: a boost's; no other has any. -/
def RewardsOf (E : Env) (params : GenesisConfig) (e : Applied) (events : List RewardEvent) : Prop :=
  (e.tx.kind = some .boostPost → Records E params e events) ∧ (e.tx.kind ≠ some .boostPost → events = [])

/-- Nothing before a boost has made the index lose track of its post. -/
def BoostsTraceable (E : Env) (log : List Applied) : Prop :=
  log.Pairwise fun e e' => e'.tx.kind = some .boostPost → Traceable E e'.tx.postID e

instance {e : Applied} : Decidable (Traceable E p e) := inferInstanceAs (Decidable (_ ∧ _))

instance {log : List Applied} : Decidable (BoostsTraceable E log) := inferInstanceAs (Decidable (List.Pairwise _ _))

/-- The index after what was applied so far. -/
structure InStep (E : Env) (db : DB) (log : List Applied) (ws : WorldState) : Prop where
  people : Peopled ws
  told : ∀ p, (∀ e ∈ log, Traceable E p e) → Open ws p → Told db ws p

theorem indexTransaction_events {kind : TxKind} (hk : tx.kind = some kind) (hne : kind ≠ .boostPost) :
    (f.indexTransaction E rows height time db (txToResponse E tx height)).rewardEvents = db.rewardEvents := by
  rw [indexTransaction_kind hk]
  cases kind with
  | boostPost => exact absurd rfl hne
  | transfer =>
    simp only [Follower.indexTransfer, DB.insertTransfer]
    split
    · split <;> rfl
    · rfl
  | createPost =>
    simp only [Follower.indexCreatePost]
    split
    · rfl
    · rw [upsertPostStake_events, insertPost_events]
  | unstakePost =>
    have hignored := @indexUnstakePost_ignored E tx f db rows height time hk
    rw [indexTransaction_kind hk] at hignored
    dsimp only at hignored ⊢
    rw [hignored]
  | registerName | stake | unstake => rfl

/-- **One step**: what a transaction credits is recorded, and the index stays in step. -/
theorem executeTransaction_recorded (hf : f.SameFees params) {log : List Applied} (hin : InStep E db log ws)
    {header : BlockHeader} {i : Nat} (hheight : header.height.toNat < 2 ^ 63)
    (hsmall : SmallAmounts params ⟨ws, tx, ws'⟩)
    (htrace : tx.kind = some .boostPost → ∀ e ∈ log, Traceable E tx.postID e)
    (h : executeTransaction E .go params ord header i ws tx = .ok ws') :
    (∃ events, (f.indexTransaction E rows header.height header.timestamp db
      (txToResponse E tx header.height)).rewardEvents =
      db.rewardEvents ++ events ∧ RewardsOf E params ⟨ws, tx, ws'⟩ events) ∧
    InStep E (f.indexTransaction E rows header.height header.timestamp db (txToResponse E tx header.height))
      (log ++ [⟨ws, tx, ws'⟩]) ws' := by
  refine ⟨?_, hin.people.transaction h, fun p hall hopen => ?_⟩
  · by_cases hk : tx.kind = some .boostPost
    · have htold := hin.told tx.postID (htrace hk) fun post hpost => PostBooks.executeTransaction_open hk hpost h
      obtain ⟨-, h⟩ := executeTransaction_ok_iff.mp h
      rw [applyTransaction, hk] at h
      obtain ⟨events, hevents, hrecords⟩ := boost_records hf htold hin.people hk hheight hsmall.tx h
      exact ⟨events, hevents, fun _ => hrecords, fun hne => absurd hk hne⟩
    · have hkind : ∃ kind, tx.kind = some kind := by
        obtain ⟨-, h⟩ := executeTransaction_ok_iff.mp h
        unfold applyTransaction at h
        split at h <;> first | exact ⟨_, ‹_›⟩ | cases h
      obtain ⟨kind, hkind⟩ := hkind
      refine ⟨[], ?_, fun h => absurd h hk, fun _ => rfl⟩
      rw [indexTransaction_events hkind fun heq => hk (by rw [hkind, heq]), List.append_nil]
  · have hbefore : ∀ e ∈ log, Traceable E p e := fun e he => hall e (List.mem_append_left _ he)
    exact executeTransaction_told hf hin.people hheight hsmall
      (hall _ (List.mem_append_right _ (List.mem_singleton.mpr rfl))) (hin.told p hbefore) hopen h

theorem executeTransactions_recorded (hf : f.SameFees params) {header : BlockHeader}
    (hheight : header.height.toNat < 2 ^ 63) {order : Nat → RangeOrder} {rows : Nat → RowOrder}
    {txs : List Transaction} {i : Nat} {log : List Applied} (hin : InStep E db log ws)
    (hsmall : ∀ e ∈ appliedTransactions E .go params order header i ws txs, SmallAmounts params e)
    (htrace : BoostsTraceable E (log ++ appliedTransactions E .go params order header i ws txs))
    (h : executeTransactions E .go params order header i ws txs = .ok ws') :
    (∃ events : List (List RewardEvent), (f.indexTransactions E rows header.height header.timestamp i db
      (txs.map (txToResponse E · header.height))).rewardEvents = db.rewardEvents ++ events.flatten ∧
      List.Forall₂ (RewardsOf E params) (appliedTransactions E .go params order header i ws txs) events) ∧
    InStep E (f.indexTransactions E rows header.height header.timestamp i db (txs.map (txToResponse E · header.height)))
      (log ++ appliedTransactions E .go params order header i ws txs) ws' := by
  induction txs generalizing i ws db log with
  | nil =>
    simp only [executeTransactions, Except.pure_ok_iff] at h
    subst h
    exact ⟨⟨[], by simp [Follower.indexTransactions], .nil⟩,
      by simpa [appliedTransactions, Follower.indexTransactions] using hin⟩
  | cons tx txs ih =>
    simp only [executeTransactions, Except.bind_ok_iff] at h
    obtain ⟨w, hw, hrest⟩ := h
    simp only [appliedTransactions, hw, List.forall_mem_cons] at hsmall htrace ⊢
    obtain ⟨hfirst, htail⟩ := hsmall
    have hbefore : tx.kind = some .boostPost → ∀ e ∈ log, Traceable E tx.postID e := fun hk e he =>
      (List.pairwise_append.mp htrace).2.2 e he ⟨ws, tx, w⟩ List.mem_cons_self hk
    obtain ⟨⟨events, hevents, hrewards⟩, hin'⟩ :=
      @executeTransaction_recorded E params ws w tx _ f db (rows i) hf log hin header i hheight hfirst hbefore hw
    rw [List.append_cons] at htrace ⊢
    obtain ⟨⟨more, hmore, hall⟩, hin''⟩ := ih hin' htail htrace hrest
    refine ⟨⟨events :: more, ?_, .cons hrewards hall⟩, hin''⟩
    rw [List.map_cons, Follower.indexTransactions, hmore, hevents, List.append_assoc, List.flatten_cons]

theorem applyBlock_recorded (hf : f.SameFees params) {order : Nat → RangeOrder} {block : Block}
    (hheight : block.header.height.toNat < 2 ^ 63) {rows : Nat → RowOrder} {log : List Applied} (hin : InStep E db log ws)
    (hsmall : ∀ e ∈ appliedInBlock E .go params order ws block, SmallAmounts params e)
    (htrace : BoostsTraceable E (log ++ appliedInBlock E .go params order ws block))
    (h : applyBlock E .go params order ws block = .ok ws') :
    (∃ events : List (List RewardEvent), (f.indexBlock E rows db block.header.height
      (blockToResponse E block true)).rewardEvents = db.rewardEvents ++ events.flatten ∧
      List.Forall₂ (RewardsOf E params) (appliedInBlock E .go params order ws block) events) ∧
    InStep E (f.indexBlock E rows db block.header.height (blockToResponse E block true))
      (log ++ appliedInBlock E .go params order ws block) ws' := by
  rw [applyBlock_eq] at h
  simp only [Except.bind_ok_iff, Except.pure_ok_iff] at h
  obtain ⟨w₁, h₁, w₂, h₂, w₃, h₃, rfl⟩ := h
  rw [appliedInBlock, h₁] at hsmall htrace ⊢
  have hstart : Frame ws w₁ := by
    simp only [beforeTransactions, Except.bind_ok_iff] at h₁
    obtain ⟨w, hw, he⟩ := h₁
    exact Except.foldlM_inv (Frame ws) (fun _ _ _ _ hb hs => hb.trans (applySlashEvidence_frame hs))
      (releaseMatured_frame hw) he
  have hwrites : Writes ws w₁ := @Keeps.before _ _ _ _ [] _ _ keeps_writes _ .refl h₁
  have hend : Frame w₂ (epochTransition params (order block.transactions.length) w₃ block.header.height) :=
    (issueReward_frame h₃).trans epochTransition_frame
  have hwrites' : Writes w₂ (epochTransition params (order block.transactions.length) w₃ block.header.height) :=
    (issueReward_writes h₃).trans epochTransition_writes
  -- A step that writes no post and no stake changes nothing that is told.
  have hsame : ∀ {db db' : DB} {log : List Applied} {w w' : WorldState}, InStep E db log w → SameTables db db' →
      Frame w w' →
      Writes w w' → InStep E db' log w' := by
    intro db db' log w w' hin hdb hframe hwrites
    refine ⟨hin.people.same hframe hwrites, fun p hall hopen => ?_⟩
    have hpost : w'.getPost p = w.getPost p := by rw [WorldState.getPost, hframe.posts, WorldState.getPost]
    refine (hin.told p hall fun post hp => hopen post (by rw [hpost, hp])).same hdb.sameRows (by rw [hpost]) fun a => ?_
    rw [heldOn, hframe.getPostStake, heldOn]
  obtain ⟨⟨events, hevents, hall⟩, hdone⟩ :=
    @executeTransactions_recorded E params w₁ w₂ f db hf block.header hheight order rows _ 0 log
      (hsame hin .refl hstart hwrites) hsmall htrace h₂
  refine ⟨⟨events, hevents, hall⟩, hsame hdone ⟨rfl, rfl⟩ ?_ ?_⟩
  · exact hend.trans (Frame.refl.congr rfl rfl rfl)
  · exact hwrites'.other rfl rfl rfl

theorem applyBlocks_recorded (hf : f.SameFees params) {rows : Nat → Nat → RowOrder}
    {bs : List ((Nat → RangeOrder) × Block)} {i : Nat} {log : List Applied}
    (hheights : ∀ b ∈ bs, b.2.header.height.toNat < 2 ^ 63) (hin : InStep E db log ws)
    (hsmall : ∀ e ∈ appliedInRun E .go params ws bs, SmallAmounts params e)
    (htrace : BoostsTraceable E (log ++ appliedInRun E .go params ws bs))
    (h : applyBlocks E .go params ws bs = .ok ws') :
    ∃ events : List (List RewardEvent), (f.indexBlocks E rows i db (bs.map (·.2))).rewardEvents =
      db.rewardEvents ++ events.flatten ∧ List.Forall₂ (RewardsOf E params) (appliedInRun E .go params ws bs) events := by
  induction bs generalizing i ws db log with
  | nil => exact ⟨[], by simp [Follower.indexBlocks], .nil⟩
  | cons b bs ih =>
    obtain ⟨w, hw, hrest⟩ := applyBlocks_cons_ok_iff.mp h
    simp only [appliedInRun, hw] at hsmall htrace ⊢
    obtain ⟨hb, htail⟩ := List.forall_mem_cons.mp hheights
    rw [← List.append_assoc] at htrace
    obtain ⟨⟨events, hevents, hall⟩, hin'⟩ := @applyBlock_recorded E params ws w f db hf b.1 b.2 hb (rows i) log hin
      (fun e he => hsmall e (List.mem_append_left _ he)) (List.pairwise_append.mp htrace).1 hw
    obtain ⟨more, hmore, hall'⟩ :=
      @ih _ _ (i + 1) _ htail hin' (fun e he => hsmall e (List.mem_append_right _ he)) htrace hrest
    refine ⟨events ++ more, ?_, List.rel_append hall hall'⟩
    rw [List.map_cons, Follower.indexBlocks, hmore, hevents, List.append_assoc, List.flatten_append]

theorem Fresh.inStep (h : Fresh ws) : InStep E {} [] ws where
  people := by
    refine ⟨h.keyed, fun p post hp => ?_, fun p a hs => ?_⟩
    · rw [WorldState.getPost, h.posts] at hp
      cases hp
    · rw [WorldState.getPostStake, h.postStakes] at hs
      cases hs
  told p _ _ := by
    have hpost : ws.getPost p = none := by rw [WorldState.getPost, h.posts]; rfl
    refine ⟨by rw [hpost]; rfl, fun a => ?_, fun k row hrow => ?_, by rw [hpost]; rfl⟩
    · rw [heldOn, WorldState.getPostStake, h.postStakes]
      rfl
    · cases hrow

/-- **Indexed rewards equal paid rewards** where nothing before a boost has made
the index lose track of its post: the events of the index are those of the
boosts in their order, and those of a boost are what it credited. -/
theorem rewards_recorded (hf : f.SameFees params) {ws₀ : WorldState} (h₀ : initializeState E params = .ok ws₀)
    {bs : List ((Nat → RangeOrder) × Block)} (hrun : applyBlocks E .go params ws₀ bs = .ok ws)
    (hheights : ∀ b ∈ bs, b.2.header.height.toNat < 2 ^ 63)
    (hsmall : ∀ e ∈ appliedInRun E .go params ws₀ bs, SmallAmounts params e)
    (htrace : BoostsTraceable E (appliedInRun E .go params ws₀ bs)) (rows : Nat → Nat → RowOrder) :
    ∃ events : List (List RewardEvent), (f.indexBlocks E rows 0 {} (bs.map (·.2))).rewardEvents = events.flatten ∧
      List.Forall₂ (RewardsOf E params) (appliedInRun E .go params ws₀ bs) events := by
  obtain ⟨events, hevents, hall⟩ :=
    @applyBlocks_recorded E params ws₀ ws f {} hf rows bs 0 [] hheights (initializeState_fresh h₀).1.inStep hsmall
      htrace hrun
  exact ⟨events, hevents, hall⟩

section

open Sample

theorem boosted_traceable : (applyBlocks env .go config genesis (boosted ++ [tookBack])).isOk = true ∧
    BoostsTraceable env (appliedInRun env .go config genesis (boosted ++ [tookBack])) := by decide +kernel

/-- The author's withdrawal does no harm to the rewards before it. -/
theorem rewards_recorded_withdrawal : ∃ events : List (List RewardEvent),
    (follower.indexBlocks env (fun _ _ => rowOrder) 0 {} ((boosted ++ [tookBack]).map (·.2))).rewardEvents =
      events.flatten ∧
      List.Forall₂ (RewardsOf env config) (appliedInRun env .go config genesis (boosted ++ [tookBack])) events :=
  rewards_recorded follower_sameFees genesis_ok (Except.ok_value boosted_traceable.1) (by decide) tookBack_small.2.1
    boosted_traceable.2 _

/-- Key 2 takes its stake in the post back, and key 3 boosts it. -/
def Sample.reboosted : List ((Nat → RangeOrder) × Block) :=
  boosted ++ [block 3 [unstakePost 2 firstPost 2], block 4 [boostPost 3 firstPost 100 1]]

theorem Sample.reboosted_run : (applyBlocks env .go config genesis reboosted).isOk = true ∧
    (∀ e ∈ appliedInRun env .go config genesis reboosted, SmallAmounts config e) ∧
    (∃ e ∈ appliedInRun env .go config genesis reboosted, e.tx = boostPost 3 firstPost 100 1 ∧
      stakerCredit config e.before e.tx (address 1) = 1) ∧
    ∀ ev ∈ (follower.indexBlocks env (fun _ _ => rowOrder) 0 {} (reboosted.map (·.2))).rewardEvents,
      ev.type = "staker" → ev.triggerAddress ≠ addrString (address 3) := by
  decide +kernel

/-- The author holds all that is staked and is paid one coin, but the index
still counts the stake that went back, and its half of a coin is none. -/
theorem rewards_diverge : follower.SameFees config ∧ initializeState env config = .ok genesis ∧
    (∃ ws, applyBlocks env .go config genesis reboosted = .ok ws) ∧
    (∀ b ∈ reboosted, b.2.header.height.toNat < 2 ^ 63) ∧
    (∀ e ∈ appliedInRun env .go config genesis reboosted, SmallAmounts config e) ∧
    ¬ ∃ events : List (List RewardEvent),
      (follower.indexBlocks env (fun _ _ => rowOrder) 0 {} (reboosted.map (·.2))).rewardEvents = events.flatten ∧
        List.Forall₂ (RewardsOf env config) (appliedInRun env .go config genesis reboosted) events := by
  obtain ⟨hok, hsmall, ⟨e, he, htx, hcredit⟩, hnone⟩ := reboosted_run
  refine ⟨follower_sameFees, genesis_ok, ⟨_, Except.ok_value hok⟩, by decide, hsmall, ?_⟩
  rintro ⟨events, hevents, hall⟩
  obtain ⟨⟨i, hi⟩, hget⟩ := List.mem_iff_get.mp he
  have hi' : i < events.length := by rwa [← hall.length_eq]
  have hrewards := hall.get hi hi'
  rw [hget] at hrewards
  -- The boost of key 3 would need a staker's event.
  have hrecords := hrewards.1 (by rw [htx]; rfl)
  have hone := hrecords.staker (address 1)
  rw [hcredit] at hone
  obtain ⟨ev, hev, -⟩ := List.mem_map.mp (by rw [← amountsTo, hone]; exact List.mem_singleton.mpr rfl :
    (1 : UInt64) ∈ ((events.get ⟨i, hi'⟩).filter fun ev => ev.type = "staker" ∧ ev.recipient = addrString (address 1)).map
      (·.amount))
  rw [List.mem_filter, decide_eq_true_eq] at hev
  obtain ⟨hmem, htype, -⟩ := hev
  have hrecorded : ev ∈ (follower.indexBlocks env (fun _ _ => rowOrder) 0 {} (reboosted.map (·.2))).rewardEvents := by
    rw [hevents]
    exact List.mem_flatten.mpr ⟨_, List.get_mem _ _, hmem⟩
  refine hnone ev hrecorded htype ?_
  rw [(hrecords.about ev hmem).2.2, htx]
  rfl

end

end Drana
