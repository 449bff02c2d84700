/-
Posts and threads: a post is written once; after that its totals, its staker
count and its withdrawal are all that moves. A reply is to a post that stays
what it was when the reply was accepted, the root of its thread.
-/
import Drana.Nonces

namespace Drana

variable {E : Env} {ar : Arith} {params : GenesisConfig} {ws₀ ws w ws' : WorldState} {tx : Transaction}
  {ord : RangeOrder} {p : PostID} {old new : Post}

/-! ## What stays of a post -/

/-- What no operation changes of a post, and what goes one way. -/
structure Lasts (old new : Post) : Prop where
  postID : new.postID = old.postID
  author : new.author = old.author
  text : new.text = old.text
  channel : new.channel = old.channel
  parent : new.parentPostID = old.parentPostID
  createdAtHeight : new.createdAtHeight = old.createdAtHeight
  createdAtTime : new.createdAtTime = old.createdAtTime
  withdrawn : old.withdrawn = true → new.withdrawn = true
  burned : old.totalBurned.toNat ≤ new.totalBurned.toNat

theorem Lasts.refl : Lasts old old := ⟨rfl, rfl, rfl, rfl, rfl, rfl, rfl, id, Nat.le_refl _⟩

theorem Lasts.trans {post : Post} (h : Lasts old post) (h' : Lasts post new) : Lasts old new where
  postID := h'.postID.trans h.postID
  author := h'.author.trans h.author
  text := h'.text.trans h.text
  channel := h'.channel.trans h.channel
  parent := h'.parent.trans h.parent
  createdAtHeight := h'.createdAtHeight.trans h.createdAtHeight
  createdAtTime := h'.createdAtTime.trans h.createdAtTime
  withdrawn hw := h'.withdrawn (h.withdrawn hw)
  burned := h.burned.trans h'.burned

/-- `tx` takes back the stake of the author, and with it the post. -/
def Withdraws (tx : Transaction) (post : Post) : Prop :=
  tx.kind = some .unstakePost ∧ tx.postID = post.postID ∧ tx.sender = post.author

/-- A post lasts, and is withdrawn by its author alone. -/
structure Stays (tx : Transaction) (old new : Post) : Prop extends Lasts old new where
  closed : new.withdrawn = true → old.withdrawn = true ∨ Withdraws tx old

/-- What a transaction does to the posts: those there stay, and one may appear,
which `tx` creates under the post it names. -/
structure TxPosts (ws : WorldState) (tx : Transaction) (ws' : WorldState) : Prop where
  stays : ∀ p old, ws.getPost p = some old → ∃ new, ws'.getPost p = some new ∧ Stays tx old new
  created : ∀ p new, ws.getPost p = none → ws'.getPost p = some new →
    tx.kind = some .createPost ∧ new.parentPostID = tx.postID

theorem TxPosts.of_eq (h : ws'.posts = ws.posts) : TxPosts ws tx ws' where
  stays p old hp := ⟨old, by rwa [WorldState.getPost, h], .refl, .inl⟩
  created p new hnone hp := by
    rw [WorldState.getPost, h, ← WorldState.getPost, hnone] at hp
    cases hp

/-- One post is written over what was there. -/
theorem TxPosts.of_setPost {post : Post} (h : w.posts = ws.posts) (hp : ws.getPost post.postID = some old)
    (hstays : Stays tx old post) : TxPosts ws tx (w.setPost post) := by
  have hother : ∀ {q}, q ≠ post.postID → (w.setPost post).getPost q = ws.getPost q := by
    intro q hq
    rw [WorldState.getPost_setPost_ne hq, WorldState.getPost, h, WorldState.getPost]
  refine ⟨fun q old' hold => ?_, fun q new hnone hnew => ?_⟩
  · by_cases hq : q = post.postID
    · subst hq
      rw [hp] at hold
      cases hold
      exact ⟨post, WorldState.getPost_setPost_self, hstays⟩
    · exact ⟨old', (hother hq).trans hold, .refl, .inl⟩
  · by_cases hq : q = post.postID
    · rw [hq, hp] at hnone
      cases hnone
    · rw [hother hq, hnone] at hnew
      cases hnew

/-! ## Transactions -/

theorem applyCreatePost_posts {height : UInt64} {time : Int64}
    (hfree : ws.getPost (derivePostID E tx.sender (nonceOf ws tx.sender + 1)) = none)
    (h : applyCreatePost E ar params ws tx height time = .ok ws') (hc : tx.kind = some .createPost) :
    TxPosts ws tx ws' := by
  obtain ⟨author, hg, -, staked, -, nonce, hn, balance, -, psb, -, burned, -, rfl⟩ := applyCreatePost_ok_iff.mp h
  rw [nonceOf_of hg, ← Arith.add_ok hn] at hfree
  refine ⟨fun q old hold => ?_, fun q new hnone hnew => ?_⟩
  · have hq : q ≠ derivePostID E tx.sender nonce := by
      rintro rfl
      rw [hfree] at hold
      cases hold
    exact ⟨old, (Finmap.lookup_insert_of_ne ws.posts hq).trans hold, .refl, .inl⟩
  · by_cases hq : q = derivePostID E tx.sender nonce
    · subst hq
      cases (Finmap.lookup_insert _).symm.trans hnew
      exact ⟨hc, rfl⟩
    · cases (Finmap.lookup_insert_of_ne ws.posts hq).symm.trans hnew |>.symm.trans hnone

theorem addBoostStake_posts {post : Post} {n height : UInt64} (h : addBoostStake ar w post tx n height = .ok ws')
    (hw : w.posts = ws.posts) (hp : ws.getPost post.postID = some old)
    (hstays : ∀ count, Stays tx old { post with stakerCount := count }) : TxPosts ws tx ws' := by
  obtain ⟨existing, -, amount, -, rfl⟩ | ⟨-, count, -, rfl⟩ := addBoostStake_ok_iff.mp h
  · exact .of_setPost hw hp (hstays post.stakerCount)
  · exact .of_setPost hw hp (hstays count)

theorem applyBoostPost_posts (hk : Keyed ws) (htrap : ar.trapAdd = true) {height : UInt64}
    (h : applyBoostPost ar params ord ws tx height = .ok ws') : TxPosts ws tx ws' := by
  obtain ⟨booster, -, -, post, hpost, staked, -, balance, -, psb, -, nonce, -, burnedSupply, -, w₁, h₁, w₂, h₂, total,
    -, burned, hburned, h⟩ := applyBoostPost_ok_iff.mp h
  have hposts : w₂.posts = ws.posts := ((payAuthor_frame h₁).trans (payStakers_frame h₂)).posts
  have hfound : ws.getPost post.postID = some post := by rw [hk.post _ post hpost, hpost]
  refine addBoostStake_posts h hposts hfound fun count => ⟨?_, .inl⟩
  exact ⟨rfl, rfl, rfl, rfl, rfl, rfl, rfl, id, le_of_add htrap hburned⟩

/-- The author's loop moves the total and the count. -/
theorem forceUnstake_post {acc acc' : WorldState × Post} {s : PostStake} (h : forceUnstake ar p acc s = .ok acc') :
    acc'.1.posts = acc.1.posts ∧
      acc'.2 = { acc.2 with totalStaked := acc'.2.totalStaked, stakerCount := acc'.2.stakerCount } := by
  obtain ⟨w, hw, total, -, count, -, rfl⟩ := forceUnstake_ok_iff.mp h
  exact ⟨(returnStake_frame hw).posts, rfl⟩

theorem forceUnstakes_post {l : List PostStake} {acc acc' : WorldState × Post}
    (h : l.foldlM (forceUnstake ar p) acc = .ok acc') : acc'.1.posts = acc.1.posts ∧
      acc'.2 = { acc.2 with totalStaked := acc'.2.totalStaked, stakerCount := acc'.2.stakerCount } := by
  refine Except.foldlM_inv (fun r : WorldState × Post => r.1.posts = acc.1.posts ∧
    r.2 = { acc.2 with totalStaked := r.2.totalStaked, stakerCount := r.2.stakerCount }) (fun s _ r r' hr hs => ?_)
      ⟨rfl, rfl⟩ h
  obtain ⟨hposts, hnew⟩ := forceUnstake_post hs
  rw [hr.2] at hnew
  exact ⟨hposts.trans hr.1, hnew⟩

theorem applyUnstakePost_posts (hk : Keyed ws) (h : applyUnstakePost ar ord ws tx = .ok ws')
    (hc : tx.kind = some .unstakePost) : TxPosts ws tx ws' := by
  obtain ⟨sender, -, stake, -, post, hpost, balance, -, psb, -, nonce, -, total, -, count, -, h⟩ :=
    applyUnstakePost_ok_iff.mp h
  have hfound : ws.getPost post.postID = some post := by rw [hk.post _ post hpost, hpost]
  obtain ⟨hauthor, ⟨w, new⟩, hloop, rfl⟩ | ⟨-, rfl⟩ := h
  · obtain ⟨hposts, hnew⟩ := forceUnstakes_post hloop
    rw [show new = _ from hnew]
    refine .of_setPost hposts hfound ⟨⟨rfl, rfl, rfl, rfl, rfl, rfl, rfl, fun _ => rfl, Nat.le_refl _⟩, fun _ => .inr ?_⟩
    exact ⟨hc, (hk.post _ post hpost).symm, hauthor⟩
  · exact .of_setPost rfl hfound ⟨⟨rfl, rfl, rfl, rfl, rfl, rfl, rfl, id, Nat.le_refl _⟩, .inl⟩

theorem executeTransaction_posts (hk : Keyed ws) (htrap : ar.trapAdd = true) {header : BlockHeader} {i : Nat}
    (hfree : tx.kind = some .createPost → ws.getPost (derivePostID E tx.sender (nonceOf ws tx.sender + 1)) = none)
    (h : executeTransaction E ar params ord header i ws tx = .ok ws') : TxPosts ws tx ws' := by
  obtain ⟨-, h⟩ := executeTransaction_ok_iff.mp h
  unfold applyTransaction at h
  split at h
  · exact .of_eq (applyTransfer_frame h).posts
  · next hc => exact applyCreatePost_posts (hfree hc) h hc
  · exact applyBoostPost_posts hk htrap h
  · next hc => exact applyUnstakePost_posts hk h hc
  · obtain ⟨sender, -, nonce, -, rfl⟩ := applyRegisterName_ok_iff.mp h
    exact .of_eq rfl
  · exact .of_eq (applyStake_frame h).posts
  · exact .of_eq (applyUnstake_frame h).posts
  · cases h

/-- A reply is accepted only to a post that is no reply. -/
theorem executeTransaction_parent {header : BlockHeader} {i : Nat} (hc : tx.kind = some .createPost)
    (h : executeTransaction E ar params ord header i ws tx = .ok ws') (hreply : tx.postID ≠ ByteArr.zero) :
    ∃ parent, ws.getPost tx.postID = some parent ∧ parent.parentPostID = ByteArr.zero := by
  obtain ⟨hv, -⟩ := executeTransaction_ok_iff.mp h
  simp only [validateTransaction, hc, validateCreatePost, validateParent, hreply, ne_eq, not_false_eq_true, if_true,
    Except.bind_ok_iff, Except.orThrow_ok_iff, Except.throwIf_ok_iff, Decidable.not_not] at hv
  obtain ⟨-, -, -, -, -, -, -, ⟨parent, hparent, hroot⟩, -⟩ := hv
  exact ⟨parent, hparent, hroot⟩

/-! ## Runs -/

/-- The sender's nonce does not wrap where sums stop. -/
theorem executeTransaction_counts (htrap : ar.trapAdd = true) {header : BlockHeader} {i : Nat}
    (h : executeTransaction E ar params ord header i ws tx = .ok ws') : (nonceOf ws tx.sender).toNat + 1 < 2 ^ 64 := by
  obtain ⟨-, h⟩ := executeTransaction_ok_iff.mp h
  obtain ⟨sender, nonce, hg, hn⟩ := applyTransaction_sender h
  have hsum := Arith.add_toNat hn htrap
  have hbound := nonce.toNat_lt
  rw [UInt64.toNat_one] at hsum
  rw [nonceOf_of hg]
  omega

/-- Every post there was lasts. -/
def PostsLast (ws ws' : WorldState) : Prop :=
  ∀ p old, ws.getPost p = some old → ∃ new, ws'.getPost p = some new ∧ Lasts old new

theorem PostsLast.refl : PostsLast ws ws := fun _ old hp => ⟨old, hp, .refl⟩

theorem PostsLast.trans (h : PostsLast ws w) (h' : PostsLast w ws') : PostsLast ws ws' := by
  intro p old hp
  obtain ⟨post, hpost, hlasts⟩ := h p old hp
  obtain ⟨new, hnew, hlasts'⟩ := h' p post hpost
  exact ⟨new, hnew, hlasts.trans hlasts'⟩

theorem PostsLast.of_eq (h : ws'.posts = ws.posts) : PostsLast ws ws' :=
  fun p old hp => ⟨old, by rwa [WorldState.getPost, h], .refl⟩

theorem TxPosts.lasts (h : TxPosts ws tx ws') : PostsLast ws ws' := by
  intro p old hp
  obtain ⟨new, hnew, hstays⟩ := h.stays p old hp
  exact ⟨new, hnew, hstays.toLasts⟩

/-- Replies are to posts that are no replies. -/
def FlatThreads (ws : WorldState) : Prop :=
  ∀ p post, ws.getPost p = some post → post.parentPostID ≠ ByteArr.zero →
    ∃ parent, ws.getPost post.parentPostID = some parent ∧ parent.parentPostID = ByteArr.zero

theorem FlatThreads.of_eq (h : FlatThreads ws) (hp : ws'.posts = ws.posts) : FlatThreads ws' := by
  intro p post hpost hreply
  simp only [WorldState.getPost, hp] at hpost ⊢
  exact h p post hpost hreply

theorem FlatThreads.transaction (h : FlatThreads ws) (hposts : TxPosts ws tx ws') {header : BlockHeader} {i : Nat}
    (hs : executeTransaction E ar params ord header i ws tx = .ok ws') : FlatThreads ws' := by
  -- The root of a thread lasts, a root as before.
  have hroot : ∀ q parent, ws.getPost q = some parent → parent.parentPostID = ByteArr.zero →
      ∃ parent', ws'.getPost q = some parent' ∧ parent'.parentPostID = ByteArr.zero := by
    intro q parent hq hz
    obtain ⟨parent', hq', hlasts⟩ := hposts.lasts q parent hq
    exact ⟨parent', hq', hlasts.parent.trans hz⟩
  intro p post hpost hreply
  cases hp : ws.getPost p with
  | some old =>
    obtain ⟨new, hnew, hlasts⟩ := hposts.lasts p old hp
    rw [hpost] at hnew
    cases hnew
    rw [hlasts.parent] at hreply ⊢
    obtain ⟨parent, hparent, hz⟩ := h p old hp hreply
    exact hroot _ parent hparent hz
  | none =>
    obtain ⟨hc, hnamed⟩ := hposts.created p post hp hpost
    rw [hnamed] at hreply ⊢
    obtain ⟨parent, hparent, hz⟩ := executeTransaction_parent hc hs hreply
    exact hroot _ parent hparent hz

/-- The posts of `base` last, threads are flat, and no post ID comes twice. -/
structure Threaded (E : Env) (base : WorldState) (log : List Applied) (ws : WorldState) : Prop where
  numbered : Numbered E log ws
  few : ∀ a, sentIn a log < 2 ^ 64
  lasts : PostsLast base ws
  flat : FlatThreads ws

namespace Threaded

variable {base : WorldState} {log : List Applied}

theorem same (h : Threaded E base log ws) (hs : SameNumbers ws ws') (hf : Frame ws ws') (hw : Writes ws ws') :
    Threaded E base log ws' where
  numbered := h.numbered.same hs hf hw
  few := h.few
  lasts := h.lasts.trans (.of_eq hf.posts)
  flat := h.flat.of_eq hf.posts

theorem transaction (h : Threaded E base log ws) (htrap : ar.trapAdd = true) (hinj : PostIDsDistinct E)
    {header : BlockHeader} {i : Nat} (hs : executeTransaction E ar params ord header i ws tx = .ok ws') :
    Threaded E base (log ++ [⟨ws, tx, ws'⟩]) ws' := by
  have hcount : sentIn tx.sender log + 1 < 2 ^ 64 := by
    have := executeTransaction_counts htrap hs
    rwa [h.numbered.nonce, UInt64.toNat_ofNat_of_lt' (h.few _)] at this
  have hposts := executeTransaction_posts h.numbered.keyed htrap (fun _ => h.numbered.free hinj hcount) hs
  refine ⟨h.numbered.transaction hs, fun a => ?_, h.lasts.trans hposts.lasts, h.flat.transaction hposts hs⟩
  rw [sentIn_concat]
  split
  · next ha =>
    rw [ha]
    exact hcount
  · exact h.few a

end Threaded

theorem keeps_threaded (htrap : ar.trapAdd = true) (hinj : PostIDsDistinct E) (base : WorldState) :
    Keeps E ar params (Threaded E base) where
  release hP h := hP.same (releaseMatured_numbers h) (releaseMatured_frame h) (releaseMatured_writes h)
  slash hP h := hP.same (applySlashEvidence_numbers h) (applySlashEvidence_frame h) (applySlashEvidence_writes h)
  tx hP h := hP.transaction htrap hinj h
  reward hP h := hP.same (issueReward_numbers h) (issueReward_frame h) (issueReward_writes h)
  epoch hP := hP.same epochTransition_numbers epochTransition_frame epochTransition_writes
  height hP := hP.same (SameNumbers.refl.congr rfl rfl rfl) (Frame.refl.congr rfl rfl rfl) (.other .refl rfl rfl rfl)

theorem initializeState_threaded (h : initializeState E params = .ok ws) : Threaded E ws [] ws := by
  have hnone : ∀ p, ws.getPost p = none := fun p => by simp [WorldState.getPost, (initializeState_fresh h).1.posts]
  refine ⟨(initializeState_numbered h).1, fun a => by simp [sentIn], .refl, fun p post hp => ?_⟩
  rw [hnone p] at hp
  cases hp

/-- **Posts are immutable, threads are flat**: what a run reaches holds every
post of the states it passed, with nothing changed but totals, staker count and
withdrawal, and each reply in it is to a post that is no reply. -/
theorem posts_immutable (hinj : PostIDsDistinct E) (h₀ : initializeState E params = .ok ws₀)
    {bs bs' : List ((Nat → RangeOrder) × Block)} (hrun : applyBlocks E .go params ws₀ bs = .ok ws)
    (hrun' : applyBlocks E .go params ws bs' = .ok ws') (hw : NoSumWraps E params ws₀ (bs ++ bs')) :
    PostsLast ws ws' ∧ FlatThreads ws' := by
  have hall : applyBlocks E .go params ws₀ (bs ++ bs') = .ok ws' := by
    rw [applyBlocks, List.foldlM_append]
    exact Except.bind_ok_iff.mpr ⟨ws, hrun, hrun'⟩
  have hsums := hw.trans hall
  rw [applyBlocks, List.foldlM_append, Except.bind_ok_iff] at hsums
  obtain ⟨w, hfirst, hrest⟩ := hsums
  have hsame := (applyBlocks_extends (Arith.stops_go _) w hfirst).symm.trans hrun
  cases hsame
  have hmid := (keeps_threaded rfl hinj ws₀).fromStart (initializeState_threaded h₀) hfirst
  have hend := (keeps_threaded rfl hinj ws).run ⟨hmid.numbered, hmid.few, .refl, hmid.flat⟩ hrest
  exact ⟨hend.lasts, hend.flat⟩

section

open Sample

/-- The author's withdrawal rewrites the post the first block created. -/
theorem posts_immutable_withdrawal : ∃ ws ws', applyBlocks env .go config genesis (withdrawal.take 1) = .ok ws ∧
    applyBlocks env .go config ws (withdrawal.drop 1) = .ok ws' ∧ PostsLast ws ws' ∧ FlatThreads ws' := by
  obtain ⟨hrun, hw⟩ := run_of_isOk withdrawal_isOk
  have hsplit := hrun
  rw [applyBlocks, ← List.take_append_drop 1 withdrawal, List.foldlM_append, Except.bind_ok_iff] at hsplit
  obtain ⟨ws, hfirst, hrest⟩ := hsplit
  rw [← List.take_append_drop 1 withdrawal] at hw
  exact ⟨ws, _, hfirst, hrest, posts_immutable env_postIDsDistinct genesis_ok hfirst hrest hw⟩

end

end Drana
