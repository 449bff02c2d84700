/-
The accounts of the posts. One quantity is kept three times: in the stake
records, in their posts' totals and in the stakers' accounts. Every run keeps
the three equal, and a post open exactly as long as its author has a stake.
-/
import Drana.Conservation

namespace Drana

variable {E : Env} {ar : Arith} {cfg : GenesisConfig} {ws ws' : WorldState} {a : Address} {p : PostID}
  {post : Post} {tx : Transaction} {ord : RangeOrder}

/-- Post IDs do not collide. -/
def PostIDsDistinct (E : Env) : Prop :=
  ∀ a n a' n', derivePostID E a n = derivePostID E a' n' → a = a' ∧ n = n'

/-- What every reachable state has. The last field says which IDs are taken:
an author's, up to its nonce. -/
structure PostBooks (E : Env) (ws : WorldState) : Prop where
  books : Books ws
  tally : ∀ p post, ws.getPost p = some post → Tallied ws post
  held : ∀ a acct, ws.getAccount a = some acct → acct.postStakeBalance.toNat = stakedBy ws a
  post : ∀ p a s, ws.getPostStake p a = some s → ∃ post, ws.getPost p = some post
  withdrawn : ∀ p post, ws.getPost p = some post → post.withdrawn = true → ∀ a, ws.getPostStake p a = none
  byAuthor : ∀ p post, ws.getPost p = some post → post.withdrawn = false →
    ∃ s, ws.getPostStake p post.author = some s
  ids : ∀ p post, ws.getPost p = some post → ∃ acct n, ws.getAccount post.author = some acct ∧
    p = derivePostID E post.author n ∧ n.toNat ≤ acct.nonce.toNat

/-- A post is open while its author's stake lies on it. -/
theorem PostBooks.open_iff (hb : PostBooks E ws) (hp : ws.getPost p = some post) :
    post.withdrawn = false ↔ (ws.getPostStake p post.author).isSome = true := by
  constructor
  · intro h
    obtain ⟨s, hs⟩ := hb.byAuthor p post hp h
    rw [hs]
    rfl
  · intro h
    by_contra hne
    rw [hb.withdrawn p post hp (Bool.not_eq_false _ ▸ hne)] at h
    cases h

theorem stakedOn_none (h : ∀ a, ws.getPostStake p a = none) : stakedOn ws p = 0 := by
  unfold stakedOn stakedAt
  refine GoMap.total_eq_zero fun k s hk => ?_
  rw [if_neg]
  rintro rfl
  have := h k.2
  rw [WorldState.getPostStake] at this
  rw [this] at hk
  cases hk

theorem stakersOn_none (h : ∀ a, ws.getPostStake p a = none) : stakersOn ws p = 0 := by
  unfold stakersOn
  refine GoMap.total_eq_zero fun k s hk => ?_
  rw [if_neg]
  rintro rfl
  have := h k.2
  rw [WorldState.getPostStake] at this
  rw [this] at hk
  cases hk

theorem Tallied.congr (h : ws'.postStakes = ws.postStakes) (ht : Tallied ws post) : Tallied ws' post := by
  rw [Tallied, stakedOn, stakedAt, stakersOn, h]
  exact ht

theorem Fresh.postBooks (h : Fresh ws) : PostBooks E ws where
  books := h.books
  tally p post hp := by simp [WorldState.getPost, h.posts] at hp
  held b acct hg := by
    rw [stakedBy, stakedAt, h.postStakes, GoMap.total_empty, h.unstaked b acct hg]
    rfl
  post p b s hs := by simp [WorldState.getPostStake, h.postStakes] at hs
  withdrawn p post hp := by simp [WorldState.getPost, h.posts] at hp
  byAuthor p post hp := by simp [WorldState.getPost, h.posts] at hp
  ids p post hp := by simp [WorldState.getPost, h.posts] at hp

namespace PostBooks

theorem kept (hb : PostBooks E ws) (h : StakesKept ws ws') : PostBooks E ws' where
  books := hb.books.kept h
  tally q post hq := (hb.tally q post (h.getPost q ▸ hq)).congr h.postStakes
  held b acct' hg' := by
    rw [h.stakedBy]
    cases hg : ws.getAccount b with
    | none =>
      rw [hb.books.stakedBy_none hg, h.fresh b acct' hg hg']
      rfl
    | some acct =>
      obtain ⟨acct₁, hg₁, hp, -⟩ := h.kept b acct hg
      rw [hg'] at hg₁
      cases hg₁
      rw [hp]
      exact hb.held b acct hg
  post q b s hs := by
    rw [h.getPostStake] at hs
    rw [h.getPost]
    exact hb.post q b s hs
  withdrawn q post hq hw b := by
    rw [h.getPost] at hq
    rw [h.getPostStake]
    exact hb.withdrawn q post hq hw b
  byAuthor q post hq hw := by
    rw [h.getPost] at hq
    rw [h.getPostStake]
    exact hb.byAuthor q post hq hw
  ids q post hq := by
    rw [h.getPost] at hq
    obtain ⟨acct, n, hg, hid, hn⟩ := hb.ids q post hq
    obtain ⟨acct', hg', -, hle⟩ := h.kept _ acct hg
    exact ⟨acct', n, hg', hid, hn.trans hle⟩

/-- What is paid in is in the record and in the account. -/
theorem held_stakeAdded {n : Nat} {s : PostStake} (hb : PostBooks E ws) (h : StakeAdded n post s ws ws')
    (hs : s.amount.toNat = heldOn ws s.postID s.staker + n) (acct' : Account)
    (hg' : ws'.getAccount a = some acct') : acct'.postStakeBalance.toNat = stakedBy ws' a := by
  have ht := h.stakedAt (P := (·.2 = a))
  rw [← stakedBy, ← stakedBy] at ht
  cases hg : ws.getAccount a with
  | none =>
    have hne : s.staker ≠ a := by
      rintro rfl
      obtain ⟨acct, hacct⟩ := h.staker
      rw [hg] at hacct
      cases hacct
    rw [if_neg hne, if_neg hne, hb.books.stakedBy_none hg] at ht
    rw [h.fresh a acct' hg hg', UInt64.toNat_zero]
    omega
  | some acct =>
    have heq := hb.held a acct hg
    obtain ⟨acct₁, hg₁, hp, -⟩ := h.kept a acct hg
    rw [hg'] at hg₁
    cases hg₁
    by_cases hst : s.staker = a
    · rw [if_pos hst, if_pos hst] at ht
      rw [if_pos hst] at hp
      omega
    · rw [if_neg hst, if_neg hst] at ht
      rw [if_neg hst] at hp
      omega

/-- A new post's ID is not taken. -/
theorem fresh_id (hb : PostBooks E ws) (hinj : PostIDsDistinct E) {sender : Account} {n : UInt64}
    (hg : ws.getAccount a = some sender) (hn : sender.nonce.toNat < n.toNat) :
    ws.getPost (derivePostID E a n) = none := by
  cases hp : ws.getPost (derivePostID E a n) with
  | none => rfl
  | some post =>
    obtain ⟨acct, m, hacct, hid, hm⟩ := hb.ids _ post hp
    obtain ⟨rfl, rfl⟩ := hinj _ _ _ _ hid
    rw [hg] at hacct
    cases hacct
    omega

theorem noStakes (hb : PostBooks E ws) (h : ws.getPost p = none) (a : Address) : ws.getPostStake p a = none := by
  cases hs : ws.getPostStake p a with
  | none => rfl
  | some s =>
    obtain ⟨post, hp⟩ := hb.post p a s hs
    rw [h] at hp
    cases hp

theorem created (hb : PostBooks E ws) {sender : Account} {s : PostStake}
    (h : CreateEffect E cfg ws tx ws' sender post s) (hnew : ws.getPost post.postID = none) : PostBooks E ws' := by
  obtain ⟨sender', hsender', hnonce, hid⟩ := h.next
  have hnone := hb.noStakes hnew
  have hheld : heldOn ws post.postID tx.sender = 0 := heldOn_none (hnone tx.sender)
  -- The new post has the one record; every other post has the records it had.
  have hstake : ∀ q b, ws'.getPostStake q b =
      if (q, b) = (post.postID, tx.sender) then some s else ws.getPostStake q b := by
    intro q b
    rw [h.added.getPostStake, h.postID, h.staker]
  have htallied : ∀ q post', ws'.getPost q = some post' → Tallied ws' post' := by
    intro q post' hq
    have hst := h.added.stakedAt (P := (·.1 = post'.postID))
    have hcnt := h.added.stakersOn (q := post'.postID)
    rw [← stakedOn, ← stakedOn] at hst
    rw [h.postID, h.staker] at hst hcnt
    rw [h.added.getPost] at hq
    split at hq
    · cases hq
      rw [if_pos rfl, if_pos rfl, hheld, stakedOn_none hnone] at hst
      rw [hnone, if_pos rfl, stakersOn_none hnone] at hcnt
      refine ⟨?_, ?_⟩
      · rw [h.total, ← h.amount]
        omega
      · rw [h.count, UInt64.toNat_one]
        simpa using hcnt.symm
    · next hne =>
      have hkey := hb.books.keyed.post q post' hq
      have hne' : post.postID ≠ post'.postID := fun he => hne (by rw [he, hkey])
      rw [if_neg hne', if_neg hne'] at hst
      rw [if_neg fun hc => hne' hc.1, if_neg hne'] at hcnt
      obtain ⟨h₁, h₂⟩ := hb.tally q post' hq
      exact ⟨by omega, by omega⟩
  refine ⟨?_, htallied, ?_, ?_, ?_, ?_, ?_⟩
  · refine hb.books.stakeAdded h.added ?_ ⟨sender, h.author ▸ h.found⟩
    rw [h.amount]
    omega
  · refine fun b acct' hg' => hb.held_stakeAdded h.added ?_ acct' hg'
    rw [h.postID, h.staker, hheld, h.amount, Nat.zero_add]
  · intro q b t ht
    rw [hstake] at ht
    rw [h.added.getPost]
    split at ht
    · next hk => exact ⟨post, if_pos (Prod.mk.inj hk).1⟩
    · obtain ⟨post', hp'⟩ := hb.post q b t ht
      rw [if_neg, hp']
      · exact ⟨post', rfl⟩
      · rintro rfl
        rw [hnew] at hp'
        cases hp'
  · intro q post' hq hw b
    rw [h.added.getPost] at hq
    split at hq
    · cases hq
      rw [h.withdrawn] at hw
      cases hw
    · next hne =>
      rw [hstake, if_neg fun hk => hne (Prod.mk.inj hk).1]
      exact hb.withdrawn q post' hq hw b
  · intro q post' hq hw
    rw [h.added.getPost] at hq
    rw [hstake]
    split at hq
    · next hqp =>
      cases hq
      exact ⟨s, if_pos (by rw [hqp, h.author])⟩
    · next hne =>
      rw [if_neg fun hk => hne (Prod.mk.inj hk).1]
      exact hb.byAuthor q post' hq hw
  · intro q post' hq
    rw [h.added.getPost] at hq
    split at hq
    · next hqp =>
      cases hq
      exact ⟨sender', sender'.nonce, h.author ▸ hsender', by rw [hqp, hid, h.author], Nat.le_refl _⟩
    · obtain ⟨acct, n, hg, hid', hn⟩ := hb.ids q post' hq
      obtain ⟨acct', hg', -, hle⟩ := h.added.kept _ acct hg
      exact ⟨acct', n, hg', hid', hn.trans hle⟩

theorem boosted (hb : PostBooks E ws) {old new : Post} {s : PostStake} {staked : UInt64}
    (h : BoostEffect cfg ws tx ws' old new s staked) (hopen : old.withdrawn = false) : PostBooks E ws' := by
  have hold := hb.books.keyed.post _ old h.found
  have hnew : new.postID = tx.postID := h.samePost.1.trans hold
  have hstake : ∀ q b, ws'.getPostStake q b =
      if (q, b) = (tx.postID, tx.sender) then some s else ws.getPostStake q b := by
    intro q b
    rw [h.added.getPostStake, h.stake.1, h.stake.2]
  have hpost : ∀ q, ws'.getPost q = if q = tx.postID then some new else ws.getPost q := by
    intro q
    rw [h.added.getPost, hnew]
  have htallied : ∀ q post', ws'.getPost q = some post' → Tallied ws' post' := by
    intro q post' hq
    have hst := h.added.stakedAt (P := (·.1 = post'.postID))
    have hcnt := h.added.stakersOn (q := post'.postID)
    rw [← stakedOn, ← stakedOn] at hst
    rw [h.stake.1, h.stake.2, h.amount] at hst
    rw [h.stake.1, h.stake.2] at hcnt
    rw [hpost] at hq
    split at hq
    · cases hq
      obtain ⟨h₁, h₂⟩ := hb.tally _ old h.found
      rw [hold] at h₁ h₂
      rw [hnew, if_pos rfl, if_pos rfl] at hst
      rw [hnew, if_pos rfl] at hcnt
      rw [Tallied, hnew, h.total, h.count]
      refine ⟨by omega, ?_⟩
      cases hsome : (ws.getPostStake tx.postID tx.sender).isSome <;> simp [hsome] at hcnt ⊢ <;> omega
    · next hne =>
      have hkey := hb.books.keyed.post q post' hq
      have hne' : tx.postID ≠ post'.postID := fun he => hne (by rw [he, hkey])
      rw [if_neg hne', if_neg hne'] at hst
      rw [if_neg fun hc => hne' hc.1, if_neg hne'] at hcnt
      obtain ⟨h₁, h₂⟩ := hb.tally q post' hq
      exact ⟨by omega, by omega⟩
  have hs : s.amount.toNat = heldOn ws s.postID s.staker + staked.toNat := by
    rw [h.amount, h.stake.1, h.stake.2]
  refine ⟨?_, htallied, fun b acct' hg' => hb.held_stakeAdded h.added hs acct' hg', ?_, ?_, ?_, ?_⟩
  · exact hb.books.stakeAdded h.added (Nat.le_of_eq hs) (h.samePost.2.1 ▸ hb.books.author _ old h.found)
  · intro q b t ht
    rw [hstake] at ht
    rw [hpost]
    split at ht
    · next hk => exact ⟨new, if_pos (Prod.mk.inj hk).1⟩
    · obtain ⟨post', hp'⟩ := hb.post q b t ht
      split
      · exact ⟨new, rfl⟩
      · exact ⟨post', hp'⟩
  · intro q post' hq hw b
    rw [hpost] at hq
    split at hq
    · cases hq
      rw [h.samePost.2.2, hopen] at hw
      cases hw
    · next hne =>
      rw [hstake, if_neg fun hk => hne (Prod.mk.inj hk).1]
      exact hb.withdrawn q post' hq hw b
  · intro q post' hq hw
    rw [hstake]
    rw [hpost] at hq
    have hold' : ∃ t, ws.getPostStake q post'.author = some t := by
      split at hq
      · next hqp =>
        cases hq
        rw [h.samePost.2.1, hqp]
        exact hb.byAuthor _ old h.found hopen
      · exact hb.byAuthor q post' hq hw
    split
    · exact ⟨s, rfl⟩
    · exact hold'
  · intro q post' hq
    rw [hpost] at hq
    have hold' : ∃ acct n, ws.getAccount post'.author = some acct ∧ q = derivePostID E post'.author n ∧
        n.toNat ≤ acct.nonce.toNat := by
      split at hq
      · next hqp =>
        cases hq
        rw [h.samePost.2.1, hqp]
        exact hb.ids _ old h.found
      · exact hb.ids q post' hq
    obtain ⟨acct, n, hg, hid, hn⟩ := hold'
    obtain ⟨acct', hg', -, hle⟩ := h.added.kept _ acct hg
    exact ⟨acct', n, hg', hid, hn.trans hle⟩

theorem withdrew (hb : PostBooks E ws) (htrap : ar.trapAdd = true) {w : WorldState} {old new : Post}
    (h : UnstakeEffect ar ws tx ws' w old new) : PostBooks E ws' := by
  have hpost : ∀ q, ws'.getPost q = if q = tx.postID then some new else ws.getPost q := by
    intro q
    have hw : w.getPost q = ws.getPost q := by rw [WorldState.getPost, h.unstaked.posts, WorldState.getPost]
    rw [h.result]
    split
    · next hq => rw [hq, ← h.samePost.1, WorldState.getPost_setPost_self]
    · next hq => rw [WorldState.getPost_setPost_ne (by rwa [h.samePost.1]), hw]
  have hstake : ∀ q b, ws'.getPostStake q b = w.getPostStake q b := by
    intro q b
    rw [h.result, WorldState.getPostStake_setPost]
  have hother : ∀ q, q ≠ tx.postID → ∀ b, w.getPostStake q b = ws.getPostStake q b :=
    fun q hq b => h.unstaked.others q b hq
  refine ⟨h.books hb.books, ?_, ?_, ?_, ?_, ?_, ?_⟩
  · intro q post' hq
    have hw : Tallied w post' := by
      rw [hpost] at hq
      split at hq
      · cases hq
        exact h.tallied (hb.tally _ old h.found)
      · next hne =>
        have hkey := hb.books.keyed.post q post' hq
        obtain ⟨h₁, h₂⟩ := hb.tally q post' hq
        obtain ⟨h₃, h₄⟩ := h.unstaked.tallies post'.postID (by rwa [hkey])
        exact ⟨by rw [h₁, h₃], by rw [h₂, h₄]⟩
    exact hw.congr (by rw [h.result]; rfl)
  · intro b acct' hg'
    have hst : stakedBy ws' b = stakedBy w b := by rw [h.result]; rfl
    have hsum := h.unstaked.staked b
    rw [h.result, WorldState.getAccount_setPost] at hg'
    cases hg : ws.getAccount b with
    | none =>
      rw [h.unstaked.fresh b hg] at hg'
      cases hg'
    | some acct =>
      have heq := hb.held b acct hg
      obtain ⟨acct₁, hg₁, hp, -⟩ := h.unstaked.kept b acct hg
      rw [hg'] at hg₁
      cases hg₁
      omega
  · intro q b t ht
    rw [hstake] at ht
    rw [hpost]
    split
    · exact ⟨new, rfl⟩
    · next hne => exact hb.post q b t (hother q hne b ▸ ht)
  · intro q post' hq hw b
    rw [hpost] at hq
    rw [hstake]
    split at hq
    · next hqp =>
      cases hq
      subst hqp
      by_cases hauthor : tx.sender = old.author
      · exact (h.byAuthor hauthor).2 b
      · -- A post withdrawn before has no record its sender could take back.
        obtain ⟨s, hs⟩ := h.held
        rw [(h.byOther hauthor).1] at hw
        rw [hb.withdrawn _ old h.found hw tx.sender] at hs
        cases hs
    · next hne =>
      rw [hother q hne]
      exact hb.withdrawn q post' hq hw b
  · intro q post' hq hw
    rw [hpost] at hq
    rw [hstake]
    split at hq
    · next hqp =>
      cases hq
      subst hqp
      by_cases hauthor : tx.sender = old.author
      · rw [(h.byAuthor hauthor).1] at hw
        cases hw
      · rw [(h.byOther hauthor).1] at hw
        rw [h.samePost.2, (h.byOther hauthor).2 old.author fun he => hauthor he.symm]
        exact hb.byAuthor _ old h.found hw
    · next hne =>
      rw [hother q hne]
      exact hb.byAuthor q post' hq hw
  · intro q post' hq
    rw [hpost] at hq
    have hold : ∃ acct n, ws.getAccount post'.author = some acct ∧ q = derivePostID E post'.author n ∧
        n.toNat ≤ acct.nonce.toNat := by
      split at hq
      · next hqp =>
        cases hq
        rw [h.samePost.2, hqp]
        exact hb.ids _ old h.found
      · exact hb.ids q post' hq
    obtain ⟨acct, n, hg, hid, hn⟩ := hold
    obtain ⟨acct', hg', -, hb'⟩ := h.unstaked.kept _ acct hg
    refine ⟨acct', n, ?_, hid, hn.trans (hb' htrap).2⟩
    rw [h.result, WorldState.getAccount_setPost]
    exact hg'

/-- A post that a boost is accepted for is open. -/
theorem executeTransaction_open {header : BlockHeader} {i : Nat} {old : Post} (hkind : tx.kind = some .boostPost)
    (hp : ws.getPost tx.postID = some old) (h : executeTransaction E ar cfg ord header i ws tx = .ok ws') :
    old.withdrawn = false := by
  obtain ⟨hv, -⟩ := executeTransaction_ok_iff.mp h
  simp only [validateTransaction, hkind, validateBoostPost, Except.bind_ok_iff, Except.orThrow_ok_iff,
    Except.throwIf_ok_iff, WorldState.reader, hp, Option.some.injEq] at hv
  obtain ⟨-, -, post, rfl, -, hopen, -⟩ := hv
  simpa using hopen

end PostBooks

/-- The books after a transaction whose post, if it makes one, is new. -/
theorem PostBooks.next (hb : PostBooks E ws) (htrap : ar.trapAdd = true) (hf : FeesFit cfg tx)
    {header : BlockHeader} {i : Nat} (h : executeTransaction E ar cfg ord header i ws tx = .ok ws')
    (hnew : tx.kind = some .createPost → ∀ sender post s, CreateEffect E cfg ws tx ws' sender post s →
      ws.getPost post.postID = none) : PostBooks E ws' := by
  cases hf.effect htrap hb.books h with
  | plain _ _ kept => exact hb.kept kept
  | create sender post s kind effect => exact hb.created effect (hnew kind sender post s effect)
  | boost old new s staked kind effect =>
    exact hb.boosted effect (PostBooks.executeTransaction_open kind effect.found h)
  | unstake w old new kind effect => exact hb.withdrew htrap effect

theorem executeTransaction_postBooks (htrap : ar.trapAdd = true) (hp : PercentagesOk cfg)
    (hinj : PostIDsDistinct E) {header : BlockHeader} {i : Nat} (hb : PostBooks E ws)
    (h : executeTransaction E ar cfg ord header i ws tx = .ok ws') : PostBooks E ws' := by
  refine hb.next htrap hp.feesFit h fun _ sender post s effect => ?_
  obtain ⟨sender', -, hnonce, hid⟩ := effect.next
  exact hid ▸ hb.fresh_id hinj effect.found (by omega)

/-- **Every step keeps the post books.** -/
theorem keeps_postBooks (htrap : ar.trapAdd = true) (hp : PercentagesOk cfg) (hinj : PostIDsDistinct E) :
    Keeps E ar cfg fun _ ws => PostBooks E ws :=
  .of_kept htrap (fun hb => hb.books.keyed) PostBooks.kept
    (fun hb h => executeTransaction_postBooks htrap hp hinj hb h)

/-! ## No difference wraps -/

theorem forceUnstake_noBorrow {w : WorldState} {old new : Post} {s : PostStake} (hb : Books ws)
    (ht : Tallied ws old) (hp : p = old.postID) (hs : ws.getPostStake p s.staker = some s)
    (h : forceUnstake ar p (ws, old) s = .ok (w, new)) : forceUnstake ar.noBorrow p (ws, old) s = .ok (w, new) := by
  subst hp
  obtain ⟨acct, hg⟩ := hb.staker _ _ _ hs
  obtain ⟨hle, hpos, -⟩ := ht.remove hs
  have hheld : s.amount.toNat ≤ acct.postStakeBalance.toNat := by
    rw [← heldOn_of hs]
    exact heldOn_le_stakedBy.trans (hb.held _ acct hg)
  obtain ⟨_, hw, total, htotal, count, hcount, hnew⟩ := forceUnstake_ok_iff.mp h
  refine forceUnstake_ok_iff.mpr
    ⟨_, ?_, total, Arith.noBorrow_sub htotal hle, count, Arith.noBorrow_sub hcount hpos, hnew⟩
  obtain ⟨_, hacct, balance, hbal, psb, hpsb, rfl⟩ | ⟨hnone, -⟩ := returnStake_ok_iff.mp hw
  · cases hg.symm.trans hacct
    exact returnStake_ok_iff.mpr
      (.inl ⟨acct, hg, balance, Arith.noBorrow_add hbal, psb, Arith.noBorrow_sub hpsb hheld, rfl⟩)
  · cases hg.symm.trans hnone

theorem forceUnstakeAll_noBorrow {w : WorldState} (old : Post) {new : Post} {l : List PostStake} (hb : Books ws)
    (ht : Tallied ws old) (hp : p = old.postID) (hl : ∀ s ∈ l, ws.getPostStake p s.staker = some s)
    (hnd : (l.map (·.staker)).Nodup) (h : l.foldlM (forceUnstake ar p) (ws, old) = .ok (w, new)) :
    l.foldlM (forceUnstake ar.noBorrow p) (ws, old) = .ok (w, new) := by
  induction l generalizing ws old with
  | nil => exact h
  | cons s l ih =>
    obtain ⟨⟨w₁, mid⟩, hw, hrest⟩ := Except.foldlM_cons_ok_iff.mp h
    have hone := forceUnstake_effect hb hp (hl s List.mem_cons_self) hw
    obtain ⟨hl', hnd'⟩ := hone.rest hp hl hnd
    exact Except.foldlM_cons_ok_iff.mpr ⟨(w₁, mid), forceUnstake_noBorrow hb ht hp (hl s List.mem_cons_self) hw,
      ih mid (hb.unstaked (hp ▸ hone.unstaked)) (hone.tallied ht) (hp.trans hone.samePost.1.symm) hl' hnd' hrest⟩

/-- **An UnstakePost that succeeds subtracts within bounds.** -/
theorem applyUnstakePost_noBorrow (hb : PostBooks E ws) (h : applyUnstakePost ar ord ws tx = .ok ws') :
    applyUnstakePost ar.noBorrow ord ws tx = .ok ws' := by
  obtain ⟨sender, hg, s, hs, old, hpost, balance, hbal, psb, hpsb, nonce, hn, total, htotal, count, hcount, h⟩ :=
    applyUnstakePost_ok_iff.mp h
  have hid := hb.books.keyed.post _ _ hpost
  have ht := hb.tally _ old hpost
  obtain ⟨hle, hpos, -⟩ := ht.remove (by rwa [hid])
  have hheld : s.amount.toNat ≤ sender.postStakeBalance.toNat := by
    rw [← heldOn_of hs]
    exact heldOn_le_stakedBy.trans (hb.books.held _ sender hg)
  refine applyUnstakePost_ok_iff.mpr ⟨sender, hg, s, hs, old, hpost, balance, Arith.noBorrow_add hbal, psb,
    Arith.noBorrow_sub hpsb hheld, nonce, Arith.noBorrow_add hn, total, Arith.noBorrow_sub htotal hle, count,
    Arith.noBorrow_sub hcount hpos, ?_⟩
  obtain ⟨hauthor, ⟨w, new⟩, hloop, rfl⟩ | hother := h
  · refine .inl ⟨hauthor, (w, new), ?_, rfl⟩
    have hone := takenBack_sender hb.books hg hs hpost hbal hpsb hn htotal hcount
    have hw := hb.books.unstaked hone.unstaked
    exact forceUnstakeAll_noBorrow { old with totalStaked := total, stakerCount := count, withdrawn := true } hw
      (hone.tallied ht) hid.symm (fun s => hw.keyed.getPostStake_stakers) hw.keyed.nodup_stakers hloop
  · exact .inr hother

/-! ## The accounts of every reachable state -/

/-- Three records of what is staked, one amount. -/
structure StakesAccounted (ws : WorldState) : Prop where
  post : ∀ p post, ws.getPost p = some post →
    post.totalStaked.toNat = stakedOn ws p ∧ post.stakerCount.toNat = stakersOn ws p
  account : ∀ a acct, ws.getAccount a = some acct → acct.postStakeBalance.toNat = stakedBy ws a
  refers : ∀ p a s, ws.getPostStake p a = some s →
    (∃ post, ws.getPost p = some post) ∧ ∃ acct, ws.getAccount a = some acct
  withdrawn : ∀ p post, ws.getPost p = some post → post.withdrawn = true →
    (∀ a, ws.getPostStake p a = none) ∧ post.totalStaked = 0 ∧ post.stakerCount = 0
  byAuthor : ∀ p post, ws.getPost p = some post → post.withdrawn = false →
    ∃ s, ws.getPostStake p post.author = some s

theorem PostBooks.accounted (hb : PostBooks E ws) : StakesAccounted ws where
  post p post hp := by
    obtain ⟨h₁, h₂⟩ := hb.tally p post hp
    rw [hb.books.keyed.post p post hp] at h₁ h₂
    exact ⟨h₁, h₂⟩
  account := hb.held
  refers p a s hs := ⟨hb.post p a s hs, hb.books.staker p a s hs⟩
  withdrawn p post hp hw := by
    have hnone := hb.withdrawn p post hp hw
    obtain ⟨h₁, h₂⟩ := hb.tally p post hp
    rw [hb.books.keyed.post p post hp] at h₁ h₂
    rw [stakedOn_none hnone] at h₁
    rw [stakersOn_none hnone] at h₂
    exact ⟨hnone, UInt64.toNat_inj.mp h₁, UInt64.toNat_inj.mp h₂⟩
  byAuthor := hb.byAuthor

theorem executeTransaction_unstake {header : BlockHeader} {i : Nat} (hkind : tx.kind = some .unstakePost)
    (h : executeTransaction E ar cfg ord header i ws tx = .ok ws') : applyUnstakePost ar ord ws tx = .ok ws' := by
  obtain ⟨-, h⟩ := executeTransaction_ok_iff.mp h
  rwa [applyTransaction, hkind] at h

/-- **The post-stake accounts agree in every reachable state**, and neither an
UnstakePost of the run nor one tried in the state reached subtracts too much. -/
theorem stakes_accounted (hp : PercentagesOk cfg) (hinj : PostIDsDistinct E) {ws₀ : WorldState}
    (h₀ : initializeState E cfg = .ok ws₀) {bs : List ((Nat → RangeOrder) × Block)}
    (hrun : applyBlocks E .go cfg ws₀ bs = .ok ws) (hw : NoSumWraps E cfg ws₀ bs) :
    StakesAccounted ws ∧
    (∀ e ∈ appliedInRun E .go cfg ws₀ bs, e.tx.kind = some .unstakePost →
      ∃ ord, applyUnstakePost Arith.go.noBorrow ord e.before e.tx = .ok e.after) ∧
    ∀ ord tx ws', applyUnstakePost .go ord ws tx = .ok ws' →
      applyUnstakePost Arith.go.noBorrow ord ws tx = .ok ws' := by
  have hkeeps : Keeps E .sums cfg fun log ws => PostBooks E ws ∧ ∀ e ∈ log, e.tx.kind = some .unstakePost →
      ∃ ord, applyUnstakePost Arith.go.noBorrow ord e.before e.tx = .ok e.after := by
    refine .of_kept rfl (fun hP => hP.1.books.keyed) (fun hP hk => ⟨hP.1.kept hk, hP.2⟩) ?_
    intro log ws tx ws' ord header i hP h
    refine ⟨executeTransaction_postBooks rfl hp hinj hP.1 h, fun e he hkind => ?_⟩
    rcases List.mem_append.mp he with he | he
    · exact hP.2 e he hkind
    · cases List.mem_singleton.mp he
      have hgo := applyUnstakePost_extends (Arith.stops_go .sums) _ (executeTransaction_unstake hkind h)
      exact ⟨ord, applyUnstakePost_noBorrow hP.1 hgo⟩
  obtain ⟨hsums, hlog⟩ := run_of_noSumWraps hrun hw
  obtain ⟨hb, hall⟩ := hkeeps.fromStart ⟨(initializeState_fresh h₀).1.postBooks, by simp⟩ hsums
  rw [hlog]
  exact ⟨hb.accounted, hall, fun ord tx ws' h => applyUnstakePost_noBorrow hb h⟩

section

open Sample

theorem env_postIDsDistinct : PostIDsDistinct env := by
  have hbytes : ∀ a n, (derivePostID env a n).toList = a.toList ++ putUint64 n := by
    intro a n
    have hlen : (postIDBytes a n).length = 40 := by simp [postIDBytes, newHashWriter, HashWriter.writeBytes,
      HashWriter.writeUint64]
    have hdrop : (postIDBytes a n).drop 8 = a.toList ++ putUint64 n := by
      simp only [postIDBytes, newHashWriter, HashWriter.writeBytes, HashWriter.writeUint64, List.nil_append,
        List.append_assoc]
      exact List.drop_left' rfl
    have h : (env.sha256 (postIDBytes a n)).toList = _ :=
      ByteArr.toList_copyFrom (b := (postIDBytes a n).drop ((postIDBytes a n).length - 32)) (by simp [hlen])
    rw [derivePostID, HashWriter.sum256, h, hlen, hdrop]
  intro a n a' n' h
  have h := congrArg Vector.toList h
  rw [hbytes, hbytes] at h
  obtain ⟨ha, hn⟩ := List.append_inj h (by simp)
  exact ⟨ByteArr.toList_inj ha, putUint64_inj hn⟩

/-- A post, two boosts by one staker, and the author's withdrawal. -/
def withdrawal : List ((Nat → RangeOrder) × Block) :=
  [block 1 [createPost 1 100 1, boostPost 2 firstPost 100 1, boostPost 2 firstPost 100 2],
    block 2 [unstakePost 1 firstPost 2]]

theorem withdrawal_isOk : (applyBlocks env .sums config genesis withdrawal).isOk = true := by decide +kernel

theorem stakes_accounted_withdrawal :
    StakesAccounted (applyBlocks env .sums config genesis withdrawal).value := by
  obtain ⟨hrun, hw⟩ := run_of_isOk withdrawal_isOk
  exact (stakes_accounted config_percentages env_postIDsDistinct genesis_ok hrun hw).1

end

end Drana
