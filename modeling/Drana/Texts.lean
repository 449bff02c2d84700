/-
What a step leaves as it was: every name, post text and channel comes from the
state before or from a transaction that was checked; and the stake records
change only where a post is created, boosted or unstaked from.
-/
import Drana.PostLedger
import Drana.Writes

namespace Drana

variable {E : Env} {ar : Arith} {params : GenesisConfig} {ws₀ ws ws' : WorldState} {tx : Transaction}
  {ord : RangeOrder}

/-! ## Frames -/

/-- The names, texts and channels of `ws` are those of `ws₀`. -/
structure TextsFrom (ws₀ ws : WorldState) : Prop where
  name : ∀ a acct, ws.getAccount a = some acct →
    acct.name = .empty ∨ ∃ b old, ws₀.getAccount b = some old ∧ old.name = acct.name
  text : ∀ p post, ws.getPost p = some post →
    ∃ q old, ws₀.getPost q = some old ∧ old.text = post.text ∧ old.channel = post.channel

namespace TextsFrom

theorem refl : TextsFrom ws ws where
  name a acct hg := .inr ⟨a, acct, hg, rfl⟩
  text p post hp := ⟨p, post, hp, rfl, rfl⟩

theorem trans {w : WorldState} (h : TextsFrom ws₀ w) (h' : TextsFrom w ws) : TextsFrom ws₀ ws where
  name a acct hg := by
    rcases h'.name a acct hg with hn | ⟨b, old, hb, hn⟩
    · exact .inl hn
    · rw [← hn]
      exact h.name b old hb
  text p post hp := by
    obtain ⟨q, old, hq, ht, hc⟩ := h'.text p post hp
    obtain ⟨q', old', hq', ht', hc'⟩ := h.text q old hq
    exact ⟨q', old', hq', ht'.trans ht, hc'.trans hc⟩

theorem setAccount (h : TextsFrom ws₀ ws) {acct : Account}
    (hn : acct.name = .empty ∨ ∃ b old, ws₀.getAccount b = some old ∧ old.name = acct.name) :
    TextsFrom ws₀ (ws.setAccount acct) where
  name a acct' hg := by
    rw [WorldState.getAccount_setAccount] at hg
    split at hg
    · cases hg
      exact hn
    · exact h.name a acct' hg
  text := h.text

theorem setPost (h : TextsFrom ws₀ ws) {post : Post}
    (ht : ∃ q old, ws₀.getPost q = some old ∧ old.text = post.text ∧ old.channel = post.channel) :
    TextsFrom ws₀ (ws.setPost post) where
  name := h.name
  text p post' hp := by
    by_cases hk : p = post.postID
    · subst hk
      rw [WorldState.getPost_setPost_self] at hp
      cases hp
      exact ht
    · rw [WorldState.getPost_setPost_ne hk] at hp
      exact h.text p post' hp

theorem congr (h : TextsFrom ws₀ ws) (ha : ws'.accounts = ws.accounts) (hp : ws'.posts = ws.posts) :
    TextsFrom ws₀ ws' where
  name a acct hg := h.name a acct (by rwa [WorldState.getAccount_congr ha] at hg)
  text p post hg := h.text p post (by rwa [WorldState.getPost, hp] at hg)

theorem setPostStake (h : TextsFrom ws₀ ws) {s : PostStake} : TextsFrom ws₀ (ws.setPostStake s) := h.congr rfl rfl

end TextsFrom

/-- Texts, posts and stake records are as they were. -/
structure Frame (ws₀ ws : WorldState) : Prop where
  texts : TextsFrom ws₀ ws
  posts : ws.posts = ws₀.posts
  postStakes : ws.postStakes = ws₀.postStakes

namespace Frame

theorem refl : Frame ws ws := ⟨.refl, rfl, rfl⟩

theorem trans {w : WorldState} (h : Frame ws₀ w) (h' : Frame w ws) : Frame ws₀ ws :=
  ⟨h.texts.trans h'.texts, h'.posts.trans h.posts, h'.postStakes.trans h.postStakes⟩

/-- An account read, changed and written back under its name. -/
theorem setAccount {acct old : Account} {a : Address} (hg : ws.getAccount a = some old) (hn : acct.name = old.name) :
    Frame ws (ws.setAccount acct) :=
  ⟨TextsFrom.refl.setAccount (.inr ⟨a, old, hg, hn.symm⟩), rfl, rfl⟩

theorem congr (h : Frame ws₀ ws) (ha : ws'.accounts = ws.accounts) (hp : ws'.posts = ws.posts)
    (hs : ws'.postStakes = ws.postStakes) : Frame ws₀ ws' :=
  ⟨h.texts.congr ha hp, hp.trans h.posts, hs.trans h.postStakes⟩

theorem getPost (h : Frame ws₀ ws) {p : PostID} : ws.getPost p = ws₀.getPost p := by
  rw [WorldState.getPost, h.posts, WorldState.getPost]

theorem getPostStake (h : Frame ws₀ ws) {p : PostID} {a : Address} : ws.getPostStake p a = ws₀.getPostStake p a := by
  rw [WorldState.getPostStake, h.postStakes, WorldState.getPostStake]

end Frame

theorem depositAccount_frame {a : Address} {n : UInt64} (h : depositAccount ar ws a n = .ok ws') : Frame ws ws' := by
  obtain ⟨b, -, rfl⟩ := depositAccount_ok_iff.mp h
  cases hg : ws.getAccount a with
  | none => exact ⟨TextsFrom.refl.setAccount (.inl rfl), rfl, rfl⟩
  | some acct => exact .setAccount hg rfl

theorem creditAccount_frame {a : Address} {n : UInt64} (h : creditAccount ar ws a n = .ok ws') : Frame ws ws' := by
  obtain ⟨acct, hg, b, -, rfl⟩ | ⟨-, rfl⟩ := creditAccount_ok_iff.mp h
  · exact .setAccount hg rfl
  · exact .refl

theorem payAuthor_frame {a : Address} {n : UInt64} (h : payAuthor ar ws a n = .ok ws') : Frame ws ws' :=
  payAuthor_inv (Frame ws) (fun hw hc => hw.trans (creditAccount_frame hc)) .refl h

theorem payStakers_frame {post : Post} {p : PostID} {n : UInt64} (h : payStakers ar ord ws post p n = .ok ws') :
    Frame ws ws' :=
  payStakers_inv (Frame ws) (fun hw hc => hw.trans (creditAccount_frame hc)) .refl h

theorem returnStake_frame {s : PostStake} (h : returnStake ar ws s = .ok ws') : Frame ws ws' := by
  obtain ⟨acct, hg, balance, -, psb, -, rfl⟩ | ⟨-, rfl⟩ := returnStake_ok_iff.mp h
  · exact .setAccount hg rfl
  · exact .refl

theorem slashRest_frame {a : Address} {n : UInt64} (h : slashRest ar ws a n = .ok ws') : Frame ws ws' := by
  obtain ⟨-, q, -, rfl⟩ | ⟨-, rfl⟩ := slashRest_ok_iff.mp h
  · exact .congr .refl rfl rfl rfl
  · exact .refl

theorem applySlashEvidence_frame {ev : SlashEvidence} (h : applySlashEvidence E ar params ws ev = .ok ws') :
    Frame ws ws' := by
  rcases applySlashEvidence_cases h with rfl | ⟨-, acct, unbonding, totalAtRisk, hg, -, -, -, h⟩
  · exact .refl
  · obtain ⟨staked, -, remaining, -, w, hw, burned, -, rfl⟩ := slashAccount_ok_iff.mp h
    have hacct : Frame ws (ws.setAccount { acct with stakedBalance := staked }) := .setAccount hg rfl
    exact (hacct.trans (slashRest_frame hw)).congr rfl rfl rfl

theorem releaseMatured_frame {height : UInt64} (h : releaseMatured ar ws height = .ok ws') : Frame ws ws' := by
  have hstart : Frame ws (ws.removeMaturedUnbonding height).2 := .congr .refl rfl rfl rfl
  exact Except.foldlM_inv (Frame ws) (fun e _ w w' hw hd => hw.trans (depositAccount_frame hd)) hstart h

theorem issueReward_frame {a : Address} (h : issueReward ar params ws a = .ok ws') : Frame ws ws' := by
  obtain ⟨-, w, hw, issued, -, rfl⟩ | ⟨-, rfl⟩ := issueReward_ok_iff.mp h
  · exact (depositAccount_frame hw).congr rfl rfl rfl
  · exact .refl

theorem epochTransition_frame {height : UInt64} : Frame ws (epochTransition params ord ws height) := by
  unfold epochTransition
  split
  · exact .congr .refl rfl rfl rfl
  · exact .refl

theorem applyTransfer_frame (h : applyTransfer ar ws tx = .ok ws') : Frame ws ws' := by
  obtain ⟨sender, hg, -, balance, -, nonce, -, h⟩ := applyTransfer_ok_iff.mp h
  have hsent : Frame ws (ws.setAccount { sender with balance, nonce }) := .setAccount hg rfl
  exact hsent.trans (depositAccount_frame h)

theorem applyStake_frame (h : applyStake ar ws tx = .ok ws') : Frame ws ws' := by
  obtain ⟨sender, hg, -, balance, -, stakedBalance, -, nonce, -, rfl⟩ := applyStake_ok_iff.mp h
  have hsent : Frame ws (ws.setAccount { sender with balance, stakedBalance, nonce }) := .setAccount hg rfl
  exact hsent.congr rfl rfl rfl

theorem applyUnstake_frame {height : UInt64} (h : applyUnstake ar params ws tx height = .ok ws') : Frame ws ws' := by
  obtain ⟨sender, hg, -, stakedBalance, -, nonce, -, release, -, rfl⟩ := applyUnstake_ok_iff.mp h
  have hsent : Frame ws (ws.setAccount { sender with stakedBalance, nonce }) := .setAccount hg rfl
  exact hsent.congr rfl rfl rfl

/-! ## Stake records, transaction by transaction -/

/-- Whether a transaction takes the stake of `a` on `p` back: it is the
holder's own UnstakePost, or the author's. -/
def takesBack (ws : WorldState) (tx : Transaction) (p : PostID) (a : Address) : Bool :=
  tx.kind = some .unstakePost ∧ tx.postID = p ∧
    (tx.sender = a ∨ (ws.getPost p).any fun post => post.author = tx.sender)

/-- Whether `a` holds a stake on `p` after a transaction, if `held` says so before. -/
def holdsAfter (E : Env) (ws : WorldState) (tx : Transaction) (p : PostID) (a : Address) (held : Bool) : Bool :=
  !takesBack ws tx p a && (held || (stakesOn E tx = some p ∧ tx.sender = a))

variable {p : PostID} {a : Address} {header : BlockHeader} {i : Nat}

theorem holdsAfter_other (hs : stakesOn E tx = none) (hu : tx.kind ≠ some .unstakePost) {held : Bool} :
    holdsAfter E ws tx p a held = held := by
  simp [holdsAfter, takesBack, hs, hu]

/-- A transaction that writes the one record of its sender. -/
theorem holdsAfter_stakes {q : PostID} (hs : stakesOn E tx = some q) (hu : tx.kind ≠ some .unstakePost)
    (hself : (ws'.getPostStake q tx.sender).isSome)
    (hne : ∀ p a, (p, a) ≠ (q, tx.sender) → ws'.getPostStake p a = ws.getPostStake p a) :
    (ws'.getPostStake p a).isSome = holdsAfter E ws tx p a (ws.getPostStake p a).isSome := by
  by_cases hk : (p, a) = (q, tx.sender)
  · cases hk
    simp [holdsAfter, takesBack, hs, hu, hself]
  · rw [hne p a hk]
    have : ¬ (q = p ∧ tx.sender = a) := fun h => hk (by rw [h.1, h.2])
    simp [holdsAfter, takesBack, hs, hu, this]

theorem forceUnstake_stakes {acc acc' : WorldState × Post} {s : PostStake} (h : forceUnstake ar p acc s = .ok acc') :
    acc'.1.postStakes = (acc.1.removePostStake p s.staker).postStakes ∧ TextsFrom acc.1 acc'.1 ∧
      acc'.2.text = acc.2.text ∧ acc'.2.channel = acc.2.channel := by
  obtain ⟨w, hw, total, -, count, -, rfl⟩ := forceUnstake_ok_iff.mp h
  have hf := returnStake_frame hw
  refine ⟨?_, hf.texts.congr rfl rfl, rfl, rfl⟩
  rw [WorldState.removePostStake_postStakes, WorldState.removePostStake_postStakes, hf.postStakes]

/-- The author's loop leaves of the post's records those it does not list. -/
theorem forceUnstakes_stakes {l : List PostStake} {acc acc' : WorldState × Post}
    (h : l.foldlM (forceUnstake ar p) acc = .ok acc') :
    (∀ q b, acc'.1.getPostStake q b =
      if q = p ∧ b ∈ l.map (·.staker) then none else acc.1.getPostStake q b) ∧
    TextsFrom acc.1 acc'.1 ∧ acc'.2.text = acc.2.text ∧ acc'.2.channel = acc.2.channel := by
  induction l generalizing acc with
  | nil =>
    cases Except.foldlM_nil_ok_iff.mp h
    exact ⟨fun q b => by simp, .refl, rfl, rfl⟩
  | cons s l ih =>
    obtain ⟨acc₁, h₁, hrest⟩ := Except.foldlM_cons_ok_iff.mp h
    obtain ⟨hstakes, htexts, ht, hc⟩ := forceUnstake_stakes h₁
    obtain ⟨ihs, iht, iht', ihc⟩ := ih hrest
    refine ⟨fun q b => ?_, htexts.trans iht, iht'.trans ht, ihc.trans hc⟩
    have hone : acc₁.1.getPostStake q b = if (q, b) = (p, s.staker) then none else acc.1.getPostStake q b := by
      rw [WorldState.getPostStake, hstakes]
      change (acc.1.removePostStake p s.staker).getPostStake q b = _
      split
      · next hk =>
        cases hk
        exact WorldState.getPostStake_removePostStake_self
      · next hk => exact WorldState.getPostStake_removePostStake_ne hk
    rw [ihs, hone]
    by_cases hq : q = p <;> by_cases hb : b = s.staker <;> simp [hq, hb]

theorem applyCreatePost_stakes {height : UInt64} {time : Int64} {sender : Account}
    (h : applyCreatePost E ar params ws tx height time = .ok ws') (hg : ws.getAccount tx.sender = some sender) :
    (ws'.getPostStake (derivePostID E tx.sender (sender.nonce + 1)) tx.sender).isSome ∧
    (∀ p a, (p, a) ≠ (derivePostID E tx.sender (sender.nonce + 1), tx.sender) →
      ws'.getPostStake p a = ws.getPostStake p a) := by
  obtain ⟨_, hacct, -, staked, -, nonce, hn, balance, -, psb, -, burned, -, rfl⟩ := applyCreatePost_ok_iff.mp h
  cases hg.symm.trans hacct
  cases Arith.add_ok hn
  constructor
  · exact congrArg Option.isSome WorldState.getPostStake_setPostStake_self
  · intro p a hne
    exact WorldState.getPostStake_setPostStake_ne hne

theorem addBoostStake_stakes (hk : Keyed ws) {post : Post} {n height : UInt64}
    (h : addBoostStake ar ws post tx n height = .ok ws') :
    (ws'.getPostStake tx.postID tx.sender).isSome ∧
    ∀ p a, (p, a) ≠ (tx.postID, tx.sender) → ws'.getPostStake p a = ws.getPostStake p a := by
  obtain ⟨existing, hg, amount, -, rfl⟩ | ⟨-, count, -, rfl⟩ := addBoostStake_ok_iff.mp h
  · obtain ⟨hp, ha⟩ := hk.stake _ _ _ hg
    rw [← hp, ← ha]
    exact ⟨congrArg Option.isSome (@WorldState.getPostStake_setPostStake_self ws { existing with amount }),
      fun p a hne => WorldState.getPostStake_setPostStake_ne hne⟩
  · exact ⟨congrArg Option.isSome (@WorldState.getPostStake_setPostStake_self ws ⟨tx.postID, tx.sender, n, height⟩),
      fun p a hne => WorldState.getPostStake_setPostStake_ne hne⟩

theorem applyBoostPost_stakes (hk : Keyed ws) {height : UInt64}
    (h : applyBoostPost ar params ord ws tx height = .ok ws') :
    (ws'.getPostStake tx.postID tx.sender).isSome ∧
    ∀ p a, (p, a) ≠ (tx.postID, tx.sender) → ws'.getPostStake p a = ws.getPostStake p a := by
  obtain ⟨booster, hg, -, post, -, staked, -, balance, -, postStakeBalance, -, nonce, -, burnedSupply, -, w₁, h₁, w₂,
    h₂, total, -, onPost, -, h⟩ := applyBoostPost_ok_iff.mp h
  have hpaid := (payAuthor_frame h₁).trans (payStakers_frame h₂)
  have hk₂ : Keyed w₂ :=
    ((payAuthor_writes h₁).trans (payStakers_writes h₂)).keyed (hk.setAccount.congr rfl rfl rfl)
  obtain ⟨hself, hne⟩ := addBoostStake_stakes hk₂ h
  exact ⟨hself, fun p a hpa => (hne p a hpa).trans hpaid.getPostStake⟩

theorem applyUnstakePost_stakes (hk : Keyed ws) (h : applyUnstakePost ar ord ws tx = .ok ws') :
    (ws'.getPostStake p a).isSome = (!(tx.postID = p ∧
      (tx.sender = a ∨ (ws.getPost p).any fun post => post.author = tx.sender)) && (ws.getPostStake p a).isSome) := by
  obtain ⟨sender, hg, stake, -, post, hpost, balance, -, postStakeBalance, -, nonce, -, total, -, count, -, h⟩ :=
    applyUnstakePost_ok_iff.mp h
  -- The sender's own record is gone first.
  have hown : ∀ q b, (((ws.setAccount { sender with balance, postStakeBalance, nonce }).removePostStake tx.postID
      tx.sender).getPostStake q b) = if (q, b) = (tx.postID, tx.sender) then none else ws.getPostStake q b := by
    intro q b
    split
    · next hqb =>
      cases hqb
      exact WorldState.getPostStake_removePostStake_self
    · next hqb => exact WorldState.getPostStake_removePostStake_ne hqb
  obtain ⟨hauthor, ⟨w, new⟩, hloop, rfl⟩ | ⟨hauthor, rfl⟩ := h
  · rw [WorldState.getPostStake_setPost, (forceUnstakes_stakes hloop).1]
    have hk' :
        Keyed ((ws.setAccount { sender with balance, postStakeBalance, nonce }).removePostStake tx.postID tx.sender) :=
      hk.setAccount.removePostStake
    by_cases hp : tx.postID = p
    · subst hp
      have hany : (ws.getPost tx.postID).any fun post => post.author = tx.sender := by simp [hpost, hauthor]
      simp only [true_and, hany, or_true, decide_true, Bool.not_true, Bool.false_and]
      -- The loop lists every record the post has left.
      split
      · rfl
      · next hnot =>
        rw [Option.isSome_eq_false_iff, Option.isNone_iff_eq_none]
        refine Option.eq_none_iff_forall_ne_some.mpr fun s hs => hnot ?_
        exact List.mem_map.mpr ⟨s, WorldState.mem_getPostStakers.mpr ⟨a, hs⟩, (hk'.stake _ _ s hs).2⟩
    · rw [if_neg fun hc => hp hc.1.symm, hown, if_neg fun hc => hp (Prod.mk.inj hc).1.symm]
      simp [hp]
  · rw [WorldState.getPostStake_setPost, hown]
    by_cases hp : tx.postID = p
    · subst hp
      have hany : ((ws.getPost tx.postID).any fun post => post.author = tx.sender) = false := by
        simpa [hpost] using fun he => hauthor he.symm
      by_cases ha : tx.sender = a
      · simp [ha]
      · rw [if_neg fun hc => ha (Prod.mk.inj hc).2.symm]
        simp [hany, ha]
    · rw [if_neg fun hc => hp (Prod.mk.inj hc).1.symm]
      simp [hp]

/-- **A transaction moves the stake records as `holdsAfter` says.** -/
theorem executeTransaction_stakes (hk : Keyed ws) (h : executeTransaction E ar params ord header i ws tx = .ok ws') :
    (ws'.getPostStake p a).isSome = holdsAfter E ws tx p a (ws.getPostStake p a).isSome := by
  have hnonce := fun sender => @executeTransaction_nonce E ar params ws ws' tx ord header i sender h
  obtain ⟨-, h⟩ := executeTransaction_ok_iff.mp h
  have hplain : tx.kind ≠ some .createPost → tx.kind ≠ some .boostPost → stakesOn E tx = none := by
    intro h₁ h₂
    unfold stakesOn
    split <;> simp_all
  unfold applyTransaction at h
  split at h
  · next hkind =>
    rw [holdsAfter_other (hplain (by simp [hkind]) (by simp [hkind])) (by simp [hkind]),
      (applyTransfer_frame h).getPostStake]
  · next hkind =>
    obtain ⟨sender, hg⟩ : ∃ sender, ws.getAccount tx.sender = some sender := by
      simp only [applyCreatePost, Except.bind_ok_iff, Except.orThrow_ok_iff] at h
      exact ⟨_, h.choose_spec.1⟩
    obtain ⟨hself, hne⟩ := applyCreatePost_stakes h hg
    rw [← hnonce sender hg] at hself hne
    exact holdsAfter_stakes (by rw [stakesOn, hkind]) (by simp [hkind]) hself hne
  · next hkind =>
    obtain ⟨hself, hne⟩ := applyBoostPost_stakes hk h
    exact holdsAfter_stakes (by rw [stakesOn, hkind]) (by simp [hkind]) hself hne
  · next hkind =>
    have hs : stakesOn E tx = none := hplain (by simp [hkind]) (by simp [hkind])
    rw [applyUnstakePost_stakes hk h]
    simp [holdsAfter, takesBack, hkind, hs]
  · next hkind =>
    rw [holdsAfter_other (hplain (by simp [hkind]) (by simp [hkind])) (by simp [hkind])]
    obtain ⟨sender, -, nonce, -, rfl⟩ := applyRegisterName_ok_iff.mp h
    rfl
  · next hkind =>
    rw [holdsAfter_other (hplain (by simp [hkind]) (by simp [hkind])) (by simp [hkind]),
      (applyStake_frame h).getPostStake]
  · next hkind =>
    rw [holdsAfter_other (hplain (by simp [hkind]) (by simp [hkind])) (by simp [hkind]),
      (applyUnstake_frame h).getPostStake]
  · cases h

/-- Whether `a` holds a stake on `p` after what was applied. -/
def heldAfter (E : Env) (p : PostID) (a : Address) (held : Bool) (log : List Applied) : Bool :=
  log.foldl (fun held e => holdsAfter E e.before e.tx p a held) held

theorem applyBlock_stakes (hk : Keyed ws) {ord : Nat → RangeOrder} {block : Block}
    (h : applyBlock E ar params ord ws block = .ok ws') :
    (ws'.getPostStake p a).isSome =
      heldAfter E p a (ws.getPostStake p a).isSome (appliedInBlock E ar params ord ws block) := by
  have hkeeps : Keeps E ar params fun log w => Keyed w ∧
      (w.getPostStake p a).isSome = heldAfter E p a (ws.getPostStake p a).isSome log := by
    constructor
    · intro log w height w' hP h
      exact ⟨(releaseMatured_writes h).keyed hP.1, (releaseMatured_frame h).getPostStake ▸ hP.2⟩
    · intro log w ev w' hP h
      exact ⟨(applySlashEvidence_writes h).keyed hP.1, (applySlashEvidence_frame h).getPostStake ▸ hP.2⟩
    · intro log w tx w' ord header i hP h
      refine ⟨(executeTransaction_writes h).keyed hP.1, ?_⟩
      rw [executeTransaction_stakes hP.1 h, hP.2, heldAfter, heldAfter, List.foldl_append]
      rfl
    · intro log w addr w' hP h
      exact ⟨(issueReward_writes h).keyed hP.1, (issueReward_frame h).getPostStake ▸ hP.2⟩
    · intro log w ord height hP
      exact ⟨epochTransition_writes.keyed hP.1, (congrArg Option.isSome epochTransition_frame.getPostStake).trans hP.2⟩
    · intro log w height hP
      exact ⟨hP.1.congr rfl rfl rfl, hP.2⟩
  exact (@Keeps.block E ar params _ [] ws ws' hkeeps ord block ⟨hk, rfl⟩ h).2

/-! ## Lengths of texts -/

/-- Names, texts and channels are as long as validation lets them be. -/
structure Spelled (params : GenesisConfig) (ws : WorldState) : Prop where
  name : ∀ a acct, ws.getAccount a = some acct → acct.name.length ≤ maxNameLength
  text : ∀ p post, ws.getPost p = some post → (post.text.length : Int) ≤ params.maxPostBytes.toInt
  channel : ∀ p post, ws.getPost p = some post → post.channel.length ≤ maxNameLength

theorem length_empty : GoString.empty.length = 0 := rfl

namespace Spelled

theorem kept (hs : Spelled params ws) (h : TextsFrom ws ws') : Spelled params ws' where
  name a acct hg := by
    rcases h.name a acct hg with hn | ⟨b, old, hb, hn⟩
    · rw [hn, length_empty]
      exact Nat.zero_le _
    · rw [← hn]
      exact hs.name b old hb
  text p post hp := by
    obtain ⟨q, old, hq, ht, -⟩ := h.text p post hp
    rw [← ht]
    exact hs.text q old hq
  channel p post hp := by
    obtain ⟨q, old, hq, -, hc⟩ := h.text p post hp
    rw [← hc]
    exact hs.channel q old hq

theorem setAccount (hs : Spelled params ws) {acct : Account} (hn : acct.name.length ≤ maxNameLength) :
    Spelled params (ws.setAccount acct) where
  name a acct' hg := by
    rw [WorldState.getAccount_setAccount] at hg
    split at hg
    · cases hg
      exact hn
    · exact hs.name a acct' hg
  text := hs.text
  channel := hs.channel

theorem setPost (hs : Spelled params ws) {post : Post} (ht : (post.text.length : Int) ≤ params.maxPostBytes.toInt)
    (hc : post.channel.length ≤ maxNameLength) : Spelled params (ws.setPost post) := by
  have hp : ∀ p post', (ws.setPost post).getPost p = some post' → post' = post ∨ ws.getPost p = some post' := by
    intro p post' hp
    by_cases hk : p = post.postID
    · subst hk
      rw [WorldState.getPost_setPost_self] at hp
      exact .inl (Option.some.inj hp).symm
    · rw [WorldState.getPost_setPost_ne hk] at hp
      exact .inr hp
  refine ⟨hs.name, fun p post' h => ?_, fun p post' h => ?_⟩
  · rcases hp p post' h with rfl | h
    · exact ht
    · exact hs.text p post' h
  · rcases hp p post' h with rfl | h
    · exact hc
    · exact hs.channel p post' h

end Spelled

theorem validateName_length {name : GoString} {u : Unit} (h : validateName name = .ok u) :
    name.length ≤ maxNameLength := by
  simp only [validateName, Except.bind_ok_iff, Except.throwIf_ok_iff] at h
  obtain ⟨-, -, -, hlong, -⟩ := h
  exact Nat.le_of_not_lt hlong

theorem validateCreatePost_lengths {sr : StateReader} {u : Unit} (h : validateCreatePost E tx sr params = .ok u) :
    (tx.text.length : Int) ≤ params.maxPostBytes.toInt ∧ tx.channel.length ≤ maxNameLength := by
  simp only [validateCreatePost, Except.bind_ok_iff, Except.wrapErr_ok_iff] at h
  obtain ⟨-, -, u₁, htext, u₂, hchannel, -⟩ := h
  simp only [validatePostText, Except.bind_ok_iff, Except.throwIf_ok_iff] at htext
  obtain ⟨-, -, -, -, -, -, -, -, hlong⟩ := htext
  refine ⟨not_lt.mp hlong, ?_⟩
  unfold validateChannel at hchannel
  split at hchannel
  · exact validateName_length (Except.wrapErr_ok_iff.mp hchannel)
  · next he =>
    rw [not_not.mp he, length_empty]
    exact Nat.zero_le _

theorem applyBoostPost_texts {height : UInt64} (h : applyBoostPost ar params ord ws tx height = .ok ws') :
    TextsFrom ws ws' := by
  obtain ⟨booster, hg, -, post, hpost, staked, -, balance, -, postStakeBalance, -, nonce, -, burnedSupply, -, w₁, h₁,
    w₂, h₂, total, -, onPost, -, h⟩ := applyBoostPost_ok_iff.mp h
  have hsent : Frame ws (ws.setAccount { booster with balance, postStakeBalance, nonce }) := .setAccount hg rfl
  have hburned : Frame ws { ws.setAccount { booster with balance, postStakeBalance, nonce } with burnedSupply } :=
    hsent.congr rfl rfl rfl
  have hpaid := hburned.trans ((payAuthor_frame h₁).trans (payStakers_frame h₂))
  obtain ⟨existing, -, amount, -, rfl⟩ | ⟨-, count, -, rfl⟩ := addBoostStake_ok_iff.mp h
  · exact hpaid.texts.setPostStake.setPost ⟨tx.postID, post, hpost, rfl, rfl⟩
  · exact hpaid.texts.setPostStake.setPost ⟨tx.postID, post, hpost, rfl, rfl⟩

theorem applyUnstakePost_texts (h : applyUnstakePost ar ord ws tx = .ok ws') : TextsFrom ws ws' := by
  obtain ⟨sender, hg, stake, -, post, hpost, balance, -, postStakeBalance, -, nonce, -, total, -, count, -, h⟩ :=
    applyUnstakePost_ok_iff.mp h
  have hsent : Frame ws (ws.setAccount { sender with balance, postStakeBalance, nonce }) := .setAccount hg rfl
  have hown : TextsFrom ws ((ws.setAccount { sender with balance, postStakeBalance, nonce }).removePostStake tx.postID
      tx.sender) := hsent.texts.congr rfl rfl
  obtain ⟨-, ⟨w, new⟩, hloop, rfl⟩ | ⟨-, rfl⟩ := h
  · obtain ⟨-, htexts, ht, hc⟩ := forceUnstakes_stakes hloop
    exact (hown.trans htexts).setPost ⟨tx.postID, post, hpost, ht.symm, hc.symm⟩
  · exact hown.setPost ⟨tx.postID, post, hpost, rfl, rfl⟩

theorem executeTransaction_spelled (hs : Spelled params ws)
    (h : executeTransaction E ar params ord header i ws tx = .ok ws') : Spelled params ws' := by
  obtain ⟨hv, h⟩ := executeTransaction_ok_iff.mp h
  unfold applyTransaction at h
  split at h
  · exact hs.kept (applyTransfer_frame h).texts
  · next hkind =>
    rw [validateTransaction, hkind] at hv
    obtain ⟨ht, hc⟩ := validateCreatePost_lengths hv
    obtain ⟨author, hg, -, staked, -, nonce, -, balance, -, postStakeBalance, -, burned, -, rfl⟩ :=
      applyCreatePost_ok_iff.mp h
    have hsent : Spelled params (ws.setAccount { author with balance, postStakeBalance, nonce }) :=
      hs.setAccount (hs.name _ author hg)
    have hpost : Spelled params ((ws.setAccount { author with balance, postStakeBalance, nonce }).setPost
        ⟨derivePostID E tx.sender nonce, tx.sender, tx.text, tx.channel, tx.postID, header.height, header.timestamp,
          staked, postFee params tx.amount, 1, false⟩) := hsent.setPost ht hc
    exact hpost.kept (.congr .refl rfl rfl)
  · exact hs.kept (applyBoostPost_texts h)
  · exact hs.kept (applyUnstakePost_texts h)
  · next hkind =>
    rw [validateTransaction, hkind] at hv
    simp only [validateRegisterName, Except.bind_ok_iff, Except.wrapErr_ok_iff] at hv
    obtain ⟨-, -, u₁, hname, -⟩ := hv
    obtain ⟨sender, -, nonce, -, rfl⟩ := applyRegisterName_ok_iff.mp h
    have hsent : Spelled params (ws.setAccount { sender with nonce, name := tx.text }) :=
      hs.setAccount (validateName_length hname)
    exact hsent.kept (.congr .refl rfl rfl)
  · exact hs.kept (applyStake_frame h).texts
  · exact hs.kept (applyUnstake_frame h).texts
  · cases h

/-- **Every reachable state is spelled.** -/
theorem keeps_spelled : Keeps E ar params fun _ ws => Spelled params ws where
  release hs h := hs.kept (releaseMatured_frame h).texts
  slash hs h := hs.kept (applySlashEvidence_frame h).texts
  tx hs h := executeTransaction_spelled hs h
  reward hs h := hs.kept (issueReward_frame h).texts
  epoch hs := hs.kept epochTransition_frame.texts
  height hs := hs.kept (.congr .refl rfl rfl)

end Drana
