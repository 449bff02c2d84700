/-
How a step changes the post stakes. There are three ways: not at all, by one
record written with what its staker pays in, or by records of one post taken
back. Each keeps the books.
-/
import Drana.Accounting

namespace Drana

variable {ar : Arith} {ws w ws' : WorldState} {a b : Address} {p q : PostID} {post : Post} {s : PostStake}
  {acct acct' : Account} {n : Nat}

/-! ## Paying in -/

/-- `s` is written, its staker having paid in `n`, and its post replaced by `post`. -/
structure StakeAdded (n : Nat) (post : Post) (s : PostStake) (ws ws' : WorldState) : Prop where
  posts : ws'.posts = ws.posts.insert post.postID post
  postStakes : ws'.postStakes = ws.postStakes.insert (s.postID, s.staker) s
  staker : ∃ acct, ws.getAccount s.staker = some acct
  kept : ∀ b acct, ws.getAccount b = some acct → ∃ acct', ws'.getAccount b = some acct' ∧
    acct'.postStakeBalance.toNat = acct.postStakeBalance.toNat + (if s.staker = b then n else 0) ∧
    acct.nonce.toNat ≤ acct'.nonce.toNat
  fresh : ∀ b acct', ws.getAccount b = none → ws'.getAccount b = some acct' → acct'.postStakeBalance = 0
  keyed : Keyed ws → Keyed ws'

namespace StakeAdded

/-- The staker is debited, then credits move, then the records are written. -/
theorem of_kept (hg : ws.getAccount s.staker = some acct) (ha : acct'.address = s.staker)
    (hp : acct'.postStakeBalance.toNat = acct.postStakeBalance.toNat + n)
    (hn : acct.nonce.toNat ≤ acct'.nonce.toNat) (hw : StakesKept (ws.setAccount acct') w)
    (haccounts : ws'.accounts = w.accounts) (hposts : ws'.posts = w.posts.insert post.postID post)
    (hstakes : ws'.postStakes = w.postStakes.insert (s.postID, s.staker) s) : StakeAdded n post s ws ws' where
  posts := by rw [hposts, hw.posts, WorldState.setAccount_posts]
  postStakes := by rw [hstakes, hw.postStakes, WorldState.setAccount_postStakes]
  staker := ⟨acct, hg⟩
  kept b old hold := by
    rw [WorldState.getAccount_congr haccounts]
    by_cases hb : s.staker = b
    · subst hb
      rw [hg] at hold
      cases hold
      obtain ⟨new, hnew, hps, hle⟩ := hw.kept s.staker acct' (ha ▸ WorldState.getAccount_setAccount_self)
      exact ⟨new, hnew, by rw [hps, hp, if_pos rfl], hn.trans hle⟩
    · have hne : b ≠ acct'.address := by
        rw [ha]
        exact fun h => hb h.symm
      obtain ⟨new, hnew, hps, hle⟩ := hw.kept b old (by rw [WorldState.getAccount_setAccount_ne hne, hold])
      exact ⟨new, hnew, by rw [hps, if_neg hb, Nat.add_zero], hle⟩
  fresh b new hnone hnew := by
    rw [WorldState.getAccount_congr haccounts] at hnew
    have hne : b ≠ acct'.address := by
      rw [ha]
      rintro rfl
      rw [hg] at hnone
      cases hnone
    exact hw.fresh b new (by rw [WorldState.getAccount_setAccount_ne hne, hnone]) hnew
  keyed hk := by
    have hwritten : StakesKept ((w.setPostStake s).setPost post) ws' := .of_eq haccounts hposts hstakes
    exact hwritten.keyed (hw.keyed hk.setAccount).setPostStake.setPost

theorem getPost (h : StakeAdded n post s ws ws') :
    ws'.getPost q = if q = post.postID then some post else ws.getPost q := by
  rw [WorldState.getPost, h.posts]
  split
  · next hq => rw [hq, Finmap.lookup_insert]
  · next hq => rw [Finmap.lookup_insert_of_ne _ hq, WorldState.getPost]

theorem getPostStake (h : StakeAdded n post s ws ws') :
    ws'.getPostStake q b = if (q, b) = (s.postID, s.staker) then some s else ws.getPostStake q b := by
  rw [WorldState.getPostStake, h.postStakes]
  split
  · next hq => rw [hq, Finmap.lookup_insert]
  · next hq => rw [Finmap.lookup_insert_of_ne _ hq, WorldState.getPostStake]

theorem stakedAt {P : PostID × Address → Prop} [DecidablePred P] (h : StakeAdded n post s ws ws') :
    stakedAt P ws' + (if P (s.postID, s.staker) then heldOn ws s.postID s.staker else 0) =
      stakedAt P ws + if P (s.postID, s.staker) then s.amount.toNat else 0 := by
  rw [Drana.stakedAt, h.postStakes]
  exact stakedAt_setPostStake

theorem stakersOn (h : StakeAdded n post s ws ws') :
    stakersOn ws' q + (if s.postID = q ∧ (ws.getPostStake s.postID s.staker).isSome then 1 else 0) =
      stakersOn ws q + if s.postID = q then 1 else 0 := by
  rw [Drana.stakersOn, h.postStakes]
  exact stakersOn_setPostStake

end StakeAdded

theorem Books.stakeAdded (hb : Books ws) (h : StakeAdded n post s ws ws')
    (hs : s.amount.toNat ≤ heldOn ws s.postID s.staker + n)
    (hauthor : ∃ acct, ws.getAccount post.author = some acct) : Books ws' where
  keyed := h.keyed hb.keyed
  author q post' hq := by
    have hold : ∃ acct, ws.getAccount post'.author = some acct := by
      rw [h.getPost] at hq
      split at hq
      · exact Option.some.inj hq ▸ hauthor
      · exact hb.author q post' hq
    obtain ⟨acct, hacct⟩ := hold
    obtain ⟨acct', hacct', -⟩ := h.kept _ acct hacct
    exact ⟨acct', hacct'⟩
  staker q b s' hs' := by
    have hold : ∃ acct, ws.getAccount b = some acct := by
      rw [h.getPostStake] at hs'
      split at hs'
      · next hk => exact (Prod.mk.inj hk).2 ▸ h.staker
      · exact hb.staker q b s' hs'
    obtain ⟨acct, hacct⟩ := hold
    obtain ⟨acct', hacct', -⟩ := h.kept _ acct hacct
    exact ⟨acct', hacct'⟩
  held b acct' hacct' := by
    have ht := h.stakedAt (P := (·.2 = b))
    rw [stakedBy]
    cases hg : ws.getAccount b with
    | none =>
      have h₀ := hb.stakedBy_none hg
      rw [stakedBy] at h₀
      have hne : s.staker ≠ b := by
        rintro rfl
        obtain ⟨acct, hacct⟩ := h.staker
        rw [hg] at hacct
        cases hacct
      rw [if_neg hne, if_neg hne] at ht
      omega
    | some acct =>
      have hle := hb.held b acct hg
      obtain ⟨new, hnew, hp, -⟩ := h.kept b acct hg
      rw [hacct'] at hnew
      cases hnew
      rw [stakedBy] at hle
      by_cases hs' : s.staker = b
      · rw [if_pos hs', if_pos hs'] at ht
        rw [if_pos hs'] at hp
        omega
      · rw [if_neg hs', if_neg hs'] at ht
        rw [if_neg hs'] at hp
        omega

/-! ## Taking back -/

/-- Stake records of `p` are gone, each paid back to its staker's account. -/
structure Unstaked (ar : Arith) (p : PostID) (ws ws' : WorldState) : Prop where
  posts : ws'.posts = ws.posts
  others : ∀ q b, q ≠ p → ws'.getPostStake q b = ws.getPostStake q b
  fewer : ∀ b s, ws'.getPostStake p b = some s → ws.getPostStake p b = some s
  staked : ∀ b, stakedBy ws' b + heldOn ws p b = stakedBy ws b + heldOn ws' p b
  tallies : ∀ q, q ≠ p → stakedOn ws' q = stakedOn ws q ∧ stakersOn ws' q = stakersOn ws q
  kept : ∀ b acct, ws.getAccount b = some acct → ∃ acct', ws'.getAccount b = some acct' ∧
    acct'.postStakeBalance.toNat + heldOn ws p b = acct.postStakeBalance.toNat + heldOn ws' p b ∧
    (ar.trapAdd = true → acct'.balance.toNat + heldOn ws' p b = acct.balance.toNat + heldOn ws p b ∧
      acct.nonce.toNat ≤ acct'.nonce.toNat)
  fresh : ∀ b, ws.getAccount b = none → ws'.getAccount b = none
  keyed : Keyed ws → Keyed ws'
  holdings : ar.trapAdd = true → ∀ S, holdings S ws' = holdings S ws
  counters : counters ws' = counters ws

namespace Unstaked

protected theorem refl : Unstaked ar p ws ws where
  posts := rfl
  others _ _ _ := rfl
  fewer _ _ h := h
  staked _ := rfl
  tallies _ _ := ⟨rfl, rfl⟩
  kept _ acct h := ⟨acct, h, rfl, fun _ => ⟨rfl, Nat.le_refl _⟩⟩
  fresh _ h := h
  keyed := id
  holdings _ _ := rfl
  counters := rfl

theorem trans (h : Unstaked ar p ws w) (h' : Unstaked ar p w ws') : Unstaked ar p ws ws' where
  posts := h'.posts.trans h.posts
  others q b hq := (h'.others q b hq).trans (h.others q b hq)
  fewer b s hs := h.fewer b s (h'.fewer b s hs)
  staked b := by
    have h₁ := h.staked b
    have h₂ := h'.staked b
    omega
  tallies q hq := by
    obtain ⟨h₁, h₂⟩ := h.tallies q hq
    obtain ⟨h₃, h₄⟩ := h'.tallies q hq
    exact ⟨h₃.trans h₁, h₄.trans h₂⟩
  kept b acct hg := by
    obtain ⟨acct₁, hg₁, hp₁, hb₁⟩ := h.kept b acct hg
    obtain ⟨acct₂, hg₂, hp₂, hb₂⟩ := h'.kept b acct₁ hg₁
    refine ⟨acct₂, hg₂, by omega, fun ht => ?_⟩
    have := hb₁ ht
    have := hb₂ ht
    omega
  fresh b hg := h'.fresh b (h.fresh b hg)
  keyed hk := h'.keyed (h.keyed hk)
  holdings ht S := (h'.holdings ht S).trans (h.holdings ht S)
  counters := h'.counters.trans h.counters

end Unstaked

theorem Books.unstaked (hb : Books ws) (h : Unstaked ar p ws ws') : Books ws' where
  keyed := h.keyed hb.keyed
  author q post hq := by
    rw [WorldState.getPost, h.posts] at hq
    obtain ⟨acct, hacct⟩ := hb.author q post hq
    obtain ⟨acct', hacct', -⟩ := h.kept _ acct hacct
    exact ⟨acct', hacct'⟩
  staker q b s hs := by
    have hold : ws.getPostStake q b = some s := by
      by_cases hq : q = p
      · subst hq
        exact h.fewer b s hs
      · rw [← h.others q b hq, hs]
    obtain ⟨acct, hacct⟩ := hb.staker q b s hold
    obtain ⟨acct', hacct', -⟩ := h.kept _ acct hacct
    exact ⟨acct', hacct'⟩
  held b acct' hacct' := by
    have ht := h.staked b
    cases hg : ws.getAccount b with
    | none =>
      rw [h.fresh b hg] at hacct'
      cases hacct'
    | some acct =>
      have hle := hb.held b acct hg
      obtain ⟨new, hnew, hp, -⟩ := h.kept b acct hg
      rw [hacct'] at hnew
      cases hnew
      omega

/-- One record is paid back. -/
theorem Unstaked.one (hb : Books ws) (hs : ws.getPostStake p a = some s) (hg : ws.getAccount a = some acct)
    (ha : acct'.address = a) (hp : acct'.postStakeBalance = acct.postStakeBalance - s.amount)
    (hbal : ar.trapAdd = true → acct'.balance.toNat = acct.balance.toNat + s.amount.toNat)
    (hst : acct'.stakedBalance = acct.stakedBalance)
    (hn : ar.trapAdd = true → acct.nonce.toNat ≤ acct'.nonce.toNat) :
    Unstaked ar p ws ((ws.setAccount acct').removePostStake p a) := by
  have hheld := heldOn_of hs
  have hle := hb.held a acct hg
  have hle' : heldOn ws p a ≤ stakedBy ws a := heldOn_le_stakedBy
  have hp' : acct'.postStakeBalance.toNat + s.amount.toNat = acct.postStakeBalance.toNat := by
    rw [hp, UInt64.toNat_sub_of_le _ _ (UInt64.le_iff_toNat_le.mpr (by omega))]
    omega
  have hself : heldOn ((ws.setAccount acct').removePostStake p a) p a = 0 :=
    heldOn_none WorldState.getPostStake_removePostStake_self
  have hne : ∀ q b, (q, b) ≠ (p, a) →
      ((ws.setAccount acct').removePostStake p a).getPostStake q b = ws.getPostStake q b :=
    fun q b h => WorldState.getPostStake_removePostStake_ne h
  refine ⟨rfl, fun q b hq => hne q b fun h => hq (Prod.mk.inj h).1, fun b s' hs' => ?_, fun b => ?_,
    fun q hq => ?_, fun b old hold => ?_, fun b hnone => ?_, fun hk => hk.setAccount.removePostStake, fun ht S => ?_, rfl⟩
  · by_cases hab : b = a
    · subst hab
      rw [WorldState.getPostStake_removePostStake_self] at hs'
      cases hs'
    · rwa [hne p b fun h => hab (Prod.mk.inj h).2] at hs'
  · have ht : stakedBy ((ws.setAccount acct').removePostStake p a) b +
        (if a = b then heldOn ws p a else 0) = stakedBy ws b := stakedAt_removePostStake
    by_cases hab : a = b
    · subst hab
      rw [if_pos rfl] at ht
      omega
    · rw [if_neg hab] at ht
      rw [heldOn, heldOn, hne p b fun h => hab (Prod.mk.inj h).2.symm]
      omega
  · have hst : stakedOn ((ws.setAccount acct').removePostStake p a) q +
        (if p = q then heldOn ws p a else 0) = stakedOn ws q := stakedAt_removePostStake
    have hcnt : stakersOn ((ws.setAccount acct').removePostStake p a) q +
        (if p = q ∧ (ws.getPostStake p a).isSome then 1 else 0) = stakersOn ws q := stakersOn_removePostStake
    rw [if_neg hq.symm] at hst
    rw [if_neg fun h => hq h.1.symm] at hcnt
    exact ⟨hst, hcnt⟩
  · rw [WorldState.getAccount_removePostStake]
    by_cases hab : b = a
    · subst hab
      rw [hg] at hold
      cases hold
      refine ⟨acct', ha ▸ WorldState.getAccount_setAccount_self, by omega, fun ht => ⟨?_, hn ht⟩⟩
      have := hbal ht
      omega
    · refine ⟨old, ?_, ?_, fun _ => ⟨?_, Nat.le_refl _⟩⟩
      · rw [WorldState.getAccount_setAccount_ne (by rwa [ha]), hold]
      · rw [heldOn, heldOn, hne p b fun h => hab (Prod.mk.inj h).2]
      · rw [heldOn, heldOn, hne p b fun h => hab (Prod.mk.inj h).2]
  · rw [WorldState.getAccount_removePostStake, WorldState.getAccount_setAccount_ne, hnone]
    rw [ha]
    rintro rfl
    rw [hg] at hnone
    cases hnone
  · refine holdings_same ha ?_
    rw [valueAt_of hg, Account.value, Account.value, hbal ht, hst]
    omega

/-! ## The tally of a post -/

/-- A post's own totals are those of its records. -/
def Tallied (ws : WorldState) (post : Post) : Prop :=
  post.totalStaked.toNat = stakedOn ws post.postID ∧ post.stakerCount.toNat = stakersOn ws post.postID

theorem stakersOn_pos (h : ws.getPostStake p a = some s) : 1 ≤ stakersOn ws p := by
  have ht : stakersOn (ws.removePostStake p a) p +
      (if p = p ∧ (ws.getPostStake p a).isSome then 1 else 0) = stakersOn ws p := stakersOn_removePostStake
  rw [h, if_pos ⟨rfl, rfl⟩] at ht
  omega

/-- One holder more is one staker more at most. -/
theorem stakersOn_le_succ {b : Address}
    (h : ∀ a, (ws'.getPostStake p a).isSome = true → (ws.getPostStake p a).isSome = true ∨ a = b) :
    stakersOn ws' p ≤ stakersOn ws p + 1 := by
  rw [stakersOn, stakersOn, GoMap.total_eq_card, GoMap.total_eq_card]
  refine le_trans (Finset.card_le_card ?_) (Finset.card_insert_le (p, b) _)
  rintro ⟨q, a⟩ hk
  obtain ⟨hkey, hq⟩ := Finset.mem_filter.mp hk
  obtain rfl : q = p := hq
  have hmem (w : WorldState) : (q, a) ∈ w.postStakes.keys ↔ (w.getPostStake q a).isSome = true :=
    Finmap.mem_keys.trans Finmap.lookup_isSome.symm
  rcases h a ((hmem ws').mp hkey) with hold | rfl
  · exact Finset.mem_insert_of_mem (Finset.mem_filter.mpr ⟨(hmem ws).mpr hold, rfl⟩)
  · exact Finset.mem_insert_self _ _

/-- A record leaves the tally and the map. -/
theorem Tallied.remove (ht : Tallied ws post) (hs : ws.getPostStake post.postID a = some s) :
    s.amount.toNat ≤ post.totalStaked.toNat ∧ 1 ≤ post.stakerCount.toNat ∧
      stakedOn (ws.removePostStake post.postID a) post.postID + s.amount.toNat = post.totalStaked.toNat ∧
      stakersOn (ws.removePostStake post.postID a) post.postID + 1 = post.stakerCount.toNat := by
  obtain ⟨h₁, h₂⟩ := ht
  have hle : heldOn ws post.postID a ≤ stakedOn ws post.postID := heldOn_le_stakedOn
  have hpos := stakersOn_pos hs
  have hst : stakedOn (ws.removePostStake post.postID a) post.postID +
      (if post.postID = post.postID then heldOn ws post.postID a else 0) = stakedOn ws post.postID :=
    stakedAt_removePostStake
  have hcnt : stakersOn (ws.removePostStake post.postID a) post.postID +
      (if post.postID = post.postID ∧ (ws.getPostStake post.postID a).isSome then 1 else 0) =
        stakersOn ws post.postID := stakersOn_removePostStake
  rw [if_pos rfl, heldOn_of hs] at hst
  rw [hs, if_pos ⟨rfl, rfl⟩] at hcnt
  rw [heldOn_of hs] at hle
  omega

end Drana
