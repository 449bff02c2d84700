/-
Where value lies. The value of an account is its spendable, staked and
post-staked balance; the holdings of a set of addresses are the values of
their accounts and what the unbonding queue owes them. Each operation's
effect on the holdings of any set is one equation: with every address in the
set it is the conservation of the supply, with one address it is what that
account gains or loses.
-/
import Drana.NoWrap
import Drana.StateFacts

namespace Drana

/-! ## Quantities -/

def Account.value (acct : Account) : Nat :=
  acct.balance.toNat + acct.stakedBalance.toNat + acct.postStakeBalance.toNat

/-- `n` for an address of the set, else nothing. -/
def within (S : Address → Bool) (a : Address) (n : Nat) : Nat := if S a then n else 0

/-- What the queue owes to the set. -/
def queued (S : Address → Bool) (queue : List UnbondingEntry) : Nat :=
  (queue.map fun e => within S e.address e.amount.toNat).sum

def holdings (S : Address → Bool) (ws : WorldState) : Nat :=
  ws.accounts.total (fun a acct => within S a acct.value) + queued S ws.unbondingQueue

/-- All that exists: every account's value and every unbonding amount. -/
def supply (ws : WorldState) : Nat :=
  ws.accounts.total (fun _ acct => acct.value) + (ws.unbondingQueue.map (·.amount.toNat)).sum

theorem holdings_all {ws : WorldState} : holdings (fun _ => true) ws = supply ws := rfl

/-- The value of the account at an address, if there is one. -/
def valueAt (ws : WorldState) (a : Address) : Nat := (ws.getAccount a).elim 0 Account.value

/-- What one account holds, the queue included. -/
def worth (ws : WorldState) (a : Address) : Nat :=
  valueAt ws a + ((ws.unbondingQueue.filter (·.address = a)).map (·.amount.toNat)).sum

/-- What the chain has burned and issued. -/
def counters (ws : WorldState) : UInt64 × UInt64 := (ws.burnedSupply, ws.issuedSupply)

/-- What an account has staked on a post. -/
def heldOn (ws : WorldState) (p : PostID) (a : Address) : Nat :=
  (ws.getPostStake p a).elim 0 (·.amount.toNat)

/-- What is staked under the keys of a set. -/
def stakedAt (P : PostID × Address → Prop) [DecidablePred P] (ws : WorldState) : Nat :=
  ws.postStakes.total fun k s => if P k then s.amount.toNat else 0

/-- What an account has staked over all posts. -/
def stakedBy (ws : WorldState) (a : Address) : Nat := stakedAt (·.2 = a) ws

/-- What all accounts have staked on a post. -/
def stakedOn (ws : WorldState) (p : PostID) : Nat := stakedAt (·.1 = p) ws

/-- How many stake records a post has. -/
def stakersOn (ws : WorldState) (p : PostID) : Nat :=
  ws.postStakes.total fun k _ => if k.1 = p then 1 else 0

variable {S : Address → Bool} {ws ws' : WorldState} {a : Address} {acct : Account} {ar : Arith}

@[simp] theorem within_zero : within S a 0 = 0 := by simp [within]

theorem within_add {m n : Nat} : within S a (m + n) = within S a m + within S a n := by
  unfold within
  split <;> rfl

theorem holdings_one : holdings (· = a) ws = worth ws a := by
  have hq : ∀ q : List UnbondingEntry,
      queued (· = a) q = ((q.filter (·.address = a)).map (·.amount.toNat)).sum := by
    intro q
    induction q with
    | nil => rfl
    | cons e q ih =>
      simp only [queued, within, List.map_cons, List.sum_cons, List.filter_cons] at ih ⊢
      rw [ih]
      split <;> simp
  have ht : ws.accounts.total (fun b acct => within (· = a) b acct.value) = valueAt ws a := by
    have h₀ : GoMap.total (fun b acct => within (· = a) b acct.value) (ws.accounts.erase a) = 0 := by
      refine GoMap.total_eq_zero fun b acct hb => ?_
      have hne : b ≠ a := by
        rintro rfl
        rw [Finmap.lookup_erase] at hb
        cases hb
      simp [within, hne]
    rw [← GoMap.total_erase (k := a), h₀, Nat.zero_add]
    simp only [GoMap.at, valueAt, WorldState.getAccount]
    cases ws.accounts.lookup a <;> simp [within]
  rw [holdings, worth, hq, ht]

/-! ## Accounts written -/

theorem valueAt_of (h : ws.getAccount a = some acct) : valueAt ws a = acct.value := by
  rw [valueAt, h, Option.elim_some]

theorem value_getD : ((ws.getAccount a).getD { address := a }).value = valueAt ws a := by
  rw [valueAt]
  cases ws.getAccount a <;> rfl

theorem holdings_setAccount (ha : acct.address = a) :
    holdings S (ws.setAccount acct) + within S a (valueAt ws a) = holdings S ws + within S a acct.value := by
  subst ha
  have h := GoMap.total_insert (f := fun a acct => within S a acct.value) (m := ws.accounts)
    (k := acct.address) (v := acct)
  have hat : GoMap.at (fun a acct => within S a (Account.value acct)) acct.address ws.accounts =
      within S acct.address (valueAt ws acct.address) := by
    simp only [GoMap.at, valueAt, WorldState.getAccount]
    cases ws.accounts.lookup acct.address <;> simp
  rw [hat] at h
  simp only [holdings, WorldState.setAccount_accounts, WorldState.setAccount_unbondingQueue]
  omega

/-- An account grows by `n`. -/
theorem holdings_gain {n : Nat} (ha : acct.address = a) (hv : acct.value = valueAt ws a + n) :
    holdings S (ws.setAccount acct) = holdings S ws + within S a n := by
  have h : holdings S (ws.setAccount acct) + within S a (valueAt ws a) = _ := holdings_setAccount ha
  rw [hv, within_add] at h
  omega

/-- An account shrinks by `n`. -/
theorem holdings_lose {n : Nat} (ha : acct.address = a) (hv : acct.value + n = valueAt ws a) :
    holdings S (ws.setAccount acct) + within S a n = holdings S ws := by
  have h : holdings S (ws.setAccount acct) + within S a (valueAt ws a) = _ := holdings_setAccount ha
  rw [← hv, within_add] at h
  omega

theorem holdings_same (ha : acct.address = a) (hv : acct.value = valueAt ws a) :
    holdings S (ws.setAccount acct) = holdings S ws := by
  rw [holdings_gain (n := 0) ha hv, within_zero, Nat.add_zero]

/-! ## The books -/

/-- The post stakes have owners who can be paid: each record's staker and each
post's author has an account, and no account has less post-staked than the
records it holds. -/
structure Books (ws : WorldState) : Prop where
  keyed : Keyed ws
  author : ∀ p post, ws.getPost p = some post → ∃ acct, ws.getAccount post.author = some acct
  staker : ∀ p a s, ws.getPostStake p a = some s → ∃ acct, ws.getAccount a = some acct
  held : ∀ a acct, ws.getAccount a = some acct → stakedBy ws a ≤ acct.postStakeBalance.toNat

/-- A step that leaves posts and stakes alone: accounts stay, with what they
have post-staked, nonces do not go back, and new accounts have nothing staked. -/
structure StakesKept (ws ws' : WorldState) : Prop where
  posts : ws'.posts = ws.posts
  postStakes : ws'.postStakes = ws.postStakes
  kept : ∀ a acct, ws.getAccount a = some acct → ∃ acct', ws'.getAccount a = some acct' ∧
    acct'.postStakeBalance = acct.postStakeBalance ∧ acct.nonce.toNat ≤ acct'.nonce.toNat
  fresh : ∀ a acct', ws.getAccount a = none → ws'.getAccount a = some acct' → acct'.postStakeBalance = 0
  keyed : Keyed ws → Keyed ws'

namespace StakesKept

protected theorem refl : StakesKept ws ws where
  posts := rfl
  postStakes := rfl
  kept _ acct h := ⟨acct, h, rfl, Nat.le_refl _⟩
  fresh a acct' hn h := by rw [hn] at h; cases h
  keyed := id

theorem trans {w : WorldState} (h : StakesKept ws w) (h' : StakesKept w ws') : StakesKept ws ws' where
  posts := h'.posts.trans h.posts
  postStakes := h'.postStakes.trans h.postStakes
  kept a acct hg := by
    obtain ⟨acct₁, hg₁, hp₁, hn₁⟩ := h.kept a acct hg
    obtain ⟨acct₂, hg₂, hp₂, hn₂⟩ := h'.kept a acct₁ hg₁
    exact ⟨acct₂, hg₂, hp₂.trans hp₁, hn₁.trans hn₂⟩
  fresh a acct' hn hg := by
    cases hw : w.getAccount a with
    | none => exact h'.fresh a acct' hw hg
    | some acct₁ =>
      obtain ⟨acct₂, hg₂, hp₂, -⟩ := h'.kept a acct₁ hw
      rw [hg] at hg₂
      cases hg₂
      rw [hp₂, h.fresh a acct₁ hn hw]
  keyed hk := h'.keyed (h.keyed hk)

/-- Writing an account that has the post-staked balance the old one had. -/
theorem setAccount (hold : ∀ old, ws.getAccount acct.address = some old →
      acct.postStakeBalance = old.postStakeBalance ∧ old.nonce.toNat ≤ acct.nonce.toNat)
    (hnew : ws.getAccount acct.address = none → acct.postStakeBalance = 0) :
    StakesKept ws (ws.setAccount acct) where
  posts := rfl
  postStakes := rfl
  kept b old hg := by
    by_cases hb : b = acct.address
    · subst hb
      exact ⟨acct, WorldState.getAccount_setAccount_self, hold old hg⟩
    · exact ⟨old, by rw [WorldState.getAccount_setAccount_ne hb, hg], rfl, Nat.le_refl _⟩
  fresh b acct' hn hg := by
    by_cases hb : b = acct.address
    · subst hb
      rw [WorldState.getAccount_setAccount_self] at hg
      cases hg
      exact hnew hn
    · rw [WorldState.getAccount_setAccount_ne hb, hn] at hg
      cases hg
  keyed := Keyed.setAccount

/-- Writing over an account that exists. -/
theorem update (hg : ws.getAccount a = some acct) {acct' : Account} (ha : acct'.address = a)
    (hp : acct'.postStakeBalance = acct.postStakeBalance) (hn : acct.nonce.toNat ≤ acct'.nonce.toNat) :
    StakesKept ws (ws.setAccount acct') := by
  refine .setAccount (fun old hold => ?_) fun hnone => ?_
  · rw [ha, hg] at hold
    cases hold
    exact ⟨hp, hn⟩
  · rw [ha, hg] at hnone
    cases hnone

/-- Only fields other than the three maps differ. -/
theorem of_eq (ha : ws'.accounts = ws.accounts) (hp : ws'.posts = ws.posts)
    (hs : ws'.postStakes = ws.postStakes) : StakesKept ws ws' where
  posts := hp
  postStakes := hs
  kept a acct hg := ⟨acct, by rw [WorldState.getAccount_congr ha, hg], rfl, Nat.le_refl _⟩
  fresh a acct' hn hg := by
    rw [WorldState.getAccount_congr ha, hn] at hg
    cases hg
  keyed hk := hk.congr ha hp hs

theorem getPost (h : StakesKept ws ws') (p : PostID) : ws'.getPost p = ws.getPost p := by
  rw [WorldState.getPost, h.posts, WorldState.getPost]

theorem getPostStake (h : StakesKept ws ws') (p : PostID) (a : Address) :
    ws'.getPostStake p a = ws.getPostStake p a := by
  rw [WorldState.getPostStake, h.postStakes, WorldState.getPostStake]

theorem stakedBy (h : StakesKept ws ws') (a : Address) : stakedBy ws' a = stakedBy ws a := by
  rw [Drana.stakedBy, stakedAt, h.postStakes, Drana.stakedBy, stakedAt]

end StakesKept

/-- Without an account, nothing is staked. -/
theorem Books.stakedBy_none (hb : Books ws) (h : ws.getAccount a = none) : stakedBy ws a = 0 := by
  unfold stakedBy stakedAt
  refine GoMap.total_eq_zero fun k s hk => ?_
  obtain ⟨acct, hacct⟩ := hb.staker k.1 k.2 s hk
  rw [if_neg]
  rintro rfl
  rw [h] at hacct
  cases hacct

theorem Books.kept (hb : Books ws) (h : StakesKept ws ws') : Books ws' where
  keyed := h.keyed hb.keyed
  author p post hp := by
    rw [h.getPost] at hp
    obtain ⟨acct, hacct⟩ := hb.author p post hp
    obtain ⟨acct', hacct', -⟩ := h.kept _ acct hacct
    exact ⟨acct', hacct'⟩
  staker p a s hs := by
    rw [h.getPostStake] at hs
    obtain ⟨acct, hacct⟩ := hb.staker p a s hs
    obtain ⟨acct', hacct', -⟩ := h.kept _ acct hacct
    exact ⟨acct', hacct'⟩
  held a acct' hacct' := by
    rw [h.stakedBy]
    cases hg : ws.getAccount a with
    | none =>
      rw [hb.stakedBy_none hg]
      exact Nat.zero_le _
    | some acct =>
      obtain ⟨acct₁, hacct₁, hp, -⟩ := h.kept a acct hg
      rw [hacct'] at hacct₁
      cases hacct₁
      rw [hp]
      exact hb.held a acct hg

/-! ## Stake records written -/

section

variable {p q : PostID} {s ps : PostStake}

theorem heldOn_of (h : ws.getPostStake p a = some s) : heldOn ws p a = s.amount.toNat := by
  rw [heldOn, h, Option.elim_some]

theorem heldOn_none (h : ws.getPostStake p a = none) : heldOn ws p a = 0 := by
  rw [heldOn, h, Option.elim_none]

section

variable {P : PostID × Address → Prop} [DecidablePred P]

theorem at_staked :
    GoMap.at (fun k s => if P k then PostStake.amount s |>.toNat else 0) (p, a) ws.postStakes =
      if P (p, a) then heldOn ws p a else 0 := by
  simp only [GoMap.at, heldOn, WorldState.getPostStake]
  cases ws.postStakes.lookup (p, a) <;> simp

theorem heldOn_le_stakedAt (h : P (p, a)) : heldOn ws p a ≤ stakedAt P ws := by
  have := GoMap.at_le_total (f := fun k s => if P k then PostStake.amount s |>.toNat else 0)
    (m := ws.postStakes) (k := (p, a))
  rwa [at_staked, if_pos h] at this

theorem stakedAt_setPostStake :
    stakedAt P (ws.setPostStake ps) +
        (if P (ps.postID, ps.staker) then heldOn ws ps.postID ps.staker else 0) =
      stakedAt P ws + if P (ps.postID, ps.staker) then ps.amount.toNat else 0 := by
  have := GoMap.total_insert (f := fun k s => if P k then PostStake.amount s |>.toNat else 0)
    (m := ws.postStakes) (k := (ps.postID, ps.staker)) (v := ps)
  rwa [at_staked] at this

theorem stakedAt_removePostStake :
    stakedAt P (ws.removePostStake p a) + (if P (p, a) then heldOn ws p a else 0) = stakedAt P ws := by
  have := GoMap.total_erase (f := fun k s => if P k then PostStake.amount s |>.toNat else 0)
    (m := ws.postStakes) (k := (p, a))
  rwa [at_staked] at this

end

theorem heldOn_le_stakedBy : heldOn ws p a ≤ stakedBy ws a := heldOn_le_stakedAt rfl

theorem heldOn_le_stakedOn : heldOn ws p a ≤ stakedOn ws p := heldOn_le_stakedAt rfl

theorem at_stakers : GoMap.at (fun k _ => if k.1 = q then 1 else 0) (p, a) ws.postStakes =
      if p = q ∧ (ws.getPostStake p a).isSome then 1 else 0 := by
  cases h : ws.getPostStake p a <;> simp only [WorldState.getPostStake] at h <;> simp [GoMap.at, h]

theorem stakersOn_setPostStake :
    stakersOn (ws.setPostStake ps) q +
        (if ps.postID = q ∧ (ws.getPostStake ps.postID ps.staker).isSome then 1 else 0) =
      stakersOn ws q + if ps.postID = q then 1 else 0 := by
  have := GoMap.total_insert (f := fun k _ => if k.1 = q then 1 else 0)
    (m := ws.postStakes) (k := (ps.postID, ps.staker)) (v := ps)
  rwa [at_stakers] at this

theorem stakersOn_removePostStake :
    stakersOn (ws.removePostStake p a) q +
        (if p = q ∧ (ws.getPostStake p a).isSome then 1 else 0) = stakersOn ws q := by
  have := GoMap.total_erase (f := fun k _ => if k.1 = q then 1 else 0)
    (m := ws.postStakes) (k := (p, a))
  rwa [at_stakers] at this

end

end Drana
