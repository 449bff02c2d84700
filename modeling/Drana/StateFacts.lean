/-
How the state's readers see its writers, and the parts of the state's shape
every run keeps: each record lies under its own key, names are indexed, and
every author and staker has an account.
-/
import Drana.State

namespace Drana

namespace WorldState

variable {ws : WorldState} {a b : Address} {acct : Account} {p : PostID} {post : Post} {ps : PostStake}

/-! ## Reading after writing -/

@[simp] theorem getAccount_setAccount_self : (ws.setAccount acct).getAccount acct.address = some acct :=
  Finmap.lookup_insert _

theorem getAccount_setAccount_ne (h : a ≠ acct.address) :
    (ws.setAccount acct).getAccount a = ws.getAccount a :=
  Finmap.lookup_insert_of_ne _ h

theorem getAccount_setAccount :
    (ws.setAccount acct).getAccount a = if a = acct.address then some acct else ws.getAccount a := by
  split
  · next h => rw [h, getAccount_setAccount_self]
  · next h => exact getAccount_setAccount_ne h

@[simp] theorem getPost_setPost_self : (ws.setPost post).getPost post.postID = some post :=
  Finmap.lookup_insert _

theorem getPost_setPost_ne (h : p ≠ post.postID) : (ws.setPost post).getPost p = ws.getPost p :=
  Finmap.lookup_insert_of_ne _ h

@[simp] theorem getPostStake_setPostStake_self :
    (ws.setPostStake ps).getPostStake ps.postID ps.staker = some ps :=
  Finmap.lookup_insert _

theorem getPostStake_setPostStake_ne (h : (p, a) ≠ (ps.postID, ps.staker)) :
    (ws.setPostStake ps).getPostStake p a = ws.getPostStake p a :=
  Finmap.lookup_insert_of_ne _ h

@[simp] theorem getPostStake_removePostStake_self : (ws.removePostStake p a).getPostStake p a = none :=
  Finmap.lookup_erase _ _

theorem getPostStake_removePostStake_ne {q : PostID} (h : (q, b) ≠ (p, a)) :
    (ws.removePostStake p a).getPostStake q b = ws.getPostStake q b :=
  Finmap.lookup_erase_ne h

@[simp] theorem getPost_setAccount : (ws.setAccount acct).getPost p = ws.getPost p := rfl
@[simp] theorem getPostStake_setAccount : (ws.setAccount acct).getPostStake p a = ws.getPostStake p a := rfl
@[simp] theorem getAccount_setPost : (ws.setPost post).getAccount a = ws.getAccount a := rfl
@[simp] theorem getPostStake_setPost : (ws.setPost post).getPostStake p a = ws.getPostStake p a := rfl
@[simp] theorem getAccount_setPostStake : (ws.setPostStake ps).getAccount a = ws.getAccount a := rfl
@[simp] theorem getPost_setPostStake : (ws.setPostStake ps).getPost p = ws.getPost p := rfl
@[simp] theorem getAccount_removePostStake : (ws.removePostStake p b).getAccount a = ws.getAccount a := rfl
@[simp] theorem getPost_removePostStake {q : PostID} : (ws.removePostStake p b).getPost q = ws.getPost q := rfl

/-- Reads look at one map each. -/
theorem getAccount_congr {ws' : WorldState} (h : ws'.accounts = ws.accounts) :
    ws'.getAccount a = ws.getAccount a := by rw [getAccount, h, getAccount]

/-! ## Stakers of a post -/

variable {ord : RangeOrder}

theorem mem_getPostStakers : ps ∈ ws.getPostStakers ord p ↔ ∃ a, ws.getPostStake p a = some ps := by
  simp only [getPostStakers, List.mem_map, List.mem_filter, decide_eq_true_eq]
  constructor
  · rintro ⟨⟨⟨q, a⟩, s⟩, ⟨hm, rfl⟩, rfl⟩
    exact ⟨a, MapRange.mem_list.mp hm⟩
  · rintro ⟨a, h⟩
    exact ⟨((p, a), ps), ⟨MapRange.mem_list.mpr h, rfl⟩, rfl⟩

end WorldState

/-! ## Shape -/

/-- Every record lies under its own key. -/
structure Keyed (ws : WorldState) : Prop where
  account : ∀ a acct, ws.getAccount a = some acct → acct.address = a
  post : ∀ p post, ws.getPost p = some post → post.postID = p
  stake : ∀ p a s, ws.getPostStake p a = some s → s.postID = p ∧ s.staker = a

namespace Keyed

variable {ws : WorldState} {acct : Account} {p : PostID} {ord : RangeOrder}

theorem congr {ws' : WorldState} (h : Keyed ws) (ha : ws'.accounts = ws.accounts) (hp : ws'.posts = ws.posts)
    (hs : ws'.postStakes = ws.postStakes) : Keyed ws' where
  account a acct hg := h.account a acct (WorldState.getAccount_congr ha ▸ hg)
  post p post hg := h.post p post (by rwa [WorldState.getPost, hp] at hg)
  stake p a s hg := h.stake p a s (by rwa [WorldState.getPostStake, hs] at hg)

theorem setAccount (h : Keyed ws) : Keyed (ws.setAccount acct) where
  account a acct' hg := by
    rw [WorldState.getAccount_setAccount] at hg
    split at hg
    · next ha => exact Option.some.inj hg ▸ ha.symm
    · exact h.account a acct' hg
  post := h.post
  stake := h.stake

theorem setPost {post : Post} (h : Keyed ws) : Keyed (ws.setPost post) where
  account := h.account
  post p post' hg := by
    by_cases hp : p = post.postID
    · subst hp
      rw [WorldState.getPost_setPost_self] at hg
      exact Option.some.inj hg ▸ rfl
    · rw [WorldState.getPost_setPost_ne hp] at hg
      exact h.post p post' hg
  stake := h.stake

theorem setPostStake {ps : PostStake} (h : Keyed ws) : Keyed (ws.setPostStake ps) where
  account := h.account
  post := h.post
  stake p a s hg := by
    by_cases hk : (p, a) = (ps.postID, ps.staker)
    · obtain ⟨rfl, rfl⟩ := Prod.mk.inj hk
      rw [WorldState.getPostStake_setPostStake_self] at hg
      exact Option.some.inj hg ▸ ⟨rfl, rfl⟩
    · rw [WorldState.getPostStake_setPostStake_ne hk] at hg
      exact h.stake p a s hg

theorem removePostStake {a : Address} (h : Keyed ws) : Keyed (ws.removePostStake p a) where
  account := h.account
  post := h.post
  stake q b s hg := by
    by_cases hk : (q, b) = (p, a)
    · obtain ⟨rfl, rfl⟩ := Prod.mk.inj hk
      rw [WorldState.getPostStake_removePostStake_self] at hg
      cases hg
    · rw [WorldState.getPostStake_removePostStake_ne hk] at hg
      exact h.stake q b s hg

/-- The account read at an address is written back there. -/
theorem address_getD (h : Keyed ws) {a : Address} :
    ((ws.getAccount a).getD { address := a }).address = a := by
  cases hg : ws.getAccount a with
  | none => rfl
  | some acct => exact h.account a acct hg

/-- A post's stakers hold the records that list them. -/
theorem getPostStake_stakers (h : Keyed ws) {s : PostStake} (hs : s ∈ ws.getPostStakers ord p) :
    ws.getPostStake p s.staker = some s := by
  obtain ⟨a, ha⟩ := WorldState.mem_getPostStakers.mp hs
  rw [(h.stake p a s ha).2, ha]

/-- A post's stakers are distinct. -/
theorem nodup_stakers (h : Keyed ws) : ((ws.getPostStakers ord p).map (·.staker)).Nodup := by
  have hn : ((ord.postStakes.list ws.postStakes).map Prod.fst).Nodup := MapRange.nodup_keys
  have hs : ∀ e ∈ (ord.postStakes.list ws.postStakes).filter fun e => e.1.1 = p, e.1 = (p, e.2.staker) := by
    rintro ⟨⟨q, a⟩, s⟩ he
    simp only [List.mem_filter, decide_eq_true_eq] at he
    obtain ⟨hm, rfl⟩ := he
    rw [(h.stake q a s (MapRange.mem_list.mp hm)).2]
  have hf := (List.Sublist.map Prod.fst (List.filter_sublist (p := fun e => e.1.1 = p)
    (l := ord.postStakes.list ws.postStakes))).nodup hn
  rw [List.map_congr_left (g := fun e => (p, e.2.staker)) hs] at hf
  simp only [WorldState.getPostStakers, List.map_map]
  exact List.Nodup.of_map (fun a => (p, a)) (by rw [List.map_map]; exact hf)

end Keyed

end Drana
