/-
Restarting from the database: a node saves the genesis state, then the state
after every block over what is there. What is loaded is the state in memory as
long as no stake record that was saved is taken back for good.
-/
import Drana.StoreFacts
import Drana.Texts

namespace Drana

variable {E : Env} {cfg : GenesisConfig} {ws ws' : WorldState} {kv kv' : KVStore}

/-! ## Runs with a database -/

/-- A block, and the orders in which maps are ranged over to apply it and to save. -/
structure SavedBlock where
  ord : Nat → RangeOrder
  block : Block
  saveOrd : RangeOrder

/-- A block is applied and the new state saved. -/
def commit (E : Env) (cfg : GenesisConfig) (s : WorldState × KVStore) (b : SavedBlock) :
    Except String (WorldState × KVStore) := do
  let ws ← applyBlock E .go cfg b.ord s.1 b.block
  return (ws, saveState b.saveOrd ws s.2)

/-- A run from the genesis state, which is saved first. -/
def commitBlocks (E : Env) (cfg : GenesisConfig) (ord : RangeOrder) (ws₀ : WorldState) (bs : List SavedBlock) :
    Except String (WorldState × KVStore) :=
  bs.foldlM (commit E cfg) (ws₀, saveState ord ws₀ ∅)

/-! ## When a restart is transparent -/

/-- The block leaves every stake record there was: who takes one back stakes
again later in the block. -/
def StakesStay (E : Env) (cfg : GenesisConfig) (ws : WorldState) (b : SavedBlock) : Prop :=
  ∀ k ∈ ws.postStakes.keys, heldAfter E k.1 k.2 true (appliedInBlock E .go cfg b.ord ws b.block) = true

instance (E : Env) (cfg : GenesisConfig) (ws : WorldState) (b : SavedBlock) : Decidable (StakesStay E cfg ws b) :=
  inferInstanceAs (Decidable (∀ k ∈ ws.postStakes.keys, _))

/-- The counts written as `uint32` fit. -/
def CountsFit (ws : WorldState) : Prop :=
  ws.activeValidators.length < 2 ^ 32 ∧ ws.unbondingQueue.length < 2 ^ 32

instance : Decidable (CountsFit ws) := inferInstanceAs (Decidable (_ ∧ _))

/-- Both, all along a run from `ws`. -/
def Restartable (E : Env) (cfg : GenesisConfig) : WorldState → List SavedBlock → Prop
  | ws, [] => CountsFit ws
  | ws, b :: bs => StakesStay E cfg ws b ∧
    match applyBlock E .go cfg b.ord ws b.block with
    | .ok ws' => Restartable E cfg ws' bs
    | .error _ => True

instance decidableRestartable (E : Env) (cfg : GenesisConfig) :
    ∀ ws bs, Decidable (Restartable E cfg ws bs)
  | ws, [] => inferInstanceAs (Decidable (CountsFit ws))
  | ws, b :: bs =>
    have : Decidable (match applyBlock E .go cfg b.ord ws b.block with
        | .ok ws' => Restartable E cfg ws' bs
        | .error _ => True) :=
      match applyBlock E .go cfg b.ord ws b.block with
      | .ok ws' => decidableRestartable E cfg ws' bs
      | .error _ => inferInstanceAs (Decidable True)
    inferInstanceAs (Decidable (_ ∧ _))

/-! ## The database along a run -/

/-- What every state saved has, and the database with it. -/
structure Saved (cfg : GenesisConfig) (ws : WorldState) (kv : KVStore) : Prop where
  keyed : Keyed ws
  spelled : Spelled cfg ws
  holds : Holds kv ws

/-- The genesis state, saved. -/
theorem saved_genesis {ord : RangeOrder} (h : initializeState E cfg = .ok ws) : Saved cfg ws (saveState ord ws ∅) := by
  have hf := (initializeState_fresh h).1
  refine ⟨hf.keyed, ⟨fun a acct hg => ?_, fun p post hp => ?_, fun p post hp => ?_⟩, saveState_empty_holds hf.keyed⟩
  · rw [hf.unnamed a acct hg, length_empty]
    exact Nat.zero_le _
  · simp [WorldState.getPost, hf.posts] at hp
  · simp [WorldState.getPost, hf.posts] at hp

/-- A block moves on to a state whose own keys and texts are as they should be. -/
theorem Saved.next {b : SavedBlock} (h : Saved cfg ws kv) (hb : applyBlock E .go cfg b.ord ws b.block = .ok ws') :
    Keyed ws' ∧ Spelled cfg ws' ∧ Holds (saveState b.saveOrd ws' kv) (withOldStakes ws ws') :=
  have hw := applyBlock_writes hb
  have hkeyed := hw.keyed h.keyed
  ⟨hkeyed, keeps_spelled.invariant_block h.spelled hb,
    saveState_holds hkeyed hw.accounts_grow hw.posts_grow h.holds⟩

theorem StakesStay.iff {b : SavedBlock} (h : Keyed ws) (hb : applyBlock E .go cfg b.ord ws b.block = .ok ws') :
    StakesStay E cfg ws b ↔ ∀ p a, (ws.getPostStake p a).isSome → (ws'.getPostStake p a).isSome := by
  have hkeys : ∀ p a, (p, a) ∈ ws.postStakes.keys ↔ (ws.getPostStake p a).isSome := fun p a => by
    rw [Finmap.mem_keys, WorldState.getPostStake, Finmap.lookup_isSome]
  constructor
  · intro hstay p a hs
    rw [applyBlock_stakes h hb, hs]
    exact hstay (p, a) ((hkeys p a).mpr hs)
  · rintro hall ⟨p, a⟩ hk
    have hs := (hkeys p a).mp hk
    have := hall p a hs
    rwa [applyBlock_stakes h hb, hs] at this

/-- One block that takes no stake back for good. -/
theorem Saved.block {b : SavedBlock} (h : Saved cfg ws kv) (hstay : StakesStay E cfg ws b)
    (hb : applyBlock E .go cfg b.ord ws b.block = .ok ws') : Saved cfg ws' (saveState b.saveOrd ws' kv) := by
  obtain ⟨hkeyed, hspelled, hholds⟩ := h.next hb
  rw [withOldStakes_eq ((StakesStay.iff h.keyed hb).mp hstay)] at hholds
  exact ⟨hkeyed, hspelled, hholds⟩

/-- A run of such blocks. -/
theorem Saved.run {bs : List SavedBlock} (h : Saved cfg ws kv) (hr : Restartable E cfg ws bs)
    (hrun : bs.foldlM (commit E cfg) (ws, kv) = .ok (ws', kv')) : Saved cfg ws' kv' ∧ CountsFit ws' := by
  induction bs generalizing ws kv with
  | nil =>
    cases Except.foldlM_nil_ok_iff.mp hrun
    exact ⟨h, hr⟩
  | cons b bs ih =>
    obtain ⟨s, hs, hrest⟩ := Except.foldlM_cons_ok_iff.mp hrun
    simp only [commit, Except.bind_ok_iff, Except.pure_ok_iff] at hs
    obtain ⟨w, hw, rfl⟩ := hs
    obtain ⟨hstay, hr⟩ := hr
    rw [hw] at hr
    exact ih (h.block hstay hw) hr hrest

theorem Spelled.encodable (h : Spelled cfg ws) (hbytes : cfg.maxPostBytes.toInt < 2 ^ 32) (hc : CountsFit ws) :
    Encodable ws := by
  refine ⟨fun a acct hg => ?_, fun p post hp => ?_, fun p post hp => ?_, hc.1, hc.2⟩
  · exact Nat.lt_of_le_of_lt (h.name a acct hg) (by decide)
  · have := h.text p post hp
    omega
  · exact Nat.lt_of_le_of_lt (h.channel p post hp) (by decide)

/-- After one block over a good database the condition is exact: a stake taken
back for good is loaded again. -/
theorem Saved.transparent_iff {b : SavedBlock} (h : Saved cfg ws kv) (hbytes : cfg.maxPostBytes.toInt < 2 ^ 32)
    (hb : applyBlock E .go cfg b.ord ws b.block = .ok ws') (hc : CountsFit ws') :
    (∃ loaded, loadState (saveState b.saveOrd ws' kv) = .ok loaded ∧ SameRooted ws' loaded) ↔
      StakesStay E cfg ws b := by
  constructor
  · rintro ⟨loaded, hload, hsame⟩
    obtain ⟨hkeyed, hspelled, hholds⟩ := h.next hb
    have hold : Keyed (withOldStakes ws ws') := by
      refine ⟨hkeyed.account, hkeyed.post, fun p a s hs => ?_⟩
      rw [getPostStake_withOldStakes] at hs
      cases hs' : ws'.getPostStake p a with
      | some s' =>
        rw [hs', Option.some_or] at hs
        cases hs
        exact hkeyed.stake p a _ hs'
      | none =>
        rw [hs', Option.none_or] at hs
        exact h.keyed.stake p a s hs
    have henc := hspelled.encodable hbytes hc
    have hencOld : Encodable (withOldStakes ws ws') :=
      ⟨henc.name, henc.text, henc.channel, henc.activeValidators, henc.unbondingQueue⟩
    obtain ⟨loaded', hload', hsame'⟩ := loadState_holds hold hencOld hholds
    rw [hload] at hload'
    cases hload'
    refine (StakesStay.iff h.keyed hb).mpr fun p a hs => ?_
    -- The stake is in the database, so it is loaded, so it is in memory.
    have hloaded : loaded.getPostStake p a = (ws'.getPostStake p a).or (ws.getPostStake p a) := by
      rw [WorldState.getPostStake, hsame'.postStakes, ← getPostStake_withOldStakes, WorldState.getPostStake]
    rw [WorldState.getPostStake, hsame.postStakes, ← WorldState.getPostStake] at hloaded
    rw [hloaded, Option.isSome_or, hs, Bool.or_true]
  · intro hstay
    have hsaved := h.block hstay hb
    exact loadState_holds hsaved.keyed (hsaved.spelled.encodable hbytes hc) hsaved.holds

/-- **Restarting is transparent** in every run that takes no saved stake back
for good: what is loaded is the state in memory, with the same root. -/
theorem restart_transparent {ws₀ : WorldState} (h₀ : initializeState E cfg = .ok ws₀)
    (hbytes : cfg.maxPostBytes.toInt < 2 ^ 32) {ord : RangeOrder} {bs : List SavedBlock}
    (hrun : commitBlocks E cfg ord ws₀ bs = .ok (ws, kv)) (hr : Restartable E cfg ws₀ bs) :
    ∃ loaded, loadState kv = .ok loaded ∧ SameRooted ws loaded ∧
      ∀ ord ord', computeStateRoot E ord' loaded = computeStateRoot E ord ws := by
  obtain ⟨hsaved, hcounts⟩ := (saved_genesis h₀).run hr hrun
  obtain ⟨loaded, hload, hsame⟩ :=
    loadState_holds hsaved.keyed (hsaved.spelled.encodable hbytes hcounts) hsaved.holds
  exact ⟨loaded, hload, hsame, fun _ _ => computeStateRoot_congr hsaved.keyed hsame⟩

section

open Sample

theorem commitBlocks_value {x : Except String (WorldState × KVStore)} (h : x.isOk = true) :
    x = .ok (x.value.1, x.value.2) := Except.ok_value h

def saved (b : (Nat → RangeOrder) × Block) : SavedBlock := ⟨b.1, b.2, order⟩

/-- A post with a boost, then another boost. -/
def boosts : List SavedBlock :=
  [saved (block 1 [createPost 1 100 1, boostPost 2 firstPost 100 1]), saved (block 2 [boostPost 3 firstPost 100 1])]

theorem boosts_run : (commitBlocks env config order genesis boosts).isOk = true ∧
    Restartable env config genesis boosts := by
  decide +kernel

theorem restart_transparent_boosts :
    ∃ loaded, loadState (commitBlocks env config order genesis boosts).value.2 = .ok loaded ∧
      SameRooted (commitBlocks env config order genesis boosts).value.1 loaded := by
  have hrun := commitBlocks_value boosts_run.1
  obtain ⟨loaded, hload, hsame, -⟩ := restart_transparent genesis_ok (by decide) hrun boosts_run.2
  exact ⟨loaded, hload, hsame⟩

/-- A post, and in the next block a booster's and the author's withdrawal. -/
def withdrawn : List SavedBlock :=
  [saved (block 1 [createPost 1 100 1, boostPost 2 firstPost 100 1]),
    saved (block 2 [unstakePost 2 firstPost 2, unstakePost 1 firstPost 2])]

theorem withdrawn_run :
    (commitBlocks env config order genesis withdrawn).isOk = true ∧
    (loadState (commitBlocks env config order genesis withdrawn).value.2).isOk = true ∧
    (commitBlocks env config order genesis withdrawn).value.1.postStakes = ∅ ∧
    ((loadState (commitBlocks env config order genesis withdrawn).value.2).value.getPostStake firstPost
      (address 1)).isSome ∧
    ((loadState (commitBlocks env config order genesis withdrawn).value.2).value.getPostStake firstPost
      (address 2)).isSome ∧
    stateRootBytes order (loadState (commitBlocks env config order genesis withdrawn).value.2).value ≠
      stateRootBytes order (commitBlocks env config order genesis withdrawn).value.1 := by decide +kernel

/-- Both stakes come back with the restart. -/
theorem restart_resurrects : ∃ ws kv loaded,
    commitBlocks env config order genesis withdrawn = .ok (ws, kv) ∧ loadState kv = .ok loaded ∧
    (∀ a, ws.getPostStake firstPost a = none) ∧ (loaded.getPostStake firstPost (address 1)).isSome ∧
    (loaded.getPostStake firstPost (address 2)).isSome ∧ stateRootBytes order loaded ≠ stateRootBytes order ws := by
  obtain ⟨hrun, hload, hnone, hfirst, hsecond, hroot⟩ := withdrawn_run
  refine ⟨_, _, _, commitBlocks_value hrun, Except.ok_value hload, fun a => ?_, hfirst, hsecond, hroot⟩
  rw [WorldState.getPostStake, hnone, Finmap.lookup_empty]

end

end Drana
