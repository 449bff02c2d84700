/-
What exists is what existed at genesis, plus what was issued, less what was
burned and less the shares of boosts that no staker was paid; and nobody loses
value without having signed for it.
-/
import Drana.TxEffects

namespace Drana

variable {E : Env} {ar : Arith} {cfg : GenesisConfig} {ws ws' : WorldState} {a : Address}

/-! ## Genesis -/

/-- A state no transaction has touched. -/
structure Fresh (ws : WorldState) : Prop where
  keyed : Keyed ws
  posts : ws.posts = ∅
  postStakes : ws.postStakes = ∅
  unstaked : ∀ a acct, ws.getAccount a = some acct → acct.postStakeBalance = 0
  unnamed : ∀ a acct, ws.getAccount a = some acct → acct.name = .empty

theorem Fresh.empty : Fresh {} := by
  refine ⟨⟨?_, ?_, ?_⟩, rfl, rfl, ?_, ?_⟩ <;>
    simp [WorldState.getAccount, WorldState.getPost, WorldState.getPostStake]

theorem Fresh.setAccount (h : Fresh ws) {acct : Account} (h₀ : acct.postStakeBalance = 0)
    (hn : acct.name = .empty) : Fresh (ws.setAccount acct) where
  keyed := h.keyed.setAccount
  posts := h.posts
  postStakes := h.postStakes
  unstaked b acct' hg := by
    rw [WorldState.getAccount_setAccount] at hg
    split at hg
    · cases hg
      exact h₀
    · exact h.unstaked b acct' hg
  unnamed b acct' hg := by
    rw [WorldState.getAccount_setAccount] at hg
    split at hg
    · cases hg
      exact hn
    · exact h.unnamed b acct' hg

theorem initAccounts_fresh {as : List GenesisAccount} {i : Nat} {total : UInt64} (hf : Fresh ws)
    (h : initAccounts E i total ws as = .ok ws') : Fresh ws' := by
  induction as generalizing i total ws with
  | nil =>
    cases h
    exact hf
  | cons g as ih =>
    simp only [initAccounts, Except.bind_ok_iff] at h
    obtain ⟨-, -, -, -, h⟩ := h
    exact ih (hf.setAccount rfl rfl) h

theorem initValidator_fresh {v : GenesisValidator} (hf : Fresh ws) (h : initValidator ws v = .ok ws') :
    Fresh ws' := by
  unfold initValidator at h
  split at h
  · simp only [Except.bind_ok_iff, Except.pure_ok_iff] at h
    obtain ⟨-, -, rfl⟩ := h
    cases hg : ws.getAccount v.address with
    | none => exact hf.setAccount rfl rfl
    | some acct => exact hf.setAccount (hf.unstaked _ acct hg) (hf.unnamed _ acct hg)
  · cases h
    exact hf

theorem initializeState_fresh (h : initializeState E cfg = .ok ws) :
    Fresh ws ∧ ws.burnedSupply = 0 ∧ ws.issuedSupply = 0 := by
  simp only [initializeState, Except.bind_ok_iff, Except.pure_ok_iff] at h
  obtain ⟨w₁, h₁, w₂, h₂, rfl⟩ := h
  have hf := Except.foldlM_inv Fresh (fun _ _ _ _ hb hs => initValidator_fresh hb hs)
    (initAccounts_fresh .empty h₁) h₂
  exact ⟨⟨⟨hf.keyed.account, hf.keyed.post, hf.keyed.stake⟩, hf.posts, hf.postStakes, hf.unstaked, hf.unnamed⟩, rfl, rfl⟩

theorem Fresh.books (h : Fresh ws) : Books ws where
  keyed := h.keyed
  author p post hp := by simp [WorldState.getPost, h.posts] at hp
  staker p b s hs := by simp [WorldState.getPostStake, h.postStakes] at hs
  held b acct _ := by
    rw [stakedBy, stakedAt, h.postStakes, GoMap.total_empty]
    exact Nat.zero_le _

/-! ## Invariants about posts and stakes -/

theorem epochTransition_kept {ord : RangeOrder} {height : UInt64} :
    StakesKept ws (epochTransition cfg ord ws height) := by
  unfold epochTransition
  split
  · exact .of_eq rfl rfl rfl
  · exact .refl

/-- Only transactions touch posts and stakes. -/
theorem Keeps.of_kept {P : List Applied → WorldState → Prop} (htrap : ar.trapAdd = true)
    (keyed : ∀ {log ws}, P log ws → Keyed ws)
    (kept : ∀ {log ws ws'}, P log ws → StakesKept ws ws' → P log ws')
    (tx : ∀ {log ws tx ws' ord header i}, P log ws →
      executeTransaction E ar cfg ord header i ws tx = .ok ws' → P (log ++ [⟨ws, tx, ws'⟩]) ws') :
    Keeps E ar cfg P where
  release hP h := kept hP (releaseMatured_effect (S := fun _ => true) htrap (keyed hP) h).1
  slash hP h := kept hP (applySlashEvidence_kept (keyed hP) h).1
  tx hP h := tx hP h
  reward hP h := kept hP (issueReward_effect (S := fun _ => true) htrap (keyed hP) h).1
  epoch hP := kept hP epochTransition_kept
  height hP := kept hP (.of_eq rfl rfl rfl)

/-- **Every step keeps the books.** -/
theorem keeps_books (htrap : ar.trapAdd = true) (hp : PercentagesOk cfg) :
    Keeps E ar cfg fun _ ws => Books ws :=
  .of_kept htrap Books.keyed Books.kept fun hb h => (executeTransaction_effect htrap hp hb h).books hb

/-! ## Supply -/

/-- The staker reward of a boost. -/
def rewardDue (cfg : GenesisConfig) (e : Applied) : Nat :=
  if e.tx.kind = some .boostPost then (stakerReward cfg e.tx.amount).toNat else 0

/-- The part of it that stakers are paid: the sum of their shares. -/
def rewardPaid (cfg : GenesisConfig) (e : Applied) : Nat :=
  if e.tx.kind = some .boostPost then
    (e.before.getPost e.tx.postID).elim 0 fun post =>
      sharesPaid (fun _ => true) e.before e.tx.postID post.totalStaked (stakerReward cfg e.tx.amount)
  else 0

/-- One transaction changes the supply by what it burns and fails to pay. -/
theorem TxEffect.supply (htrap : ar.trapAdd = true) {tx : Transaction}
    (h : TxEffect E ar cfg ws tx ws') :
    supply ws' + ws'.burnedSupply.toNat + rewardDue cfg ⟨ws, tx, ws'⟩ =
      supply ws + ws.burnedSupply.toNat + rewardPaid cfg ⟨ws, tx, ws'⟩ ∧ ws'.issuedSupply = ws.issuedSupply := by
  simp only [← holdings_all]
  cases h with
  | plain moved kind kept counters holdings =>
    have := holdings fun _ => true
    have hc := Prod.mk.inj counters
    simp only [within, if_true] at this
    simp only [rewardDue, rewardPaid, kind.2.1, if_false, hc.1]
    exact ⟨by omega, hc.2⟩
  | create sender post s kind effect =>
    have := effect.holdings fun _ => true
    simp only [within, if_true] at this
    have hb := effect.burned
    simp only [rewardDue, rewardPaid, kind, Option.some.injEq, reduceCtorEq, if_false]
    exact ⟨by omega, effect.issued⟩
  | boost old new s staked kind effect =>
    have := effect.holdings fun _ => true
    simp only [within, if_true] at this
    have hb := effect.burned
    simp only [rewardDue, rewardPaid, kind, if_true, effect.found, Option.elim_some]
    exact ⟨by omega, effect.issued⟩
  | unstake w old new kind effect =>
    have := effect.unstaked.holdings htrap fun _ => true
    have hc := Prod.mk.inj effect.unstaked.counters
    have hw : Drana.holdings (fun _ => true) ws' = Drana.holdings (fun _ => true) w := by
      rw [effect.result]
      rfl
    have hwc : counters ws' = counters w := by
      rw [effect.result]
      rfl
    have hwc := Prod.mk.inj hwc
    simp only [rewardDue, rewardPaid, kind, Option.some.injEq, reduceCtorEq, if_false]
    exact ⟨by rw [hw, this, hwc.1, hc.1], hwc.2.trans hc.2⟩

/-- What there was in `ws₀` and was issued since, less what was burned and what there is. -/
def missing (ws₀ ws : WorldState) : Int :=
  supply ws₀ + ws.issuedSupply.toNat - ws.burnedSupply.toNat - supply ws

theorem missing_congr {ws₀ : WorldState} (hh : supply ws' = supply ws) (hc : counters ws' = counters ws) :
    missing ws₀ ws' = missing ws₀ ws := by
  have hc := Prod.mk.inj hc
  rw [missing, hh, hc.1, hc.2, missing]

theorem releaseMatured_missing (htrap : ar.trapAdd = true) {ws₀ : WorldState} {height : UInt64} (hb : Books ws)
    (h : releaseMatured ar ws height = .ok ws') : missing ws₀ ws' = missing ws₀ ws := by
  obtain ⟨-, hc, heq⟩ := releaseMatured_effect (S := fun _ => true) htrap hb.keyed h
  exact missing_congr heq hc

theorem applySlashEvidence_missing (htrap : ar.trapAdd = true) (hf : cfg.slashFractionDoubleSign.toNat ≤ 100)
    {ws₀ : WorldState} {ev : SlashEvidence} (hb : Books ws) (h : applySlashEvidence E ar cfg ws ev = .ok ws') :
    missing ws₀ ws' = missing ws₀ ws := by
  have hi := (applySlashEvidence_kept hb.keyed h).2
  obtain ⟨n, -, hburn, heq⟩ := applySlashEvidence_holdings htrap hf hb.keyed h
  have heq := heq fun _ => true
  simp only [holdings_all, within, if_true] at heq
  simp only [missing, hi]
  omega

theorem issueReward_missing (htrap : ar.trapAdd = true) {ws₀ : WorldState} {addr : Address} (hb : Books ws)
    (h : issueReward ar cfg ws addr = .ok ws') : missing ws₀ ws' = missing ws₀ ws := by
  obtain ⟨-, heq, hi, hburn⟩ := issueReward_effect (S := fun _ => true) htrap hb.keyed h
  simp only [holdings_all, within, if_true] at heq
  simp only [missing, heq, hi, hburn]
  omega

theorem epochTransition_missing {ws₀ : WorldState} {ord : RangeOrder} {height : UInt64} :
    missing ws₀ (epochTransition cfg ord ws height) = missing ws₀ ws := by
  unfold epochTransition
  split <;> rfl

theorem executeTransaction_missing (htrap : ar.trapAdd = true) (hp : PercentagesOk cfg) {ws₀ : WorldState}
    {ord : RangeOrder} {header : BlockHeader} {i : Nat} {tx : Transaction} (hb : Books ws)
    (h : executeTransaction E ar cfg ord header i ws tx = .ok ws') : missing ws₀ ws' + rewardPaid cfg ⟨ws, tx, ws'⟩ =
      missing ws₀ ws + rewardDue cfg ⟨ws, tx, ws'⟩ := by
  obtain ⟨heq, hi⟩ := (executeTransaction_effect htrap hp hb h).supply htrap
  simp only [missing, hi]
  omega

/-- What is missing is what was due and not paid. -/
def Balanced (cfg : GenesisConfig) (ws₀ : WorldState) (log : List Applied) (ws : WorldState) : Prop :=
  supply ws + ws.burnedSupply.toNat + (log.map (rewardDue cfg)).sum =
    supply ws₀ + ws.issuedSupply.toNat + (log.map (rewardPaid cfg)).sum

theorem balanced_iff {ws₀ : WorldState} {log : List Applied} : Balanced cfg ws₀ log ws ↔
    missing ws₀ ws + (log.map (rewardPaid cfg)).sum = (log.map (rewardDue cfg)).sum := by
  unfold Balanced missing
  omega

theorem Balanced.step {ws₀ : WorldState} {log : List Applied} (h : Balanced cfg ws₀ log ws)
    (hm : missing ws₀ ws' = missing ws₀ ws) : Balanced cfg ws₀ log ws' := by
  rw [balanced_iff] at h ⊢
  rw [hm, h]

theorem keeps_balanced (htrap : ar.trapAdd = true) (hp : PercentagesOk cfg)
    (hf : cfg.slashFractionDoubleSign.toNat ≤ 100) {ws₀ : WorldState} :
    Keeps E ar cfg fun log ws => Books ws ∧ Balanced cfg ws₀ log ws where
  release := by
    intro log ws height ws' ⟨hb, h⟩ hs
    exact ⟨@Keeps.release E ar cfg _ (keeps_books htrap hp) [] _ _ _ hb hs, h.step (releaseMatured_missing htrap hb hs)⟩
  slash := by
    intro log ws ev ws' ⟨hb, h⟩ hs
    exact ⟨hb.kept (applySlashEvidence_kept hb.keyed hs).1, h.step (applySlashEvidence_missing htrap hf hb hs)⟩
  tx := by
    intro log ws tx ws' ord header i ⟨hb, h⟩ hs
    refine ⟨(executeTransaction_effect htrap hp hb hs).books hb, ?_⟩
    have hm : missing ws₀ ws' + _ = _ := executeTransaction_missing htrap hp hb hs
    rw [balanced_iff] at h ⊢
    simp only [List.map_append, List.sum_append, List.map_cons, List.map_nil, List.sum_cons, List.sum_nil]
    omega
  reward := by
    intro log ws addr ws' ⟨hb, h⟩ hs
    exact ⟨@Keeps.reward E ar cfg _ (keeps_books htrap hp) [] _ _ _ hb hs, h.step (issueReward_missing htrap hb hs)⟩
  epoch := by
    intro log ws ord height ⟨hb, h⟩
    exact ⟨hb.kept epochTransition_kept, h.step epochTransition_missing⟩
  height := by
    intro log ws height ⟨hb, h⟩
    exact ⟨hb.kept (.of_eq rfl rfl rfl), h⟩

/-- **The supply of any run**: only rewards due and not paid are missing. -/
theorem supply_balanced (hp : PercentagesOk cfg) (hf : cfg.slashFractionDoubleSign.toNat ≤ 100)
    {ws₀ : WorldState} (h₀ : initializeState E cfg = .ok ws₀) {bs : List ((Nat → RangeOrder) × Block)}
    (hrun : applyBlocks E .go cfg ws₀ bs = .ok ws) (hw : NoSumWraps E cfg ws₀ bs) :
    Balanced cfg ws₀ (appliedInRun E .go cfg ws₀ bs) ws := by
  obtain ⟨hfresh, hburn, hissued⟩ := initializeState_fresh h₀
  obtain ⟨hsums, hlog⟩ := run_of_noSumWraps hrun hw
  have hinit : Books ws₀ ∧ Balanced cfg ws₀ [] ws₀ := by
    refine ⟨hfresh.books, ?_⟩
    simp [Balanced, hburn, hissued]
  rw [hlog]
  exact ((keeps_balanced (E := E) rfl hp hf).fromStart hinit hsums).2

/-- **Conservation**, in a run whose boosts pay out all of the staker reward. -/
theorem supply_conserved (hp : PercentagesOk cfg) (hf : cfg.slashFractionDoubleSign.toNat ≤ 100)
    {ws₀ : WorldState} (h₀ : initializeState E cfg = .ok ws₀) {bs : List ((Nat → RangeOrder) × Block)}
    (hrun : applyBlocks E .go cfg ws₀ bs = .ok ws) (hw : NoSumWraps E cfg ws₀ bs)
    (hexact : ∀ e ∈ appliedInRun E .go cfg ws₀ bs, rewardPaid cfg e = rewardDue cfg e) :
    (supply ws : Int) = supply ws₀ + ws.issuedSupply.toNat - ws.burnedSupply.toNat := by
  have h := supply_balanced hp hf h₀ hrun hw
  have hsum : (appliedInRun E .go cfg ws₀ bs).map (rewardPaid cfg) =
      (appliedInRun E .go cfg ws₀ bs).map (rewardDue cfg) := List.map_congr_left hexact
  rw [Balanced, hsum] at h
  omega

section

open Sample

theorem config_percentages : PercentagesOk config := ⟨by decide, by decide⟩

/-- A run succeeds and no sum of it wraps, if it succeeds with the stops in. -/
theorem run_of_isOk {bs : List ((Nat → RangeOrder) × Block)}
    (h : (applyBlocks E .sums cfg ws bs).isOk = true) :
    applyBlocks E .go cfg ws bs = .ok (applyBlocks E .sums cfg ws bs).value ∧ NoSumWraps E cfg ws bs := by
  have hsums := Except.ok_value h
  have hgo := applyBlocks_extends (Arith.stops_go .sums) _ hsums
  exact ⟨hgo, by rw [NoSumWraps, hgo, hsums]; rfl⟩

/-- A post and a boost of it, whose one staker is due all of the reward. -/
def oneStaker : List ((Nat → RangeOrder) × Block) := [block 1 [createPost 1 100 1, boostPost 2 firstPost 100 1]]

theorem oneStaker_run : (applyBlocks env .sums config genesis oneStaker).isOk = true ∧
    (∀ e ∈ appliedInRun env .go config genesis oneStaker, rewardPaid config e = rewardDue config e) ∧
    (supply genesis : Int) + (applyBlocks env .sums config genesis oneStaker).value.issuedSupply.toNat -
      (applyBlocks env .sums config genesis oneStaker).value.burnedSupply.toNat = 3000 + 5 - 9 := by decide +kernel

theorem supply_conserved_oneStaker :
    (supply (applyBlocks env .sums config genesis oneStaker).value : Int) = 3000 + 5 - 9 := by
  obtain ⟨hok, hexact, hvalue⟩ := oneStaker_run
  obtain ⟨hrun, hw⟩ := run_of_isOk hok
  rw [supply_conserved config_percentages (by decide) genesis_ok hrun hw hexact]
  exact hvalue

/-- A second boost finds two stakers, and one coin of its reward is nobody's. -/
def twoStakers : List ((Nat → RangeOrder) × Block) :=
  [block 1 [createPost 1 100 1, boostPost 2 firstPost 100 1, boostPost 2 firstPost 100 2]]

theorem twoStakers_run : (applyBlocks env .sums config genesis twoStakers).isOk = true ∧
    (supply (applyBlocks env .sums config genesis twoStakers).value : Int) ≠
      supply genesis + (applyBlocks env .sums config genesis twoStakers).value.issuedSupply.toNat -
        (applyBlocks env .sums config genesis twoStakers).value.burnedSupply.toNat := by decide +kernel

theorem supply_lost_twoStakers : PercentagesOk config ∧ config.slashFractionDoubleSign.toNat ≤ 100 ∧
    initializeState env config = .ok genesis ∧ ∃ ws, applyBlocks env .go config genesis twoStakers = .ok ws ∧
      NoSumWraps env config genesis twoStakers ∧
      (supply ws : Int) ≠ supply genesis + ws.issuedSupply.toNat - ws.burnedSupply.toNat := by
  obtain ⟨hrun, hw⟩ := run_of_isOk twoStakers_run.1
  exact ⟨config_percentages, by decide, genesis_ok, _, hrun, hw, twoStakers_run.2⟩

end

/-! ## Value of one account -/

/-- Others' transactions do not make an account poorer. -/
theorem TxEffect.worth_le (htrap : ar.trapAdd = true) {tx : Transaction} (ha : a ≠ tx.sender)
    (h : TxEffect E ar cfg ws tx ws') : worth ws a ≤ worth ws' a := by
  have hout : ∀ n, within (· = a) tx.sender n = 0 := by
    intro n
    simp [within, ha.symm]
  simp only [← holdings_one]
  cases h with
  | plain moved kind kept counters holdings =>
    have := holdings (· = a)
    rw [hout] at this
    omega
  | create sender post s kind effect =>
    have := effect.holdings (· = a)
    rw [hout] at this
    omega
  | boost old new s staked kind effect =>
    have := effect.holdings (· = a)
    rw [hout] at this
    omega
  | unstake w old new kind effect =>
    have := effect.unstaked.holdings htrap (· = a)
    rw [effect.result]
    exact this.ge

/-- `a` sent a transaction, signed by a key its address derives from. -/
def SentBy (E : Env) (a : Address) (tx : Transaction) : Prop :=
  tx.sender = a ∧ addressFromPublicKey E tx.pubKey = a ∧
    verify E tx.pubKey tx.signableBytes tx.signature = true

theorem validateCommonNoBalanceCheck_ok {tx : Transaction} {sr : StateReader} {acct : Account}
    (h : validateCommonNoBalanceCheck E tx sr = .ok acct) :
    addressFromPublicKey E tx.pubKey = tx.sender ∧ verify E tx.pubKey tx.signableBytes tx.signature = true ∧
      sr.getAccount tx.sender = some acct ∧ tx.nonce = acct.nonce + 1 := by
  simp only [validateCommonNoBalanceCheck, Except.bind_ok_iff, Except.throwIf_ok_iff, Except.orThrow_ok_iff,
    Except.pure_ok_iff, ne_eq, Decidable.not_not, Bool.not_eq_true', Bool.not_eq_false] at h
  obtain ⟨-, hkey, -, hsig, acct', hacct, -, hnonce, rfl⟩ := h
  exact ⟨hkey, hsig, hacct, hnonce⟩

theorem validateCommon_ok {tx : Transaction} {sr : StateReader} {acct : Account}
    (h : validateCommon E tx sr = .ok acct) : validateCommonNoBalanceCheck E tx sr = .ok acct := by
  simp only [validateCommon, Except.bind_ok_iff, Except.throwIf_ok_iff, Except.pure_ok_iff] at h
  obtain ⟨acct', h, -, -, rfl⟩ := h
  exact h

/-- Who unstakes spends no balance, whatever amount the transaction names. -/
def SpendsNothing (tx : Transaction) : Prop := tx.kind = some .unstake ∨ tx.kind = some .unstakePost

instance (tx : Transaction) : Decidable (SpendsNothing tx) := inferInstanceAs (Decidable (_ ∨ _))

theorem spendsNothing_iff {tx : Transaction} {k : TxKind} (hc : tx.kind = some k) : SpendsNothing tx ↔
    k = .unstake ∨ k = .unstakePost := by
  rw [SpendsNothing, hc, Option.some_inj, Option.some_inj]

/-- What a valid transaction has of its sender: an account with the nonce before
it, and the balance, unless it spends none. -/
theorem validateTransaction_sender {tx : Transaction} {sr : StateReader} {u : Unit}
    (h : validateTransaction E tx sr cfg = .ok u) : ∃ acct, validateCommonNoBalanceCheck E tx sr = .ok acct ∧
      (¬ SpendsNothing tx → tx.amount ≤ acct.balance) := by
  have hcommon : ∀ {acct}, validateCommon E tx sr = .ok acct →
      ∃ acct, validateCommonNoBalanceCheck E tx sr = .ok acct ∧ (¬ SpendsNothing tx → tx.amount ≤ acct.balance) := by
    intro acct hc
    refine ⟨acct, validateCommon_ok hc, fun _ => ?_⟩
    simp only [validateCommon, Except.bind_ok_iff, Except.throwIf_ok_iff, Except.pure_ok_iff] at hc
    obtain ⟨acct', -, -, hbalance, rfl⟩ := hc
    exact UInt64.not_lt.mp hbalance
  unfold validateTransaction at h
  split at h
  · simp only [validateTransfer, Except.bind_ok_iff] at h
    obtain ⟨-, -, -, -, -, -, acct, hc, -⟩ := h
    exact hcommon hc
  · simp only [validateCreatePost, Except.bind_ok_iff] at h
    obtain ⟨-, -, -, -, -, -, -, -, acct, hc, -⟩ := h
    exact hcommon hc
  · simp only [validateBoostPost, Except.bind_ok_iff] at h
    obtain ⟨-, -, post, -, -, -, acct, hc, -⟩ := h
    exact hcommon hc
  · simp only [validateRegisterName, Except.bind_ok_iff] at h
    obtain ⟨-, -, -, -, acct, hc, -⟩ := h
    exact hcommon hc
  · simp only [validateStake, Except.bind_ok_iff] at h
    obtain ⟨-, -, acct, hc, -⟩ := h
    exact hcommon hc
  · next hk =>
    simp only [validateUnstake, Except.bind_ok_iff] at h
    obtain ⟨-, -, acct, hc, -⟩ := h
    exact ⟨acct, hc, fun hn => absurd (.inl hk) hn⟩
  · next hk =>
    simp only [validateUnstakePost, Except.bind_ok_iff] at h
    obtain ⟨acct, hc, -⟩ := h
    exact ⟨acct, hc, fun hn => absurd (.inr hk) hn⟩
  · cases h

/-- Every type checks key, signature and nonce. -/
theorem validateTransaction_ok {tx : Transaction} {sr : StateReader} {u : Unit}
    (h : validateTransaction E tx sr cfg = .ok u) :
    ∃ acct, validateCommonNoBalanceCheck E tx sr = .ok acct := by
  obtain ⟨acct, hc, -⟩ := validateTransaction_sender h
  exact ⟨acct, hc⟩

theorem executeTransaction_sentBy {ord : RangeOrder} {header : BlockHeader} {i : Nat} {tx : Transaction}
    (h : executeTransaction E ar cfg ord header i ws tx = .ok ws') : SentBy E tx.sender tx := by
  obtain ⟨hv, -⟩ := executeTransaction_ok_iff.mp h
  obtain ⟨acct, hc⟩ := validateTransaction_ok hv
  obtain ⟨hkey, hsig, -⟩ := validateCommonNoBalanceCheck_ok hc
  exact ⟨rfl, hkey, hsig⟩

/-- Two votes of `a` for different blocks of one height, each signed by a key
that derives to `a`. -/
def Equivocated (E : Env) (a : Address) (ev : SlashEvidence) : Prop :=
  ev.voteA.height = ev.voteB.height ∧ ev.voteA.blockHash ≠ ev.voteB.blockHash ∧
    ∀ v ∈ [ev.voteA, ev.voteB], v.voterAddr = a ∧ addressFromPublicKey E v.voterPubKey = a ∧
      verify E v.voterPubKey v.signableBytes v.signature = true

theorem verifyBlockVote_iff {v : BlockVote} : verifyBlockVote E v = true ↔ v.signature.length ≠ 0 ∧
    addressFromPublicKey E v.voterPubKey = v.voterAddr ∧
      verify E v.voterPubKey v.signableBytes v.signature = true := by
  unfold verifyBlockVote
  split
  · next h => simp [h]
  · next h =>
    split
    · next h' => simp [h']
    · next h' => simp [h, not_not.mp h']

theorem SlashEvidence.isValid_iff {ev : SlashEvidence} : ev.isValid E = true ↔
    ev.voteA.voterAddr = ev.voteB.voterAddr ∧ ev.voteA.height = ev.voteB.height ∧
      ev.voteA.blockHash ≠ ev.voteB.blockHash ∧ verifyBlockVote E ev.voteA = true ∧
      verifyBlockVote E ev.voteB = true := by
  unfold SlashEvidence.isValid
  split
  · next h => simp [h]
  · next h =>
    split
    · next h' => simp [h']
    · next h' =>
      split
      · next h'' => simp [h'']
      · next h'' =>
        simp only [not_not.mp h, not_not.mp h', h'', true_and, ne_eq, not_false_eq_true]
        cases verifyBlockVote E ev.voteA <;> simp

theorem SlashEvidence.equivocated {ev : SlashEvidence} (h : ev.isValid E = true) :
    Equivocated E ev.voteA.voterAddr ev := by
  obtain ⟨haddr, hheight, hhash, ha, hb⟩ := SlashEvidence.isValid_iff.mp h
  obtain ⟨-, hka, hsa⟩ := verifyBlockVote_iff.mp ha
  obtain ⟨-, hkb, hsb⟩ := verifyBlockVote_iff.mp hb
  refine ⟨hheight, hhash, fun v hv => ?_⟩
  simp only [List.mem_cons, List.not_mem_nil, or_false] at hv
  rcases hv with rfl | rfl
  · exact ⟨rfl, hka, hsa⟩
  · exact ⟨haddr.symm, hkb.trans haddr.symm, hsb⟩

theorem processEvidence_worth (htrap : ar.trapAdd = true) (hf : cfg.slashFractionDoubleSign.toNat ≤ 100)
    {evs : List SlashEvidence} (hb : Books ws) (h : processEvidence E ar cfg ws evs = .ok ws') :
    Books ws' ∧ ((∃ ev ∈ evs, Equivocated E a ev) ∨ worth ws a ≤ worth ws' a) := by
  induction evs generalizing ws with
  | nil =>
    rw [processEvidence, Except.foldlM_nil_ok_iff] at h
    subst h
    exact ⟨hb, .inr (Nat.le_refl _)⟩
  | cons ev evs ih =>
    obtain ⟨w, hw, hrest⟩ := Except.foldlM_cons_ok_iff.mp h
    obtain ⟨hb', hrest⟩ := ih (hb.kept (applySlashEvidence_kept hb.keyed hw).1) hrest
    refine ⟨hb', ?_⟩
    obtain ⟨n, hvalid, -, heq⟩ := applySlashEvidence_holdings htrap hf hb.keyed hw
    have heq := heq (· = a)
    rw [holdings_one, holdings_one] at heq
    rcases hrest with ⟨ev', hmem, hev⟩ | hle
    · exact .inl ⟨ev', List.mem_cons_of_mem ev hmem, hev⟩
    · by_cases hpen : within (· = a) ev.voteA.voterAddr n = 0
      · exact .inr (by omega)
      · simp only [within, decide_eq_true_eq] at hpen
        split at hpen
        · next haddr => exact .inl ⟨ev, List.mem_cons_self, haddr ▸ SlashEvidence.equivocated (hvalid hpen)⟩
        · exact absurd rfl hpen

theorem executeTransactions_worth (htrap : ar.trapAdd = true) (hp : PercentagesOk cfg) {ord : Nat → RangeOrder}
    {header : BlockHeader} {txs : List Transaction} {i : Nat} (hb : Books ws)
    (h : executeTransactions E ar cfg ord header i ws txs = .ok ws') :
    Books ws' ∧ ((∃ tx ∈ txs, SentBy E a tx) ∨ worth ws a ≤ worth ws' a) := by
  induction txs generalizing i ws with
  | nil =>
    simp only [executeTransactions, Except.pure_ok_iff] at h
    subst h
    exact ⟨hb, .inr (Nat.le_refl _)⟩
  | cons tx txs ih =>
    simp only [executeTransactions, Except.bind_ok_iff] at h
    obtain ⟨w, hw, hrest⟩ := h
    have heff := executeTransaction_effect htrap hp hb hw
    obtain ⟨hb', hrest⟩ := ih (heff.books hb) hrest
    refine ⟨hb', ?_⟩
    rcases hrest with ⟨tx', hmem, hsent⟩ | hle
    · exact .inl ⟨tx', List.mem_cons_of_mem tx hmem, hsent⟩
    · by_cases ha : a = tx.sender
      · exact .inl ⟨tx, List.mem_cons_self, ha ▸ executeTransaction_sentBy hw⟩
      · exact .inr ((heff.worth_le htrap ha).trans hle)

theorem epochTransition_worth {ord : RangeOrder} {height : UInt64} :
    worth (epochTransition cfg ord ws height) a = worth ws a := by
  unfold epochTransition
  split <;> rfl

/-- **Nobody loses without a signature**: where a block leaves an account
poorer, the account sent one of its transactions or equivocated. -/
theorem worth_kept (hp : PercentagesOk cfg) (hf : cfg.slashFractionDoubleSign.toNat ≤ 100) {ws₀ : WorldState}
    (h₀ : initializeState E cfg = .ok ws₀) {bs : List ((Nat → RangeOrder) × Block)} {ord : Nat → RangeOrder}
    {block : Block} (hrun : applyBlocks E .go cfg ws₀ bs = .ok ws)
    (hblock : applyBlock E .go cfg ord ws block = .ok ws') (hw : NoSumWraps E cfg ws₀ (bs ++ [(ord, block)]))
    (a : Address) (hless : worth ws' a < worth ws a) :
    (∃ tx ∈ block.transactions, SentBy E a tx) ∨ ∃ ev ∈ block.evidence, Equivocated E a ev := by
  obtain ⟨hrun, hblock⟩ := run_block_of_noSumWraps hrun hblock hw
  have hb : Books ws := (keeps_books rfl hp).invariant (initializeState_fresh h₀).1.books hrun
  simp only [applyBlock, Except.bind_ok_iff, Except.pure_ok_iff] at hblock
  obtain ⟨w₁, h₁, w₂, h₂, w₃, h₃, w₄, h₄, rfl⟩ := hblock
  obtain ⟨hkept, -, heq₁⟩ := releaseMatured_effect (S := (· = a)) rfl hb.keyed h₁
  obtain ⟨hb₂, hev⟩ := processEvidence_worth (a := a) rfl hf (hb.kept hkept) h₂
  obtain ⟨hb₃, htx⟩ := executeTransactions_worth (a := a) rfl hp hb₂ h₃
  obtain ⟨-, heq₄, -⟩ := issueReward_effect (S := (· = a)) rfl hb₃.keyed h₄
  rw [holdings_one, holdings_one] at heq₁ heq₄
  have hlast :
      worth (epochTransition cfg (ord block.transactions.length) w₄ block.header.height) a < worth ws a := hless
  rw [epochTransition_worth] at hlast
  rcases htx with htx | hle₃
  · exact .inl htx
  rcases hev with hev | hle₂
  · exact .inr hev
  omega

section

open Sample

/-- Key 2's boost leaves it with less. -/
theorem worth_kept_boost : (∃ tx ∈ (block 1 [createPost 1 100 1, boostPost 2 firstPost 100 1]).2.transactions,
      SentBy env (address 2) tx) ∨
    ∃ ev ∈ (block 1 [createPost 1 100 1, boostPost 2 firstPost 100 1]).2.evidence, Equivocated env (address 2) ev := by
  obtain ⟨hrun, hw⟩ := run_of_isOk oneStaker_run.1
  obtain ⟨w, hstart, hblock⟩ := applyBlocks_append_ok_iff.mp
    (show applyBlocks env .go config genesis ([] ++ oneStaker) = _ from hrun)
  exact worth_kept config_percentages (by decide) genesis_ok hstart hblock hw (address 2) (by
    cases hstart
    decide +kernel)

end

end Drana
