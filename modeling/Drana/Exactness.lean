/-
Where arithmetic is exact. All there is, burned coins and rewards to come
included, stays below 2^64; so no sum of balances wraps, if of no transaction
more is taken than its amount, of no validator more than it has at risk, and
nothing is to be released beyond the last height.
-/
import Drana.Dust
import Drana.Penalties
import Drana.Threads
import Drana.GenesisFile

namespace Drana

open Except (orThrow wrapErr)

variable {E : Env} {params : GenesisConfig} {ws w ws' : WorldState} {a : Address} {p : PostID} {post : Post}
  {tx : Transaction} {ord : RangeOrder} {n height : UInt64}

/-! ## What a part has is less than all there is -/

theorem value_add_queued_le {acct : Account} (hg : ws.getAccount a = some acct) :
    acct.value + queued (· = a) ws.unbondingQueue ≤ supply ws := by
  have hvalue : acct.value ≤ ws.accounts.total fun _ acct => acct.value := by
    have hat := GoMap.at_le_total (f := fun (_ : Address) (acct : Account) => acct.value) (m := ws.accounts) (k := a)
    rwa [GoMap.at_of_lookup hg] at hat
  have hqueued : queued (· = a) ws.unbondingQueue ≤ (ws.unbondingQueue.map (·.amount.toNat)).sum := by
    refine List.sum_le_sum fun e _ => ?_
    unfold within
    split <;> simp
  exact Nat.add_le_add hvalue hqueued

theorem value_le_supply {acct : Account} (hg : ws.getAccount a = some acct) : acct.value ≤ supply ws :=
  (Nat.le_add_right _ _).trans (value_add_queued_le hg)

theorem valueAt_le_supply : valueAt ws a ≤ supply ws := by
  cases hg : ws.getAccount a with
  | none =>
    rw [valueAt, hg]
    exact Nat.zero_le _
  | some acct =>
    rw [valueAt_of hg]
    exact value_le_supply hg

/-- What lies on a post lies in its stakers' accounts, beside the sender's balance. -/
theorem stakedOn_add_balance_le (hb : PostBooks E ws) {acct : Account} (hg : ws.getAccount a = some acct) :
    stakedOn ws p + acct.balance.toNat ≤ supply ws := by
  have hstakes : stakedOn ws p ≤ ws.accounts.total fun _ acct => acct.postStakeBalance.toNat := by
    unfold stakedOn stakedAt
    refine GoMap.total_le_total (fun k : PostID × Address => k.2) (fun k s hk _ => ?_) fun b acct' hb' => ?_
    · exact Finmap.lookup_isSome.mp (Option.isSome_iff_exists.mpr (hb.books.staker k.1 k.2 s hk))
    · rw [hb.held b acct' hb', stakedBy, stakedAt]
      refine GoMap.total_mono fun k s _ => ?_
      split
      · split
        · exact Nat.le_refl _
        · exact Nat.zero_le _
      · exact Nat.zero_le _
  have hbalance : acct.balance.toNat ≤ ws.accounts.total fun _ acct => acct.balance.toNat := by
    have hat := GoMap.at_le_total (f := fun (_ : Address) (acct : Account) => acct.balance.toNat) (m := ws.accounts)
      (k := a)
    rwa [GoMap.at_of_lookup hg] at hat
  have hsum : (ws.accounts.total fun _ acct => acct.postStakeBalance.toNat) +
      (ws.accounts.total fun _ acct => acct.balance.toNat) ≤
      ws.accounts.total fun _ acct => acct.value := by
    rw [← GoMap.total_add]
    refine GoMap.total_mono fun _ acct _ => ?_
    unfold Account.value
    omega
  unfold supply
  omega

/-! ## Deposits -/

theorem depositAccount_exact (hfit : supply ws + n.toNat < 2 ^ 64) (h : depositAccount .go ws a n = .ok ws') :
    depositAccount .strict ws a n = .ok ws' := by
  obtain ⟨balance, hb, rfl⟩ := depositAccount_ok_iff.mp h
  refine depositAccount_ok_iff.mpr ⟨balance, Arith.add_exact hb ?_, rfl⟩
  have hle : ((ws.getAccount a).getD { address := a }).value ≤ supply ws := value_getD ▸ valueAt_le_supply
  simp only [Account.value] at hle
  omega

/-- Deposits one after the other, all of them below the bound. -/
theorem depositAll_exact {l : List UnbondingEntry} (hk : Keyed ws) (hfit : supply ws + queued (fun _ => true) l < 2 ^ 64)
    (h : l.foldlM (fun ws e => depositAccount .go ws e.address e.amount) ws = .ok ws') :
    l.foldlM (fun ws e => depositAccount .strict ws e.address e.amount) ws = .ok ws' := by
  induction l generalizing ws with
  | nil => exact h
  | cons e l ih =>
    obtain ⟨w, hw, hrest⟩ := Except.foldlM_cons_ok_iff.mp h
    simp only [queued, within, List.map_cons, List.sum_cons, if_true] at hfit
    have hone := depositAccount_exact (by omega) hw
    have hsupply := depositAccount_holdings (S := fun _ => true) rfl hk hone
    rw [holdings_all, holdings_all, within, if_pos rfl] at hsupply
    refine Except.foldlM_cons_ok_iff.mpr ⟨w, hone, ih ((depositAccount_kept hk hone).1.keyed hk) ?_ hrest⟩
    simp only [queued, within, if_true]
    omega

theorem releaseMatured_exact (hk : Keyed ws) (hfit : supply ws < 2 ^ 64) (h : releaseMatured .go ws height = .ok ws') :
    releaseMatured .strict ws height = .ok ws' := by
  have hkept : StakesKept ws (ws.removeMaturedUnbonding height).2 := .of_eq rfl rfl rfl
  refine depositAll_exact (hkept.keyed hk) ?_ h
  have hq := queued_filter_add (S := fun _ => true) (fun e => e.releaseHeight ≤ height) ws.unbondingQueue
  have hsame : supply ws = supply (ws.removeMaturedUnbonding height).2 +
      queued (fun _ => true) (ws.removeMaturedUnbonding height).1 := by
    rw [← holdings_all, ← holdings_all]
    simp only [holdings, WorldState.removeMaturedUnbonding, decide_not] at hq ⊢
    omega
  rw [hsame] at hfit
  exact hfit

/-! ## Penalties -/

/-- No more than what is at risk is taken. -/
def PenaltyFits (E : Env) (params : GenesisConfig) (ws : WorldState) (ev : SlashEvidence) : Prop :=
  TakesEffect E ws ev →
    (slashAmount params (atRisk ws ev.voteA.voterAddr)).toNat ≤ (atRisk ws ev.voteA.voterAddr).toNat

/-- A penalty of at most all that is at risk fits. -/
theorem PenaltyFits.of_fraction (hf : params.slashFractionDoubleSign.toNat ≤ 100) {ev : SlashEvidence} :
    PenaltyFits E params ws ev :=
  fun htakes => slashAmount_le hf htakes.2.2.2

theorem unbondingBalanceFor_exact (hfit : queued (· = a) ws.unbondingQueue < 2 ^ 64)
    (h : ws.unbondingBalanceFor .go a = .ok n) : ws.unbondingBalanceFor .strict a = .ok n := by
  have hloop : ∀ (q : List UnbondingEntry) (t r : UInt64), t.toNat + queued (· = a) q < 2 ^ 64 →
      q.foldlM (fun total e => if e.address = a then Arith.go.add total e.amount else .ok total) t = .ok r →
      q.foldlM (fun total e => if e.address = a then Arith.strict.add total e.amount else .ok total) t = .ok r := by
    intro q
    induction q with
    | nil => exact fun _ _ _ h => h
    | cons e q ih =>
      intro t r hfit h
      obtain ⟨t', ht', hrest⟩ := Except.foldlM_cons_ok_iff.mp h
      simp only [queued, within, List.map_cons, List.sum_cons, decide_eq_true_eq] at hfit ih
      split at ht'
      · next he =>
        rw [if_pos he] at hfit
        have hone : Arith.strict.add t e.amount = .ok t' := Arith.add_exact ht' (by omega)
        have hsum := Arith.add_toNat hone rfl
        exact Except.foldlM_cons_ok_iff.mpr ⟨t', by rw [if_pos he, hone], ih t' r (by omega) hrest⟩
      · next he =>
        cases ht'
        rw [if_neg he] at hfit
        exact Except.foldlM_cons_ok_iff.mpr ⟨t, by rw [if_neg he], ih t r (by omega) hrest⟩
  exact hloop _ _ _ (by simpa using hfit) h

/-- The loop over the queue subtracts what it has compared. -/
theorem slashEntries_exact {es es' : List UnbondingEntry} (h : WorldState.slashEntries .go a n es = .ok es') :
    WorldState.slashEntries .strict a n es = .ok es' := by
  induction es generalizing n es' with
  | nil => exact h
  | cons e es ih =>
    unfold WorldState.slashEntries at h ⊢
    split at h
    · next hzero => rw [if_pos hzero, h]
    · next hpos =>
      rw [if_neg hpos]
      split at h
      · next he =>
        rw [if_pos he]
        split at h
        · next hle =>
          rw [if_pos hle]
          simp only [Except.bind_ok_iff, Except.pure_ok_iff] at h ⊢
          obtain ⟨r, hr, es₁, hes, rfl⟩ := h
          exact ⟨r, Arith.sub_exact hr (UInt64.le_iff_toNat_le.mp hle), es₁, ih hes, rfl⟩
        · next hlt =>
          rw [if_neg hlt]
          rw [UInt64.le_iff_toNat_le] at hlt
          simp only [Except.bind_ok_iff, Except.pure_ok_iff] at h ⊢
          obtain ⟨r, hr, rfl⟩ := h
          exact ⟨r, Arith.sub_exact hr (by omega), rfl⟩
      · next he =>
        rw [if_neg he]
        simp only [Except.bind_ok_iff, Except.pure_ok_iff] at h ⊢
        obtain ⟨es₁, hes, rfl⟩ := h
        exact ⟨es₁, ih hes, rfl⟩

theorem slashRest_exact (h : slashRest .go ws a n = .ok ws') : slashRest .strict ws a n = .ok ws' := by
  obtain ⟨hpos, q, hq, rfl⟩ | hzero := slashRest_ok_iff.mp h
  · exact slashRest_ok_iff.mpr (.inl ⟨hpos, q, slashEntries_exact hq, rfl⟩)
  · exact slashRest_ok_iff.mpr (.inr hzero)

theorem slashAccount_exact {acct : Account} {total : UInt64}
    (hfit : ws.burnedSupply.toNat + (slashAmount params total).toNat < 2 ^ 64)
    (h : slashAccount .go params ws a height acct total = .ok ws') :
    slashAccount .strict params ws a height acct total = .ok ws' := by
  rw [slashAccount_ok_iff] at h ⊢
  generalize slashAmount params total = amount at h hfit ⊢
  have hmin : (if amount > acct.stakedBalance then acct.stakedBalance else amount).toNat =
      min acct.stakedBalance.toNat amount.toNat := Arith.toNat_capped
  obtain ⟨staked, hstaked, remaining, hremaining, w, hw, burned, hburned, rfl⟩ := h
  have hc := (Prod.mk.inj (slashRest_kept hw).2).1
  refine ⟨staked, Arith.sub_exact hstaked (by omega), remaining, Arith.sub_exact hremaining (by omega), w,
    slashRest_exact hw,
    burned, Arith.add_exact hburned ?_, rfl⟩
  simp only [WorldState.recordSlash_burnedSupply, hc, WorldState.setAccount_burnedSupply]
  omega

/-- Evidence is exact, and burns what it takes. -/
theorem applySlashEvidence_exact (hk : Keyed ws) {ev : SlashEvidence} (hfits : PenaltyFits E params ws ev)
    (hroom : supply ws + ws.burnedSupply.toNat < 2 ^ 64) (h : applySlashEvidence E .go params ws ev = .ok ws') :
    applySlashEvidence E .strict params ws ev = .ok ws' ∧
      supply ws' + ws'.burnedSupply.toNat = supply ws + ws.burnedSupply.toNat ∧
      ws.burnedSupply.toNat ≤ ws'.burnedSupply.toNat := by
  have hsame : ∀ {w : WorldState}, (pure ws : Except String WorldState) = .ok w →
      supply w + w.burnedSupply.toNat = supply ws + ws.burnedSupply.toNat ∧
        ws.burnedSupply.toNat ≤ w.burnedSupply.toNat := by
    intro w hw
    cases hw
    exact ⟨rfl, Nat.le_refl _⟩
  unfold applySlashEvidence at h ⊢
  dsimp only at h ⊢
  split at h
  · next hinvalid => exact ⟨by rw [if_pos hinvalid, h], hsame h⟩
  · next hvalid =>
    rw [if_neg hvalid]
    split at h
    · next hold => exact ⟨by rw [if_pos hold, h], hsame h⟩
    · next hnew =>
      rw [if_neg hnew]
      cases hg : ws.getAccount ev.voteA.voterAddr with
      | none =>
        rw [hg] at h
        exact ⟨h, hsame h⟩
      | some acct =>
        rw [hg] at h
        simp only [Except.bind_ok_iff] at h ⊢
        obtain ⟨unbonding, hu, total, htotal, h⟩ := h
        have hworth := value_add_queued_le hg
        have hu' := unbondingBalanceFor_exact (by omega) hu
        have hunbonding := unbondingBalanceFor_toNat rfl hu'
        have hvalue : acct.stakedBalance.toNat ≤ acct.value := by
          unfold Account.value
          omega
        have htotal' : Arith.strict.add acct.stakedBalance unbonding = .ok total := Arith.add_exact htotal (by omega)
        have hsum := Arith.add_toNat htotal' rfl
        split at h
        · next hzero => exact ⟨⟨unbonding, hu', total, htotal', by rw [if_pos hzero, h]⟩, hsame h⟩
        · next hrisk =>
          have hat : atRisk ws ev.voteA.voterAddr = total := by
            rw [atRisk, ownStakeOf_of hg, hu, Arith.add_ok htotal]
            rfl
          have htakes : TakesEffect E ws ev :=
            ⟨by simpa using hvalid, by simpa using hnew, by rw [hg]; rfl, by rw [hat]; exact hrisk⟩
          have hle := hfits htakes
          rw [hat] at hle
          have hexact := slashAccount_exact (by omega) h
          obtain ⟨hburned, htaken⟩ := slashAccount_holdings (S := fun _ => true) rfl hk hg (by omega) hexact
          rw [holdings_all, holdings_all, within, if_pos rfl] at htaken
          exact ⟨⟨unbonding, hu', total, htotal', by rw [if_neg hrisk, hexact]⟩, by omega, by omega⟩

/-! ## Transactions -/

theorem applyTransfer_exact (hk : Keyed ws) (hroom : supply ws < 2 ^ 64) {sender : Account}
    (hg : ws.getAccount tx.sender = some sender)
    (hnonce : sender.nonce.toNat + 1 < 2 ^ 64) (h : applyTransfer .go ws tx = .ok ws') :
    applyTransfer .strict ws tx = .ok ws' := by
  obtain ⟨_, hacct, hle, balance, hb, nonce, hn, hdep⟩ := applyTransfer_ok_iff.mp h
  cases hg.symm.trans hacct
  have hb' : Arith.strict.sub sender.balance tx.amount = .ok balance := Arith.sub_exact hb (le_of_not_lt hle)
  refine applyTransfer_ok_iff.mpr
    ⟨sender, hg, hle, balance, hb', nonce, Arith.add_exact hn hnonce, depositAccount_exact ?_ hdep⟩
  -- What is deposited was debited.
  have hlose : holdings (fun _ => true) (ws.setAccount { sender with balance, nonce }) +
      within (fun _ => true) tx.sender tx.amount.toNat = holdings (fun _ => true) ws := by
    have hdebit := Arith.sub_toNat hb (le_of_not_lt hle)
    have haddr := hk.account _ _ hg
    refine holdings_lose haddr ?_
    rw [valueAt_of hg]
    simp only [Account.value]
    omega
  rw [within, if_pos rfl, holdings_all, holdings_all] at hlose
  omega

theorem applyCreatePost_exact {time : Int64} (hroom : supply ws + ws.burnedSupply.toNat < 2 ^ 64)
    (hfee : (postFee params tx.amount).toNat ≤ tx.amount.toNat) {sender : Account}
    (hg : ws.getAccount tx.sender = some sender)
    (hnonce : sender.nonce.toNat + 1 < 2 ^ 64) (h : applyCreatePost E .go params ws tx height time = .ok ws') :
    applyCreatePost E .strict params ws tx height time = .ok ws' := by
  obtain ⟨_, hacct, hle, staked, hs, nonce, hn, balance, hb, psb, hp, burned, hburned, rfl⟩ := applyCreatePost_ok_iff.mp h
  cases hg.symm.trans hacct
  have hvalue := value_le_supply hg
  have hstaked := Arith.sub_toNat hs hfee
  have hamount := le_of_not_lt hle
  unfold Account.value at hvalue
  exact applyCreatePost_ok_iff.mpr ⟨sender, hg, hle, staked, Arith.sub_exact hs hfee, nonce, Arith.add_exact hn hnonce,
    balance,
    Arith.sub_exact hb hamount, psb, Arith.add_exact hp (by omega), burned, Arith.add_exact hburned (by omega), rfl⟩

theorem applyStake_exact (hroom : supply ws < 2 ^ 64) {sender : Account} (hg : ws.getAccount tx.sender = some sender)
    (hnonce : sender.nonce.toNat + 1 < 2 ^ 64) (h : applyStake .go ws tx = .ok ws') :
    applyStake .strict ws tx = .ok ws' := by
  obtain ⟨_, hacct, hle, balance, hb, staked, hs, nonce, hn, rfl⟩ := applyStake_ok_iff.mp h
  cases hg.symm.trans hacct
  have hvalue := value_le_supply hg
  have hamount := le_of_not_lt hle
  unfold Account.value at hvalue
  exact applyStake_ok_iff.mpr ⟨sender, hg, hle, balance, Arith.sub_exact hb hamount, staked,
    Arith.add_exact hs (by omega), nonce,
    Arith.add_exact hn hnonce, rfl⟩

theorem applyUnstake_exact (hrelease : height.toNat + params.unbondingPeriod.toNat < 2 ^ 64) {sender : Account}
    (hg : ws.getAccount tx.sender = some sender) (hnonce : sender.nonce.toNat + 1 < 2 ^ 64)
    (h : applyUnstake .go params ws tx height = .ok ws') : applyUnstake .strict params ws tx height = .ok ws' := by
  obtain ⟨_, hacct, hle, staked, hs, nonce, hn, release, hr, rfl⟩ := applyUnstake_ok_iff.mp h
  cases hg.symm.trans hacct
  exact applyUnstake_ok_iff.mpr ⟨sender, hg, hle, staked, Arith.sub_exact hs (le_of_not_lt hle), nonce,
    Arith.add_exact hn hnonce,
    release, Arith.add_exact hr hrelease, rfl⟩

theorem applyRegisterName_exact {sender : Account} (hg : ws.getAccount tx.sender = some sender)
    (hnonce : sender.nonce.toNat + 1 < 2 ^ 64) (h : applyRegisterName .go ws tx = .ok ws') :
    applyRegisterName .strict ws tx = .ok ws' := by
  obtain ⟨_, hacct, nonce, hn, rfl⟩ := applyRegisterName_ok_iff.mp h
  cases hg.symm.trans hacct
  exact applyRegisterName_ok_iff.mpr ⟨sender, hg, nonce, Arith.add_exact hn hnonce, rfl⟩

/-! ### Boosts -/

theorem creditAccount_exact (hfit : supply ws + n.toNat < 2 ^ 64) (h : creditAccount .go ws a n = .ok ws') :
    creditAccount .strict ws a n = .ok ws' := by
  obtain ⟨acct, hg, balance, hb, rfl⟩ | hnone := creditAccount_ok_iff.mp h
  · have hvalue := value_le_supply hg
    unfold Account.value at hvalue
    exact creditAccount_ok_iff.mpr (.inl ⟨acct, hg, balance, Arith.add_exact hb (by omega), rfl⟩)
  · exact creditAccount_ok_iff.mpr (.inr hnone)

theorem payAuthor_exact (hfit : supply ws + n.toNat < 2 ^ 64) (h : payAuthor .go ws a n = .ok ws') :
    payAuthor .strict ws a n = .ok ws' := by
  obtain ⟨hpos, h⟩ | hzero := payAuthor_ok_iff.mp h
  · exact payAuthor_ok_iff.mpr (.inl ⟨hpos, creditAccount_exact hfit h⟩)
  · exact payAuthor_ok_iff.mpr (.inr hzero)

/-- The loop over the stakers, whose shares together fit. -/
theorem payAll_exact {total : UInt64} {l : List PostStake} (hk : Keyed ws)
    (ha : ∀ s ∈ l, ∃ acct, ws.getAccount s.staker = some acct)
    (hfit : supply ws + (l.map fun s => (stakerShare n total s).toNat).sum < 2 ^ 64)
    (h : l.foldlM (payStaker .go n total) ws = .ok ws') : l.foldlM (payStaker .strict n total) ws = .ok ws' := by
  induction l generalizing ws with
  | nil => exact h
  | cons s l ih =>
    obtain ⟨w, hw, hrest⟩ := Except.foldlM_cons_ok_iff.mp h
    rw [List.map_cons, List.sum_cons] at hfit
    have hone : payStaker .strict n total ws s = .ok w := payAuthor_exact (by omega) hw
    obtain ⟨hkept, -, hsupply⟩ := payStaker_effect (S := fun _ => true) rfl hk (ha s List.mem_cons_self) hone
    rw [holdings_all, holdings_all, within, if_pos rfl] at hsupply
    refine Except.foldlM_cons_ok_iff.mpr ⟨w, hone, ih (hkept.keyed hk) (fun s' hs' => ?_) (by omega) hrest⟩
    obtain ⟨acct, hacct⟩ := ha s' (List.mem_cons_of_mem s hs')
    obtain ⟨acct', hacct', -⟩ := hkept.kept _ acct hacct
    exact ⟨acct', hacct'⟩

theorem payStakers_exact (hk : Keyed ws) (hs : ∀ a s, ws.getPostStake p a = some s → ∃ acct, ws.getAccount a = some acct)
    (hfit : supply ws + sharesPaid (fun _ => true) ws p post.totalStaked n < 2 ^ 64)
    (h : payStakers .go ord ws post p n = .ok ws') : payStakers .strict ord ws post p n = .ok ws' := by
  unfold payStakers at h ⊢
  split at h
  · next hpos =>
    rw [if_pos hpos]
    refine payAll_exact hk (fun s hm => hs s.staker s (hk.getPostStake_stakers hm)) ?_ h
    rw [sharesPaid, if_pos hpos.2] at hfit
    rw [sum_getPostStakers]
    exact hfit
  · next hzero =>
    rw [if_neg hzero]
    exact h

theorem boostStaked_exact {st : UInt64} (hle : (burnAmount params n).toNat + (authorReward params n).toNat +
      (stakerReward params n).toNat ≤ n.toNat) (h : boostStaked .go params n = .ok st) : boostStaked .strict params n =
        .ok st := by
  simp only [boostStaked, Except.bind_ok_iff] at h ⊢
  obtain ⟨r₁, h₁, r₂, h₂, h₃⟩ := h
  have hr₁ := Arith.sub_toNat h₁ (by omega)
  have hr₂ := Arith.sub_toNat h₂ (by omega)
  exact ⟨r₁, Arith.sub_exact h₁ (by omega), r₂, Arith.sub_exact h₂ (by omega), Arith.sub_exact h₃ (by omega)⟩

theorem addBoostStake_exact {st : UInt64} (hfit : ∀ s, ws.getPostStake tx.postID tx.sender = some s →
      s.amount.toNat + st.toNat < 2 ^ 64)
    (hcount : ws.getPostStake tx.postID tx.sender = none → post.stakerCount.toNat + 1 < 2 ^ 64)
    (h : addBoostStake .go ws post tx st height = .ok ws') : addBoostStake .strict ws post tx st height = .ok ws' := by
  obtain ⟨s, hs, amount, ha, rfl⟩ | ⟨hs, count, hc, rfl⟩ := addBoostStake_ok_iff.mp h
  · exact addBoostStake_ok_iff.mpr (.inl ⟨s, hs, amount, Arith.add_exact ha (hfit s hs), rfl⟩)
  · exact addBoostStake_ok_iff.mpr (.inr ⟨hs, count, Arith.add_exact hc (hcount hs), rfl⟩)

/-- No post has more coins burned on it than are burned at all. -/
def BurnedCovered (ws : WorldState) : Prop :=
  ∀ p post, ws.getPost p = some post → post.totalBurned.toNat ≤ ws.burnedSupply.toNat

/-- The stakers' shares are no more than what is shared. -/
theorem sharesPaid_le (hb : PostBooks E ws) (hpost : ws.getPost p = some post) :
    sharesPaid (fun _ => true) ws p post.totalStaked n ≤ n.toNat := by
  rw [sharesPaid_eq hb hpost]
  have hid := hb.books.keyed.post p post hpost
  by_cases hpos : 0 < post.totalStaked.toNat
  · have hbound := (shares_bounds (hb.tally p post hpost) hpos n.toNat).1
    rwa [hid] at hbound
  · rw [shares, if_neg hpos]
    exact Nat.zero_le _

theorem applyBoostPost_exact (hb : PostBooks E ws) (hburned : BurnedCovered ws)
    (hroom : supply ws + ws.burnedSupply.toNat < 2 ^ 64)
    (hfees : (burnAmount params tx.amount).toNat + (authorReward params tx.amount).toNat +
      (stakerReward params tx.amount).toNat ≤
      tx.amount.toNat)
    (hcount : ∀ post, ws.getPost tx.postID = some post → ws.getPostStake tx.postID tx.sender = none →
      post.stakerCount.toNat + 1 < 2 ^ 64) {sender : Account} (hg : ws.getAccount tx.sender = some sender)
    (hnonce : sender.nonce.toNat + 1 < 2 ^ 64) (h : applyBoostPost .go params ord ws tx height = .ok ws') :
    applyBoostPost .strict params ord ws tx height = .ok ws' := by
  obtain ⟨_, hacct, hle, old, hpost, staked, hstaked, balance, hbal, psb, hpsb, nonce, hn, burned, hburn, w₁, hw₁, w₂,
      hw₂,
    total, htotal, burnedOnPost, honPost, h⟩ := applyBoostPost_ok_iff.mp h
  cases hg.symm.trans hacct
  have haddr := hb.books.keyed.account _ _ hg
  have hamount := le_of_not_lt hle
  have hvalue := value_le_supply hg
  unfold Account.value at hvalue
  have hsplit := boostStaked_toNat hfees hstaked
  have hbal' := Arith.sub_toNat hbal hamount
  have hpsb' : Arith.strict.add sender.postStakeBalance staked = .ok psb := Arith.add_exact hpsb (by omega)
  have hsum := Arith.add_toNat hpsb' rfl
  -- The debited state, from which the credits go out.
  obtain ⟨w₀, hw₀⟩ : ∃ w₀, w₀ =
      { ws.setAccount { sender with balance, postStakeBalance := psb, nonce } with burnedSupply := burned } :=
    ⟨_, rfl⟩
  rw [← hw₀] at hw₁
  have hstart : supply w₀ + ((burnAmount params tx.amount).toNat + (authorReward params tx.amount).toNat +
      (stakerReward params tx.amount).toNat) = supply ws := by
    have hlose : holdings (fun _ => true) (ws.setAccount { sender with balance, postStakeBalance := psb, nonce }) +
        within (fun _ => true) tx.sender ((burnAmount params tx.amount).toNat + (authorReward params tx.amount).toNat +
          (stakerReward params tx.amount).toNat) = holdings (fun _ => true) ws := by
      refine holdings_lose haddr ?_
      rw [valueAt_of hg]
      simp only [Account.value]
      omega
    rw [within, if_pos rfl, holdings_all, holdings_all] at hlose
    rw [hw₀]
    exact hlose
  have hkeyed₀ : Keyed w₀ := by
    rw [hw₀]
    exact hb.books.keyed.setAccount.congr rfl rfl rfl
  have hstakes₀ : w₀.postStakes = ws.postStakes := by rw [hw₀]; rfl
  have hexists : ∀ a, (∃ acct, ws.getAccount a = some acct) → ∃ acct, w₀.getAccount a = some acct := by
    rintro a ⟨acct, ha⟩
    change ∃ acct, w₀.accounts.lookup a = some acct
    rw [hw₀]
    change ∃ acct, (ws.setAccount _).getAccount a = some acct
    rw [WorldState.getAccount_setAccount]
    split
    · exact ⟨_, rfl⟩
    · exact ⟨acct, ha⟩
  have hone := payAuthor_exact (by omega) hw₁
  obtain ⟨hkept₁, -, hsupply₁⟩ := payAuthor_effect (S := fun _ => true) rfl hkeyed₀
    (hexists _ (hb.books.author _ old hpost)) hone
  rw [holdings_all, holdings_all, within, if_pos rfl] at hsupply₁
  have hstakers : ∀ a s, w₁.getPostStake tx.postID a = some s → ∃ acct, w₁.getAccount a = some acct := by
    intro a s hs
    rw [hkept₁.getPostStake, WorldState.getPostStake, hstakes₀] at hs
    obtain ⟨acct, hacct⟩ := hexists a (hb.books.staker _ a s hs)
    obtain ⟨acct', hacct', -⟩ := hkept₁.kept _ acct hacct
    exact ⟨acct', hacct'⟩
  have hshares : sharesPaid (fun _ => true) w₁ tx.postID old.totalStaked (stakerReward params tx.amount) ≤
      (stakerReward params tx.amount).toNat := by
    rw [sharesPaid_congr (hkept₁.postStakes.trans hstakes₀)]
    exact sharesPaid_le hb hpost
  have htwo := payStakers_exact (hkept₁.keyed hkeyed₀) hstakers (by omega) hw₂
  obtain ⟨hkept₂, -, -⟩ := payStakers_effect (S := fun _ => true) rfl (hkept₁.keyed hkeyed₀) hstakers htwo
  have hlast : ∀ a, w₂.getPostStake tx.postID a = ws.getPostStake tx.postID a :=
    fun a => by rw [hkept₂.getPostStake, hkept₁.getPostStake, WorldState.getPostStake, hstakes₀, WorldState.getPostStake]
  have htally := (hb.tally _ old hpost).1
  rw [hb.books.keyed.post _ old hpost] at htally
  have hroomOn := stakedOn_add_balance_le (p := tx.postID) hb hg
  have hcovered := hburned _ old hpost
  refine applyBoostPost_ok_iff.mpr ⟨sender, hg, hle, old, hpost, staked, boostStaked_exact hfees hstaked, balance,
    Arith.sub_exact hbal hamount, psb, hpsb', nonce, Arith.add_exact hn hnonce, burned, Arith.add_exact hburn ?_, w₁,
      hw₀ ▸ hone,
    w₂, htwo, total, Arith.add_exact htotal (by omega), burnedOnPost, Arith.add_exact honPost (by omega),
    addBoostStake_exact (fun s hs => ?_) ?_ h⟩
  · change ws.burnedSupply.toNat + _ < _
    omega
  · rw [hlast] at hs
    have hheld : heldOn ws tx.postID tx.sender ≤ stakedOn ws tx.postID := heldOn_le_stakedOn
    rw [heldOn_of hs] at hheld
    omega
  · rw [hlast]
    exact hcount old hpost

/-! ### Withdrawals -/

/-- A stake that is returned is part of what its account has. -/
theorem balance_add_stake_le (hb : Books ws) {acct : Account} {s : PostStake} (hg : ws.getAccount a = some acct)
    (hs : ws.getPostStake p a = some s) : acct.balance.toNat + s.amount.toNat ≤ supply ws := by
  have hvalue := value_le_supply hg
  have hheld : heldOn ws p a ≤ acct.postStakeBalance.toNat := heldOn_le_stakedBy.trans (hb.held a acct hg)
  rw [heldOn_of hs] at hheld
  unfold Account.value at hvalue
  omega

theorem forceUnstake_sums {old new : Post} {s : PostStake} (hb : Books ws) (hroom : supply ws < 2 ^ 64)
    (hs : ws.getPostStake p s.staker = some s) (h : forceUnstake .go p (ws, old) s = .ok (w, new)) :
    forceUnstake .sums p (ws, old) s = .ok (w, new) := by
  obtain ⟨acct, hg⟩ := hb.staker _ _ _ hs
  have hle := balance_add_stake_le hb hg hs
  obtain ⟨_, hw, total, htotal, count, hcount, hnew⟩ := forceUnstake_ok_iff.mp h
  refine forceUnstake_ok_iff.mpr ⟨_, ?_, total, htotal, count, hcount, hnew⟩
  obtain ⟨_, hacct, balance, hbal, psb, hpsb, rfl⟩ | ⟨hnone, -⟩ := returnStake_ok_iff.mp hw
  · cases hg.symm.trans hacct
    exact returnStake_ok_iff.mpr (.inl ⟨acct, hg, balance, Arith.add_exact hbal (by omega), psb, hpsb, rfl⟩)
  · cases hg.symm.trans hnone

theorem forceUnstakeAll_sums (old : Post) {new : Post} {l : List PostStake} (hb : Books ws) (hroom : supply ws < 2 ^ 64)
    (hp : p = old.postID) (hl : ∀ s ∈ l, ws.getPostStake p s.staker = some s) (hnd : (l.map (·.staker)).Nodup)
    (h : l.foldlM (forceUnstake .go p) (ws, old) = .ok (w, new)) :
    l.foldlM (forceUnstake .sums p) (ws, old) = .ok (w, new) := by
  induction l generalizing ws old with
  | nil => exact h
  | cons s l ih =>
    obtain ⟨⟨w₁, mid⟩, hw, hrest⟩ := Except.foldlM_cons_ok_iff.mp h
    have hstep := forceUnstake_sums hb hroom (hl s List.mem_cons_self) hw
    have hone := forceUnstake_effect hb hp (hl s List.mem_cons_self) hstep
    obtain ⟨hl', hnd'⟩ := hone.rest hp hl hnd
    have hsupply : supply w₁ = supply ws := hone.unstaked.holdings rfl fun _ => true
    exact Except.foldlM_cons_ok_iff.mpr ⟨(w₁, mid), hstep,
      ih mid (hb.unstaked (hp ▸ hone.unstaked)) (hsupply ▸ hroom) (hp.trans hone.samePost.1.symm) hl' hnd' hrest⟩

theorem applyUnstakePost_exact (hb : PostBooks E ws) (hroom : supply ws < 2 ^ 64) {sender : Account}
    (hg : ws.getAccount tx.sender = some sender) (hnonce : sender.nonce.toNat + 1 < 2 ^ 64)
    (h : applyUnstakePost .go ord ws tx = .ok ws') : applyUnstakePost .strict ord ws tx = .ok ws' := by
  suffices hsums : applyUnstakePost .sums ord ws tx = .ok ws' from applyUnstakePost_noBorrow hb hsums
  obtain ⟨_, hacct, s, hs, old, hpost, balance, hbal, psb, hpsb, nonce, hn, total, htotal, count, hcount, h⟩ :=
    applyUnstakePost_ok_iff.mp h
  cases hg.symm.trans hacct
  have hid := hb.books.keyed.post _ _ hpost
  have hle := balance_add_stake_le hb.books hg hs
  have hbal' : Arith.sums.add sender.balance s.amount = .ok balance := Arith.add_exact hbal (by omega)
  have hn' : Arith.sums.add sender.nonce 1 = .ok nonce := Arith.add_exact hn hnonce
  refine applyUnstakePost_ok_iff.mpr
    ⟨sender, hg, s, hs, old, hpost, balance, hbal', psb, hpsb, nonce, hn', total, htotal, count, hcount, ?_⟩
  obtain ⟨hauthor, ⟨w, new⟩, hloop, rfl⟩ | hother := h
  · refine .inl ⟨hauthor, (w, new), ?_, rfl⟩
    have hone := takenBack_sender hb.books hg hs hpost hbal' hpsb hn' htotal hcount
    have hw := hb.books.unstaked hone.unstaked
    have hsupply := hone.unstaked.holdings rfl fun _ => true
    rw [holdings_all, holdings_all] at hsupply
    exact forceUnstakeAll_sums { old with totalStaked := total, stakerCount := count, withdrawn := true } hw
      (hsupply ▸ hroom)
      hid.symm (fun s => hw.keyed.getPostStake_stakers) hw.keyed.nodup_stakers hloop
  · exact .inr hother

/-! ### All types -/

/-- What a transaction of a block at `height` needs for its arithmetic to be
exact: its fees within its amount, a nonce that has not come round, for a post
an ID that is free, for a boost by a new staker a number for it, and for an
Unstake a height to be released at. -/
structure TxFits (E : Env) (params : GenesisConfig) (height : UInt64) (e : Applied) : Prop where
  fees : FeesFit params e.tx
  nonce : e.tx.nonce ≠ 0
  post : e.tx.kind = some .createPost → e.before.getPost (derivePostID E e.tx.sender e.tx.nonce) = none
  staker : e.tx.kind = some .boostPost → ∀ post, e.before.getPost e.tx.postID = some post →
    e.before.getPostStake e.tx.postID e.tx.sender = none → post.stakerCount.toNat + 1 < 2 ^ 64
  release : e.tx.kind = some .unstake → height.toNat + params.unbondingPeriod.toNat < 2 ^ 64

theorem nonce_fits {sender : Account} (hne : tx.nonce ≠ 0) (hnext : tx.nonce = sender.nonce + 1) :
    sender.nonce.toNat + 1 < 2 ^ 64 := by
  have hlt := sender.nonce.toNat_lt
  by_contra hge
  have hlast : sender.nonce.toNat + 1 = 2 ^ 64 := by omega
  refine hne (UInt64.toNat_inj.mp ?_)
  show tx.nonce.toNat = 0
  rw [hnext, UInt64.toNat_add, UInt64.toNat_one, hlast, Nat.mod_self]

theorem executeTransaction_exact (hb : PostBooks E ws) (hburned : BurnedCovered ws)
    (hroom : supply ws + ws.burnedSupply.toNat < 2 ^ 64)
    {header : BlockHeader} {i : Nat} (hfits : TxFits E params header.height ⟨ws, tx, ws'⟩)
    (h : executeTransaction E .go params ord header i ws tx = .ok ws') :
    executeTransaction E .strict params ord header i ws tx = .ok ws' := by
  obtain ⟨sender, hg, hnext⟩ := executeTransaction_sender h
  have hnonce := nonce_fits hfits.nonce hnext
  obtain ⟨hv, h⟩ := executeTransaction_ok_iff.mp h
  refine executeTransaction_ok_iff.mpr ⟨hv, ?_⟩
  unfold applyTransaction at h ⊢
  split at h
  · next hk =>
    exact applyTransfer_exact hb.books.keyed (by omega) hg hnonce h
  · next hk =>
    exact applyCreatePost_exact hroom (hfits.fees.post hk) hg hnonce h
  · next hk =>
    exact applyBoostPost_exact hb hburned hroom (hfits.fees.boost hk) (hfits.staker hk) hg hnonce h
  · next hk =>
    exact applyUnstakePost_exact hb (by omega) hg hnonce h
  · next hk =>
    exact applyRegisterName_exact hg hnonce h
  · next hk =>
    exact applyStake_exact (by omega) hg hnonce h
  · next hk =>
    exact applyUnstake_exact (hfits.release hk) hg hnonce h
  · cases h

/-- Nothing less will do. -/
theorem TxFits.of_strict {header : BlockHeader} {i : Nat}
    (hfree : tx.kind = some .createPost → ws.getPost (derivePostID E tx.sender tx.nonce) = none)
    (h : executeTransaction E .strict params ord header i ws tx = .ok ws') :
    TxFits E params header.height ⟨ws, tx, ws'⟩ := by
  obtain ⟨sender, hg, hnext⟩ := executeTransaction_sender h
  obtain ⟨-, h⟩ := executeTransaction_ok_iff.mp h
  have hnonce : tx.nonce ≠ 0 := by
    intro hzero
    obtain ⟨_, nonce, hacct, hn⟩ := applyTransaction_sender h
    cases hg.symm.trans hacct
    have hfit := Arith.strict_add_lt hn
    have hsum := congrArg UInt64.toNat hnext
    rw [hzero, UInt64.toNat_add, UInt64.toNat_zero] at hsum
    rw [UInt64.toNat_one] at hfit hsum
    omega
  have hplain : tx.kind ≠ some .createPost → tx.kind ≠ some .boostPost → FeesFit params tx :=
    fun hc hb => ⟨fun hk => absurd hk hc, fun hk => absurd hk hb⟩
  unfold applyTransaction at h
  cases hk : tx.kind with
  | none =>
    rw [hk] at h
    cases h
  | some kind =>
    rw [hk] at h hplain
    cases kind with
    | transfer | unstakePost | registerName | stake =>
      exact ⟨hplain (by simp) (by simp), hnonce, hfree, by simp [hk], by simp [hk]⟩
    | createPost =>
      obtain ⟨_, -, -, staked, hs, -⟩ := applyCreatePost_ok_iff.mp h
      exact ⟨⟨fun _ => Arith.strict_sub_le hs, by simp [hk]⟩, hnonce, hfree, by simp [hk], by simp [hk]⟩
    | boostPost =>
      obtain ⟨_, -, -, old, hpost, staked, hs, balance, -, psb, -, nonce, -, burned, -, w₁, h₁, w₂, h₂, total, -, onPost,
          -, h⟩ :=
        applyBoostPost_ok_iff.mp h
      simp only [boostStaked, Except.bind_ok_iff] at hs
      obtain ⟨r₁, hr₁, r₂, hr₂, hr₃⟩ := hs
      have hle₁ := Arith.strict_sub_le hr₁
      have hle₂ := Arith.strict_sub_le hr₂
      have hle₃ := Arith.strict_sub_le hr₃
      have hsum₁ := Arith.sub_toNat hr₁ hle₁
      have hsum₂ := Arith.sub_toNat hr₂ hle₂
      have hfees : (burnAmount params tx.amount).toNat + (authorReward params tx.amount).toNat +
          (stakerReward params tx.amount).toNat ≤
          tx.amount.toNat := by omega
      refine ⟨⟨by simp [hk], fun _ => hfees⟩, hnonce, hfree, fun _ post hp hnone => ?_, by simp [hk]⟩
      have hstakes : w₂.postStakes = ws.postStakes := ((payAuthor_frame h₁).trans (payStakers_frame h₂)).postStakes
      have hnone₂ : w₂.getPostStake tx.postID tx.sender = none := by
        rw [WorldState.getPostStake, hstakes]
        exact hnone
      cases hpost.symm.trans hp
      obtain ⟨existing, hsome, -⟩ | ⟨-, count, hc, -⟩ := addBoostStake_ok_iff.mp h
      · cases hnone₂.symm.trans hsome
      · exact Arith.strict_add_lt hc
    | unstake =>
      obtain ⟨_, -, -, staked, -, nonce, -, release, hr, -⟩ := applyUnstake_ok_iff.mp h
      exact ⟨hplain (by simp) (by simp), hnonce, hfree, by simp [hk], fun _ => Arith.strict_add_lt hr⟩

/-- **A transaction's arithmetic is exact exactly where it fits**, if the ID of a
post it creates is free. -/
theorem executeTransaction_exact_iff (hb : PostBooks E ws) (hburned : BurnedCovered ws)
    (hroom : supply ws + ws.burnedSupply.toNat < 2 ^ 64) {header : BlockHeader} {i : Nat}
    (hfree : tx.kind = some .createPost → ws.getPost (derivePostID E tx.sender tx.nonce) = none)
    (h : executeTransaction E .go params ord header i ws tx = .ok ws') :
    executeTransaction E .strict params ord header i ws tx = .ok ws' ↔ TxFits E params header.height ⟨ws, tx, ws'⟩ :=
  ⟨.of_strict hfree, fun hfits => executeTransaction_exact hb hburned hroom hfits h⟩

/-! ### What is burned on posts -/

theorem BurnedCovered.of_posts (hc : BurnedCovered ws) (hposts : ws'.posts = ws.posts)
    (hle : ws.burnedSupply.toNat ≤ ws'.burnedSupply.toNat) : BurnedCovered ws' := by
  intro p post hp
  rw [WorldState.getPost, hposts] at hp
  exact (hc p post hp).trans hle

theorem BurnedCovered.setPost (hc : BurnedCovered ws) (hpost : post.totalBurned.toNat ≤ ws.burnedSupply.toNat) :
    BurnedCovered (ws.setPost post) := by
  intro p post' hp
  by_cases hq : p = post.postID
  · rw [hq, WorldState.getPost_setPost_self] at hp
    cases hp
    exact hpost
  · rw [WorldState.getPost_setPost_ne hq] at hp
    exact hc p post' hp

theorem applyCreatePost_covered {time : Int64} (hc : BurnedCovered ws)
    (h : applyCreatePost E .strict params ws tx height time = .ok ws') :
    BurnedCovered ws' := by
  obtain ⟨author, -, -, staked, -, nonce, -, balance, -, psb, -, burned, hburned, rfl⟩ := applyCreatePost_ok_iff.mp h
  have hsum := Arith.add_toNat hburned rfl
  intro p post hp
  rcases eq_or_ne p (derivePostID E tx.sender nonce) with rfl | hne
  · cases WorldState.getPost_setPost_self.symm.trans hp
    show (postFee params tx.amount).toNat ≤ burned.toNat
    omega
  · have hold := hc p post ((WorldState.getPost_setPost_ne hne).symm.trans hp)
    show post.totalBurned.toNat ≤ burned.toNat
    omega

theorem creditAccount_burned (h : creditAccount .strict ws a n = .ok ws') : ws'.burnedSupply = ws.burnedSupply := by
  obtain ⟨acct, -, balance, -, rfl⟩ | ⟨-, rfl⟩ := creditAccount_ok_iff.mp h
  · rfl
  · rfl

theorem payAuthor_burned (h : payAuthor .strict ws a n = .ok ws') : ws'.burnedSupply = ws.burnedSupply :=
  payAuthor_inv (·.burnedSupply = ws.burnedSupply) (fun hw hc => (creditAccount_burned hc).trans hw) rfl h

theorem payStakers_burned (h : payStakers .strict ord ws post p n = .ok ws') : ws'.burnedSupply = ws.burnedSupply :=
  payStakers_inv (·.burnedSupply = ws.burnedSupply) (fun hw hc => (creditAccount_burned hc).trans hw) rfl h

theorem addBoostStake_covered {st : UInt64} (hc : BurnedCovered ws)
    (hpost : post.totalBurned.toNat ≤ ws.burnedSupply.toNat)
    (h : addBoostStake .strict ws post tx st height = .ok ws') : BurnedCovered ws' := by
  obtain ⟨existing, -, amount, -, rfl⟩ | ⟨-, count, -, rfl⟩ := addBoostStake_ok_iff.mp h
  · exact BurnedCovered.setPost (hc.of_posts rfl (Nat.le_refl _)) hpost
  · exact BurnedCovered.setPost (hc.of_posts rfl (Nat.le_refl _)) hpost

theorem applyBoostPost_covered (hc : BurnedCovered ws) (h : applyBoostPost .strict params ord ws tx height = .ok ws') :
    BurnedCovered ws' := by
  obtain ⟨booster, -, -, post, hpost, staked, -, balance, -, psb, -, nonce, -, burned, hburned, w₁, h₁, w₂, h₂, total,
    -, onPost, honPost, h⟩ := applyBoostPost_ok_iff.mp h
  have hframe := (payAuthor_frame h₁).trans (payStakers_frame h₂)
  have hburned₂ : w₂.burnedSupply = burned := (payStakers_burned h₂).trans (payAuthor_burned h₁)
  have hold := hc _ post hpost
  have hsum : burned.toNat = ws.burnedSupply.toNat + (burnAmount params tx.amount).toNat := Arith.add_toNat hburned rfl
  have hon := Arith.add_toNat honPost rfl
  refine addBoostStake_covered (hc.of_posts hframe.posts ?_) ?_ h
  · rw [hburned₂]
    omega
  · show onPost.toNat ≤ w₂.burnedSupply.toNat
    rw [hburned₂]
    omega

theorem applyUnstakePost_covered (hc : BurnedCovered ws) (hburned : ws'.burnedSupply = ws.burnedSupply)
    (h : applyUnstakePost .strict ord ws tx = .ok ws') : BurnedCovered ws' := by
  obtain ⟨sender, -, stake, -, post, hpost, balance, -, psb, -, nonce, -, total, -, count, -, h⟩ :=
    applyUnstakePost_ok_iff.mp h
  have hold := hc _ post hpost
  obtain ⟨-, ⟨w, new⟩, hloop, rfl⟩ | ⟨-, rfl⟩ := h
  · obtain ⟨hposts, hnew⟩ := forceUnstakes_post hloop
    have hb : w.burnedSupply = ws.burnedSupply := hburned
    refine (hc.of_posts hposts (hb ▸ Nat.le_refl _)).setPost ?_
    rw [hb, show new = _ from hnew]
    exact hold
  · exact BurnedCovered.setPost (hc.of_posts rfl (Nat.le_refl _)) hold

theorem executeTransaction_covered (hb : Books ws) (hf : FeesFit params tx) (hc : BurnedCovered ws) {header : BlockHeader}
    {i : Nat}
    (h : executeTransaction E .strict params ord header i ws tx = .ok ws') : BurnedCovered ws' := by
  have heff := hf.effect rfl hb h
  obtain ⟨-, h⟩ := executeTransaction_ok_iff.mp h
  cases heff with
  | plain _ kind kept counters =>
    refine hc.of_posts kept.posts ?_
    rw [(Prod.mk.inj counters).1]
  | create _ _ _ kind =>
    rw [applyTransaction, kind] at h
    exact applyCreatePost_covered hc h
  | boost _ _ _ _ kind =>
    rw [applyTransaction, kind] at h
    exact applyBoostPost_covered hc h
  | unstake _ _ _ kind effect =>
    rw [applyTransaction, kind] at h
    refine applyUnstakePost_covered hc ?_ h
    rw [effect.result]
    exact (Prod.mk.inj effect.unstaked.counters).1

/-! ## Blocks -/

/-- The books, with room for `r` coins more to be issued. -/
structure Bounded (E : Env) (r : Nat) (ws : WorldState) : Prop where
  books : PostBooks E ws
  onPosts : BurnedCovered ws
  room : supply ws + ws.burnedSupply.toNat + r < 2 ^ 64
  issued : ws.issuedSupply.toNat + r < 2 ^ 64

/-- The penalties of a block's evidence fit, one after the other. -/
def EvidenceFits (E : Env) (params : GenesisConfig) : WorldState → List SlashEvidence → Prop
  | _, [] => True
  | ws, ev :: evs =>
    PenaltyFits E params ws ev ∧
    match applySlashEvidence E .go params ws ev with
    | .ok ws' => EvidenceFits E params ws' evs
    | .error _ => True

/-- All evidence fits where the fraction is a percentage. -/
theorem EvidenceFits.of_fraction (hf : params.slashFractionDoubleSign.toNat ≤ 100) {evs : List SlashEvidence} :
    EvidenceFits E params ws evs := by
  induction evs generalizing ws with
  | nil => trivial
  | cons ev evs ih =>
    refine ⟨.of_fraction hf, ?_⟩
    split
    · exact ih
    · trivial

/-- What a block needs for its arithmetic to be exact: that its evidence and
its transactions fit, each in the state it comes to. -/
def BlockFits (E : Env) (params : GenesisConfig) (ws : WorldState) (b : (Nat → RangeOrder) × Block) : Prop :=
  (∀ w, releaseMatured .go ws b.2.header.height = .ok w → EvidenceFits E params w b.2.evidence) ∧
  ∀ e ∈ appliedInBlock E .go params b.1 ws b.2, TxFits E params b.2.header.height e

namespace Bounded

variable {r r' : Nat}

theorem kept (h : Bounded E r ws) (hkept : StakesKept ws ws') (hburned : ws.burnedSupply.toNat ≤ ws'.burnedSupply.toNat)
    (hroom : supply ws' + ws'.burnedSupply.toNat + r' ≤ supply ws + ws.burnedSupply.toNat + r)
    (hissued : ws'.issuedSupply.toNat + r' ≤ ws.issuedSupply.toNat + r) : Bounded E r' ws' :=
  ⟨h.books.kept hkept, h.onPosts.of_posts hkept.posts hburned, hroom.trans_lt h.room, hissued.trans_lt h.issued⟩

theorem released (h : Bounded E r ws) (hr : releaseMatured .go ws height = .ok ws') :
    releaseMatured .strict ws height = .ok ws' ∧ Bounded E r ws' := by
  have hroom := h.room
  have hexact := releaseMatured_exact h.books.books.keyed (by omega) hr
  obtain ⟨hkept, hc, hsupply⟩ := releaseMatured_effect (S := fun _ => true) rfl h.books.books.keyed hexact
  obtain ⟨hburned, hissued⟩ := Prod.mk.inj hc
  rw [holdings_all, holdings_all] at hsupply
  exact ⟨hexact, h.kept hkept (by rw [hburned]) (by rw [hsupply, hburned]) (by rw [hissued])⟩

theorem slashed (h : Bounded E r ws) {ev : SlashEvidence} (hfits : PenaltyFits E params ws ev)
    (hs : applySlashEvidence E .go params ws ev = .ok ws') :
    applySlashEvidence E .strict params ws ev = .ok ws' ∧ Bounded E r ws' := by
  have hroom := h.room
  obtain ⟨hexact, hsupply, hburned⟩ := applySlashEvidence_exact h.books.books.keyed hfits (by omega) hs
  obtain ⟨hkept, hissued⟩ := applySlashEvidence_kept h.books.books.keyed hexact
  exact ⟨hexact, h.kept hkept hburned (by rw [hsupply]) (by rw [hissued])⟩

theorem allSlashed {evs : List SlashEvidence} (h : Bounded E r ws) (hfits : EvidenceFits E params ws evs)
    (hs : processEvidence E .go params ws evs = .ok ws') :
    processEvidence E .strict params ws evs = .ok ws' ∧ Bounded E r ws' := by
  induction evs generalizing ws with
  | nil =>
    cases hs
    exact ⟨rfl, h⟩
  | cons ev evs ih =>
    obtain ⟨w, hw, hrest⟩ := Except.foldlM_cons_ok_iff.mp hs
    obtain ⟨hpenalty, hfits⟩ := hfits
    rw [hw] at hfits
    obtain ⟨hone, hb⟩ := h.slashed hpenalty hw
    obtain ⟨hall, hb'⟩ := ih hb hfits hrest
    exact ⟨Except.foldlM_cons_ok_iff.mpr ⟨w, hone, hall⟩, hb'⟩

theorem executed (h : Bounded E r ws) {header : BlockHeader} {i : Nat}
    (hfits : TxFits E params header.height ⟨ws, tx, ws'⟩)
    (hx : executeTransaction E .go params ord header i ws tx = .ok ws') :
    executeTransaction E .strict params ord header i ws tx = .ok ws' ∧ Bounded E r ws' := by
  have hroom := h.room
  have hfees : FeesFit params tx := hfits.fees
  have hexact := (executeTransaction_exact_iff h.books h.onPosts (by omega) hfits.post hx).mpr hfits
  have heffect := hfees.effect rfl h.books.books hexact
  obtain ⟨hsupply, hissued⟩ := heffect.supply rfl
  have hpaid : rewardPaid params ⟨ws, tx, ws'⟩ ≤ rewardDue params ⟨ws, tx, ws'⟩ := by
    unfold rewardPaid rewardDue
    split
    · cases hp : ws.getPost tx.postID with
      | none => exact Nat.zero_le _
      | some post => exact sharesPaid_le h.books hp
    · exact Nat.le_refl _
  have hbooks := h.books.next rfl hfees hexact fun hkind sender post s effect => by
    obtain ⟨acct, hg, hnext⟩ := executeTransaction_sender hexact
    obtain ⟨sender', -, hnonce, hid⟩ := effect.next
    cases hg.symm.trans effect.found
    have hsame : sender'.nonce = tx.nonce := by
      refine UInt64.toNat_inj.mp ?_
      have hlt := sender'.nonce.toNat_lt
      rw [hnext, UInt64.toNat_add, UInt64.toNat_one, Nat.mod_eq_of_lt (by omega), hnonce]
    rw [hid, hsame]
    exact hfits.post hkind
  refine ⟨hexact, hbooks, executeTransaction_covered h.books.books hfees h.onPosts hexact, by omega, ?_⟩
  rw [hissued]
  exact h.issued

theorem allExecuted {ord : Nat → RangeOrder} {header : BlockHeader} {i : Nat} {txs : List Transaction}
    (h : Bounded E r ws)
    (hfits : ∀ e ∈ appliedTransactions E .go params ord header i ws txs, TxFits E params header.height e)
    (hx : executeTransactions E .go params ord header i ws txs = .ok ws') :
    executeTransactions E .strict params ord header i ws txs = .ok ws' ∧ Bounded E r ws' := by
  induction txs generalizing i ws with
  | nil =>
    cases hx
    exact ⟨rfl, h⟩
  | cons tx txs ih =>
    simp only [executeTransactions, Except.bind_ok_iff] at hx ⊢
    obtain ⟨w, hw, hrest⟩ := hx
    simp only [appliedTransactions, hw, List.mem_cons, forall_eq_or_imp] at hfits
    obtain ⟨hone, hb⟩ := h.executed hfits.1 hw
    obtain ⟨hall, hb'⟩ := ih hb hfits.2 hrest
    exact ⟨⟨w, hone, hall⟩, hb'⟩

theorem rewarded (h : Bounded E (r + params.blockReward.toNat) ws) (hr : issueReward .go params ws a = .ok ws') :
    issueReward .strict params ws a = .ok ws' ∧ Bounded E r ws' := by
  have hroom := h.room
  have hissued := h.issued
  have hexact : issueReward .strict params ws a = .ok ws' := by
    unfold issueReward at hr ⊢
    split at hr
    · next hpos =>
      rw [if_pos hpos]
      simp only [Except.bind_ok_iff, Except.pure_ok_iff] at hr ⊢
      obtain ⟨w, hw, issued, hi, rfl⟩ := hr
      have hdeposit := depositAccount_exact (by omega) hw
      have hc := Prod.mk.inj (depositAccount_kept h.books.books.keyed hdeposit).2
      refine ⟨w, hdeposit, issued, Arith.add_exact hi ?_, rfl⟩
      rw [hc.2]
      omega
    · next hzero =>
      rw [if_neg hzero]
      exact hr
  obtain ⟨hkept, hsupply, hmore, hburned⟩ := issueReward_effect (S := fun _ => true) rfl h.books.books.keyed hexact
  rw [holdings_all, holdings_all, within, if_pos rfl] at hsupply
  exact ⟨hexact, h.kept hkept (by rw [hburned]) (by rw [hsupply, hburned]; omega) (by rw [hmore]; omega)⟩

theorem block {b : (Nat → RangeOrder) × Block} (h : Bounded E (r + params.blockReward.toNat) ws)
    (hfits : BlockFits E params ws b)
    (hx : applyBlock E .go params b.1 ws b.2 = .ok ws') : applyBlock E .strict params b.1 ws b.2 = .ok ws' ∧
    Bounded E r ws' := by
  obtain ⟨hevidence, htxs⟩ := hfits
  unfold appliedInBlock beforeTransactions at htxs
  simp only [applyBlock, Except.bind_ok_iff, Except.pure_ok_iff] at hx ⊢
  obtain ⟨w₁, h₁, w₂, h₂, w₃, h₃, w₄, h₄, rfl⟩ := hx
  simp only [h₁, h₂, Except.ok_bind] at htxs
  obtain ⟨h₁', hb₁⟩ := h.released h₁
  obtain ⟨h₂', hb₂⟩ := hb₁.allSlashed (hevidence w₁ h₁) h₂
  obtain ⟨h₃', hb₃⟩ := hb₂.allExecuted htxs h₃
  obtain ⟨h₄', hb₄⟩ := hb₃.rewarded h₄
  have hepoch : Bounded E r (epochTransition params (b.1 b.2.transactions.length) w₄ b.2.header.height) := by
    refine hb₄.kept epochTransition_kept ?_ ?_ ?_ <;> unfold epochTransition <;> split <;> exact Nat.le_refl _
  exact ⟨⟨w₁, h₁', w₂, h₂', w₃, h₃', w₄, h₄', rfl⟩,
    hepoch.kept (.of_eq rfl rfl rfl) (Nat.le_refl _) (Nat.le_refl _) (Nat.le_refl _)⟩

/-- A genesis state has burned and issued nothing. -/
theorem genesis (h₀ : initializeState E params = .ok ws) (hroom : supply ws + r < 2 ^ 64) : Bounded E r ws := by
  obtain ⟨hfresh, hburned, hissued⟩ := initializeState_fresh h₀
  refine ⟨hfresh.postBooks, fun p post hp => ?_, ?_, ?_⟩
  · simp [WorldState.getPost, hfresh.posts] at hp
  · rw [hburned, UInt64.toNat_zero]
    omega
  · rw [hissued, UInt64.toNat_zero]
    omega

/-- **A run that fits is exact to its end.** -/
theorem run {bs : List ((Nat → RangeOrder) × Block)} (h : Bounded E (bs.length * params.blockReward.toNat) ws)
    (hfits : Throughout E .go params (BlockFits E params) ws bs) (hx : applyBlocks E .go params ws bs = .ok ws') :
    applyBlocks E .strict params ws bs = .ok ws' := by
  induction bs generalizing ws with
  | nil => exact hx
  | cons b bs ih =>
    obtain ⟨w, hw, hrest⟩ := applyBlocks_cons_ok_iff.mp hx
    obtain ⟨hone, hfits⟩ := hfits
    rw [hw] at hfits
    rw [List.length_cons, Nat.succ_mul] at h
    obtain ⟨hexact, hb⟩ := h.block hone hw
    exact applyBlocks_cons_ok_iff.mpr ⟨w, hexact, ih hb hfits hrest⟩

end Bounded

/-! ## Runs -/

/-- The two results `ValidateTransaction` computes are exact: the nonce it
expects, and what would stay staked. -/
def ValidatesExactly (e : Applied) : Prop :=
  ∃ sender, e.before.getAccount e.tx.sender = some sender ∧ sender.nonce.toNat + 1 < 2 ^ 64 ∧
    (e.tx.kind = some .unstake → e.tx.amount.toNat ≤ sender.stakedBalance.toNat)

theorem executeTransaction_validates {header : BlockHeader} {i : Nat} (hne : tx.nonce ≠ 0)
    (h : executeTransaction E .go params ord header i ws tx = .ok ws') : ValidatesExactly ⟨ws, tx, ws'⟩ := by
  obtain ⟨sender, hg, hnext⟩ := executeTransaction_sender h
  refine ⟨sender, hg, nonce_fits hne hnext, fun hkind => ?_⟩
  obtain ⟨-, h⟩ := executeTransaction_ok_iff.mp h
  change tx.kind = some .unstake at hkind
  simp only [applyTransaction, hkind, applyUnstake, hg, orThrow, Except.ok_bind, Except.bind_ok_iff,
    Except.throwIf_ok_iff] at h
  obtain ⟨-, hle, -⟩ := h
  exact le_of_not_lt hle

theorem keeps_validates : Keeps E .go params fun log _ => ∀ e ∈ log, e.tx.nonce ≠ 0 → ValidatesExactly e where
  release hP _ := hP
  slash hP _ := hP
  tx hP h := by
    intro e he hne
    rcases List.mem_append.mp he with he | he
    · exact hP e he hne
    · cases List.mem_singleton.mp he
      exact executeTransaction_validates hne h
  reward hP _ := hP
  epoch hP := hP
  height hP := hP

theorem Throughout.txFits {bs : List ((Nat → RangeOrder) × Block)}
    (h : Throughout E .go params (BlockFits E params) ws bs) :
    ∀ e ∈ appliedInRun E .go params ws bs, ∃ height, TxFits E params height e := by
  induction bs generalizing ws with
  | nil => exact fun _ he => absurd he List.not_mem_nil
  | cons b bs ih =>
    intro e he
    obtain ⟨hone, hrest⟩ := h
    unfold appliedInRun at he
    split at he
    · next w hw =>
      rw [hw] at hrest
      rcases List.mem_append.mp he with he | he
      · exact ⟨_, hone.2 e he⟩
      · exact ih hrest e he
    · cases he

/-- **A run that fits is exact.** From genesis on, while the genesis supply
and all that is issued stay below 2^64. -/
theorem arithmetic_exact {cfg : GenesisConfig} {ws₀ : WorldState} {bs : List ((Nat → RangeOrder) × Block)}
    (h₀ : initializeState E cfg = .ok ws₀) (hroom : supply ws₀ + bs.length * cfg.blockReward.toNat < 2 ^ 64)
    (hfits : Throughout E .go cfg (BlockFits E cfg) ws₀ bs) (h : applyBlocks E .go cfg ws₀ bs = .ok ws) :
    applyBlocks E .strict cfg ws₀ bs = .ok ws ∧ ∀ e ∈ appliedInRun E .go cfg ws₀ bs, ValidatesExactly e := by
  refine ⟨(Bounded.genesis h₀ hroom).run hfits h, fun e he => ?_⟩
  obtain ⟨height, hfit⟩ := hfits.txFits e he
  exact keeps_validates.fromStart (fun _ h => absurd h List.not_mem_nil) h e he hfit.nonce

section

open Sample

instance : Decidable (FeesFit params tx) := decidable_of_iff (_ ∧ _) ⟨fun h => ⟨h.1, h.2⟩, fun h => ⟨h.post, h.boost⟩⟩

instance {e : Applied} : Decidable (e.tx.kind = some .boostPost → ∀ post, e.before.getPost e.tx.postID = some post →
    e.before.getPostStake e.tx.postID e.tx.sender = none → post.stakerCount.toNat + 1 < 2 ^ 64) :=
  inferInstanceAs (Decidable (_ → ∀ post ∈ e.before.getPost e.tx.postID, _))

instance {e : Applied} : Decidable (TxFits E params height e) :=
  decidable_of_iff (_ ∧ _ ∧ _ ∧ _ ∧ _)
    ⟨fun ⟨h₁, h₂, h₃, h₄, h₅⟩ => ⟨h₁, h₂, h₃, h₄, h₅⟩, fun ⟨h₁, h₂, h₃, h₄, h₅⟩ => ⟨h₁, h₂, h₃, h₄, h₅⟩⟩

/-- A post and a boost of it fit. -/
theorem arithmetic_exact_oneStaker : ∃ ws, applyBlocks env .strict config genesis oneStaker = .ok ws := by
  have hrun : (applyBlocks env .go config genesis oneStaker).isOk = true ∧ supply genesis = 3000 ∧
      ∀ e ∈ appliedInBlock env .go config (fun _ => order) genesis
        (block 1 [createPost 1 100 1, boostPost 2 firstPost 100 1]).2,
        TxFits env config 1 e := by decide +kernel
  obtain ⟨hok, hsupply, hfits⟩ := hrun
  have hall : Throughout env .go config (BlockFits env config) genesis oneStaker := by
    refine ⟨⟨fun _ _ => .of_fraction (by decide), hfits⟩, ?_⟩
    split <;> trivial
  exact ⟨_, (arithmetic_exact genesis_ok (by rw [hsupply]; decide) hall (Except.ok_value hok)).1⟩

/-- A file with a post fee of twice the amount. -/
def costly : GenesisJson :=
  { listing [1] [] with maxPostLength := 280, maxPostBytes := 1024, postFeePercent := 200 }

def costlyConfig : GenesisConfig :=
  { listed [1] [] with maxPostLength := 280, maxPostBytes := 1024, postFeePercent := 200 }

theorem loadGenesis_costly :
    loadGenesis env (fun _ => .ok []) (fun _ => .ok costly) "genesis.json" = .ok costlyConfig := by
  have hgranted : ([1].map address).Nodup := List.nodup_singleton _
  simp only [loadGenesis, wrapErr, Except.ok_bind, costly, listing_accounts hgranted (fun _ _ => List.not_mem_nil),
    listing_validators]
  rfl

/-- The file is accepted, and so is a post of 100, whose stake is 100 - 200. -/
theorem arithmetic_wraps_costly : ∃ ws₀ ws,
    loadGenesis env (fun _ => .ok []) (fun _ => .ok costly) "genesis.json" = .ok costlyConfig ∧
    initializeState env costlyConfig = .ok ws₀ ∧
    applyBlocks env .go costlyConfig ws₀ [block 1 [createPost 1 100 1]] = .ok ws ∧
    supply ws₀ + 1 * costlyConfig.blockReward.toNat < 2 ^ 64 ∧
    applyBlocks env .strict costlyConfig ws₀ [block 1 [createPost 1 100 1]] ≠ .ok ws := by
  have hrun : (initializeState env costlyConfig).isOk = true ∧
      (applyBlocks env .go costlyConfig (initializeState env costlyConfig).value
        [block 1 [createPost 1 100 1]]).isOk = true ∧
      supply (initializeState env costlyConfig).value + 1 * costlyConfig.blockReward.toNat < 2 ^ 64 ∧
      (applyBlocks env .strict costlyConfig (initializeState env costlyConfig).value
        [block 1 [createPost 1 100 1]]).isOk = false := by
    decide +kernel
  obtain ⟨hinit, hgo, hroom, hstrict⟩ := hrun
  refine ⟨_, _, loadGenesis_costly, Except.ok_value hinit, Except.ok_value hgo, hroom, fun h => ?_⟩
  rw [h] at hstrict
  cases hstrict

end

end Drana
