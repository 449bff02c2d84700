/-
What each operation does to the holdings of a set of addresses, when no sum
wraps, and that it keeps the books.
-/
import Drana.Stakes

namespace Drana

variable {E : Env} {ar : Arith} {params : GenesisConfig} {S : Address → Bool} {ws ws' : WorldState}
  {a : Address} {n : UInt64} {tx : Transaction} {ord : RangeOrder}

theorem le_of_not_lt {x y : UInt64} (h : ¬ x < y) : y.toNat ≤ x.toNat := by
  rw [UInt64.lt_iff_toNat_lt] at h
  omega

/-! ## Deposits and credits -/

theorem depositAccount_kept (hk : Keyed ws) (h : depositAccount ar ws a n = .ok ws') :
    StakesKept ws ws' ∧ counters ws' = counters ws := by
  obtain ⟨b, -, rfl⟩ := depositAccount_ok_iff.mp h
  refine ⟨.setAccount (fun old hold => ?_) fun hnone => ?_, rfl⟩
  · simp only [hk.address_getD] at hold
    simp [hold]
  · simp only [hk.address_getD] at hnone
    simp [hnone]

theorem depositAccount_holdings (htrap : ar.trapAdd = true) (hk : Keyed ws)
    (h : depositAccount ar ws a n = .ok ws') : holdings S ws' = holdings S ws + within S a n.toNat := by
  obtain ⟨b, hb, rfl⟩ := depositAccount_ok_iff.mp h
  refine holdings_gain hk.address_getD ?_
  rw [← value_getD]
  simp only [Account.value, Arith.add_toNat hb htrap]
  omega

theorem depositAll (htrap : ar.trapAdd = true) {l : List UnbondingEntry} (hk : Keyed ws)
    (h : l.foldlM (fun ws e => depositAccount ar ws e.address e.amount) ws = .ok ws') :
    StakesKept ws ws' ∧ counters ws' = counters ws ∧ holdings S ws' = holdings S ws + queued S l := by
  induction l generalizing ws with
  | nil =>
    rw [Except.foldlM_nil_ok_iff] at h
    subst h
    exact ⟨.refl, rfl, rfl⟩
  | cons e l ih =>
    obtain ⟨w, hw, hrest⟩ := Except.foldlM_cons_ok_iff.mp h
    obtain ⟨hkept, hc⟩ := depositAccount_kept hk hw
    obtain ⟨hkept', hc', heq⟩ := ih (hkept.keyed hk) hrest
    refine ⟨hkept.trans hkept', hc'.trans hc, ?_⟩
    rw [heq, depositAccount_holdings htrap hk hw]
    simp only [queued, List.map_cons, List.sum_cons]
    omega

theorem queued_filter_add (f : UnbondingEntry → Bool) (q : List UnbondingEntry) :
    queued S (q.filter f) + queued S (q.filter fun e => ! f e) = queued S q := by
  induction q with
  | nil => rfl
  | cons e q ih =>
    simp only [queued, List.filter_cons, List.map_cons, List.sum_cons] at ih ⊢
    cases f e <;> simp <;> omega

/-- A release moves what has matured from the queue into the balances. -/
theorem releaseMatured_effect (htrap : ar.trapAdd = true) {height : UInt64} (hk : Keyed ws)
    (h : releaseMatured ar ws height = .ok ws') :
    StakesKept ws ws' ∧ counters ws' = counters ws ∧ holdings S ws' = holdings S ws := by
  have hkept : StakesKept ws (ws.removeMaturedUnbonding height).2 := .of_eq rfl rfl rfl
  obtain ⟨hkept', hc, heq⟩ := depositAll (S := S) htrap (hkept.keyed hk) h
  refine ⟨hkept.trans hkept', hc, ?_⟩
  have hq := queued_filter_add (S := S) (fun e => e.releaseHeight ≤ height) ws.unbondingQueue
  rw [heq]
  simp only [holdings, WorldState.removeMaturedUnbonding, decide_not] at hq ⊢
  omega

/-- The block reward is all that is issued. -/
theorem issueReward_effect (htrap : ar.trapAdd = true) (hk : Keyed ws)
    (h : issueReward ar params ws a = .ok ws') :
    StakesKept ws ws' ∧ holdings S ws' = holdings S ws + within S a params.blockReward.toNat ∧
      ws'.issuedSupply.toNat = ws.issuedSupply.toNat + params.blockReward.toNat ∧
      ws'.burnedSupply = ws.burnedSupply := by
  obtain ⟨-, w, hw, i, hi, rfl⟩ | ⟨h₀, rfl⟩ := issueReward_ok_iff.mp h
  · obtain ⟨hkept, hc⟩ := depositAccount_kept hk hw
    have hc' := Prod.mk.inj hc
    have heq := depositAccount_holdings (S := S) htrap hk hw
    refine ⟨hkept.trans (.of_eq rfl rfl rfl), heq, ?_, hc'.1⟩
    rw [Arith.add_toNat hi htrap, hc'.2]
  · exact ⟨.refl, by simp [h₀], by simp [h₀], rfl⟩

/-! ## Slashing -/

theorem unbondingBalanceFor_toNat (htrap : ar.trapAdd = true) (h : ws.unbondingBalanceFor ar a = .ok n) :
    n.toNat = queued (· = a) ws.unbondingQueue := by
  have hloop : ∀ (q : List UnbondingEntry) (t r : UInt64),
      q.foldlM (fun total e => if e.address = a then ar.add total e.amount else .ok total) t = .ok r →
        r.toNat = t.toNat + queued (· = a) q := by
    intro q
    induction q with
    | nil =>
      intro t r hr
      rw [Except.foldlM_nil_ok_iff] at hr
      subst hr
      rfl
    | cons e q ih =>
      intro t r hr
      obtain ⟨t', ht', hrest⟩ := Except.foldlM_cons_ok_iff.mp hr
      rw [ih t' r hrest]
      simp only [queued, within, List.map_cons, List.sum_cons]
      split at ht'
      · next he =>
        rw [Arith.add_toNat ht' htrap]
        simp only [he, decide_true, if_true]
        omega
      · next he =>
        cases ht'
        simp [he]
  have := hloop _ _ _ h
  simpa using this

/-- The queue loses what is taken from it, and only from entries of `a`. -/
theorem slashEntries_queued {es es' : List UnbondingEntry} (hle : n.toNat ≤ queued (· = a) es)
    (h : WorldState.slashEntries ar a n es = .ok es') : queued S es' + within S a n.toNat = queued S es := by
  induction es generalizing n es' with
  | nil =>
    have hn : n.toNat = 0 := Nat.le_zero.mp hle
    cases h
    simp [hn]
  | cons e es ih =>
    unfold WorldState.slashEntries at h
    simp only [queued, within, List.map_cons, List.sum_cons] at hle ih ⊢
    split at h
    · next hn =>
      subst hn
      cases h
      simp
    split at h
    · next he =>
      simp only [he, decide_true, if_true] at hle
      split at h
      · next hle' =>
        rw [UInt64.le_iff_toNat_le] at hle'
        simp only [Except.bind_ok_iff, Except.pure_ok_iff] at h
        obtain ⟨r, hr, es₁, hes₁, rfl⟩ := h
        have hr' := Arith.sub_toNat hr hle'
        have := ih (n := r) (by omega) hes₁
        simp only [List.map_cons, List.sum_cons, he, UInt64.toNat_zero]
        split
        · next hS =>
          rw [if_pos hS] at this
          omega
        · next hS =>
          rw [if_neg hS] at this
          omega
      · next hlt =>
        rw [UInt64.le_iff_toNat_le] at hlt
        simp only [Except.bind_ok_iff, Except.pure_ok_iff] at h
        obtain ⟨r, hr, rfl⟩ := h
        have hr' := Arith.sub_toNat hr (by omega)
        simp only [List.map_cons, List.sum_cons, he]
        split <;> omega
    · next he =>
      simp only [he, decide_false, Bool.false_eq_true, if_false, Nat.zero_add] at hle
      simp only [Except.bind_ok_iff, Except.pure_ok_iff] at h
      obtain ⟨es₁, hes₁, rfl⟩ := h
      have := ih hle hes₁
      simp only [List.map_cons, List.sum_cons]
      omega

theorem queued_filter_pos (q : List UnbondingEntry) :
    queued S (q.filter fun e => e.amount > 0) = queued S q := by
  have h := queued_filter_add (S := S) (fun e => e.amount > 0) q
  have h₀ : queued S (q.filter fun e => ! decide (e.amount > 0)) = 0 := by
    refine List.sum_eq_zero fun x hx => ?_
    simp only [List.mem_map, List.mem_filter, Bool.not_eq_true', decide_eq_false_iff_not, gt_iff_lt,
      UInt64.lt_iff_toNat_lt] at hx
    obtain ⟨e, ⟨-, he⟩, rfl⟩ := hx
    have : e.amount.toNat = 0 := by simpa using he
    simp [this]
  omega

/-- The penalty is at most what is at risk. -/
theorem slashAmount_le (hf : params.slashFractionDoubleSign.toNat ≤ 100) (hn : n ≠ 0) :
    (slashAmount params n).toNat ≤ n.toNat := by
  have hpos : 0 < n.toNat := by
    rcases Nat.eq_zero_or_pos n.toNat with h | h
    · exact absurd (UInt64.toNat_inj.mp h) hn
    · exact h
  simp only [slashAmount]
  split
  · exact hpos
  · rw [mulDiv_toNat_of_le (by decide) (by simpa using hf)]
    refine Nat.div_le_of_le_mul ?_
    rw [Nat.mul_comm]
    exact Nat.mul_le_mul_right _ (by simpa using hf)

theorem slashRest_kept (h : slashRest ar ws a n = .ok ws') : StakesKept ws ws' ∧ counters ws' = counters ws := by
  obtain ⟨-, q, -, rfl⟩ | ⟨-, rfl⟩ := slashRest_ok_iff.mp h
  · exact ⟨.of_eq rfl rfl rfl, rfl⟩
  · exact ⟨.refl, rfl⟩

theorem slashRest_holdings (hle : n.toNat ≤ queued (· = a) ws.unbondingQueue)
    (h : slashRest ar ws a n = .ok ws') : holdings S ws' + within S a n.toNat = holdings S ws := by
  obtain ⟨-, q, hq, rfl⟩ | ⟨rfl, rfl⟩ := slashRest_ok_iff.mp h
  · have := slashEntries_queued (S := S) hle hq
    simp only [holdings, queued_filter_pos]
    omega
  · simp

theorem slashAccount_kept (hk : Keyed ws) {acct : Account} (hg : ws.getAccount a = some acct)
    {height totalAtRisk : UInt64} (h : slashAccount ar params ws a height acct totalAtRisk = .ok ws') :
    StakesKept ws ws' ∧ ws'.issuedSupply = ws.issuedSupply := by
  obtain ⟨staked, -, remaining, -, w, hw, burned, -, rfl⟩ := slashAccount_ok_iff.mp h
  obtain ⟨hrest, hc⟩ := slashRest_kept hw
  have hset : StakesKept ws (ws.setAccount { acct with stakedBalance := staked }) :=
    .update hg (hk.account a acct hg) rfl (Nat.le_refl _)
  exact ⟨(hset.trans hrest).trans (.of_eq rfl rfl rfl), (Prod.mk.inj hc).2⟩

/-- A penalty comes out of what the account has at risk, and is burned. -/
theorem slashAccount_holdings (htrap : ar.trapAdd = true) (hk : Keyed ws) {acct : Account}
    (hg : ws.getAccount a = some acct) {height totalAtRisk : UInt64}
    (hle : (slashAmount params totalAtRisk).toNat ≤
      acct.stakedBalance.toNat + queued (· = a) ws.unbondingQueue)
    (h : slashAccount ar params ws a height acct totalAtRisk = .ok ws') :
    ws'.burnedSupply.toNat = ws.burnedSupply.toNat + (slashAmount params totalAtRisk).toNat ∧
      holdings S ws' + within S a (slashAmount params totalAtRisk).toNat = holdings S ws := by
  rw [slashAccount_ok_iff] at h
  generalize slashAmount params totalAtRisk = amount at h hle ⊢
  obtain ⟨staked, hstaked, remaining, hremaining, w, hw, burned, hburned, rfl⟩ := h
  generalize hfs : (if amount > acct.stakedBalance then acct.stakedBalance else amount) = fromStake
    at hstaked hremaining
  have hmin : fromStake.toNat = min acct.stakedBalance.toNat amount.toNat := by
    rw [← hfs]
    exact Arith.toNat_capped
  have hstaked' := Arith.sub_toNat hstaked (by omega)
  have hremaining' := Arith.sub_toNat hremaining (by omega)
  have hlose : holdings S (ws.setAccount { acct with stakedBalance := staked }) +
      within S a fromStake.toNat = holdings S ws := by
    refine holdings_lose (hk.account a acct hg) ?_
    rw [valueAt_of hg]
    simp only [Account.value]
    omega
  have hqueue : holdings S w + within S a remaining.toNat =
      holdings S (ws.setAccount { acct with stakedBalance := staked }) := by
    refine slashRest_holdings ?_ hw
    rw [WorldState.setAccount_unbondingQueue]
    omega
  have hsplit := within_add (S := S) (a := a) (m := fromStake.toNat) (n := remaining.toNat)
  rw [show fromStake.toNat + remaining.toNat = amount.toNat by omega] at hsplit
  refine ⟨?_, ?_⟩
  · rw [Arith.add_toNat hburned htrap]
    have hc := (Prod.mk.inj (slashRest_kept hw).2).1
    simp only [WorldState.recordSlash_burnedSupply, hc, WorldState.setAccount_burnedSupply]
  · change holdings S w + _ = _
    omega

theorem applySlashEvidence_kept (hk : Keyed ws) {ev : SlashEvidence}
    (h : applySlashEvidence E ar params ws ev = .ok ws') :
    StakesKept ws ws' ∧ ws'.issuedSupply = ws.issuedSupply := by
  rcases applySlashEvidence_cases h with rfl | ⟨-, acct, unbonding, totalAtRisk, hg, -, -, -, hs⟩
  · exact ⟨.refl, rfl⟩
  · exact slashAccount_kept hk hg hs

/-- The penalty, nothing unless the evidence is valid. -/
theorem applySlashEvidence_holdings (htrap : ar.trapAdd = true)
    (hf : params.slashFractionDoubleSign.toNat ≤ 100) (hk : Keyed ws) {ev : SlashEvidence}
    (h : applySlashEvidence E ar params ws ev = .ok ws') :
    ∃ n : Nat, (n ≠ 0 → ev.isValid E = true) ∧ ws'.burnedSupply.toNat = ws.burnedSupply.toNat + n ∧
      ∀ S, holdings S ws' + within S ev.voteA.voterAddr n = holdings S ws := by
  rcases applySlashEvidence_cases h with rfl | ⟨hv, acct, unbonding, totalAtRisk, hg, hu, ht, h₀, hs⟩
  · exact ⟨0, fun h => absurd rfl h, rfl, fun S => by simp⟩
  · have hle := slashAmount_le hf h₀
    rw [Arith.add_toNat ht htrap, unbondingBalanceFor_toNat htrap hu] at hle
    have heff := fun S => slashAccount_holdings (S := S) htrap hk hg hle hs
    exact ⟨_, fun _ => hv, (heff fun _ => true).1, fun S => (heff S).2⟩

end Drana
