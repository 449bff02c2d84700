/-
What a penalty takes, and from whom: the configured part of what the validator
has at risk, from its stake first and then from the front of its own entries
in the queue. Nobody else's account or entry is touched.
-/
import Drana.Boots
import Drana.Exactness
import Drana.Operations
import Drana.Unbonding

namespace Drana

variable {E : Env} {params : GenesisConfig} {ws w ws' : WorldState} {a : Address} {n : UInt64} {ev : SlashEvidence}
  {q q' : List UnbondingEntry}

/-! ## States between the steps -/

/-- The states that the steps of `ApplyBlock` lead to from genesis, those
inside a block among them. -/
def Reached (E : Env) (params : GenesisConfig) (ws : WorldState) : Prop :=
  ∃ ws₀ ops, initializeState E params = .ok ws₀ ∧ perform E .go params ws₀ ops = .ok ws

/-- A run passes through such states. -/
theorem applyBlocks_reached {ws₀ : WorldState} {bs : List ((Nat → RangeOrder) × Block)}
    (h₀ : initializeState E params = .ok ws₀)
    (h : applyBlocks E .go params ws₀ bs = .ok ws) : Reached E params ws :=
  ⟨ws₀, operationsOfRun bs, h₀, perform_run.trans h⟩

/-- What every step keeps holds of all of them. -/
theorem Reached.invariant {I : WorldState → Prop} (hk : Keeps E .go params fun _ ws => I ws)
    (h₀ : ∀ ws, initializeState E params = .ok ws → I ws) (h : Reached E params ws) : I ws := by
  obtain ⟨ws₀, ops, hinit, hperform⟩ := h
  exact Except.foldlM_inv I (fun _ _ _ _ hI hop => hk.operation hI hop) (h₀ ws₀ hinit) hperform

/-! ## No entry is empty -/

/-- Every entry of the queue is for something. -/
def QueueFilled (ws : WorldState) : Prop := ∀ e ∈ ws.unbondingQueue, 0 < e.amount.toNat

theorem QueueFilled.congr (h : QueueFilled ws) (hq : ws'.unbondingQueue = ws.unbondingQueue) : QueueFilled ws' := by
  intro e he
  rw [hq] at he
  exact h e he

theorem keeps_queueFilled : Keeps E .go params fun _ ws => QueueFilled ws where
  release hP h := by
    have hq : _ = List.filter _ _ := congrArg Schedule.queue (releaseMatured_schedule h)
    intro e he
    change e ∈ WorldState.unbondingQueue _ at he
    rw [show WorldState.unbondingQueue _ = _ from hq, List.mem_filter] at he
    exact hP e he.1
  slash hP h := by
    have hqueue := applySlashEvidence_queue h
    split at hqueue
    · exact hP.congr hqueue
    · obtain ⟨q, -, hqueue⟩ := hqueue
      intro e he
      rw [hqueue, List.mem_filter] at he
      simpa [UInt64.lt_iff_toNat_lt] using he.2
  tx hP h := by
    rcases executeTransaction_schedule h with ⟨-, -, hsch⟩ | ⟨-, -, hsch⟩ | ⟨-, ⟨u, hv⟩, release, -, hsch⟩
    · exact hP.congr (congrArg Schedule.queue hsch)
    · exact hP.congr (congrArg Schedule.queue hsch)
    · have hq := congrArg Schedule.queue hsch
      simp only [validateUnstake, Except.bind_ok_iff, Except.throwIf_ok_iff] at hv
      obtain ⟨-, hne, -⟩ := hv
      intro e he
      rw [show WorldState.unbondingQueue _ = _ from hq, List.mem_append, List.mem_singleton] at he
      rcases he with he | rfl
      · exact hP e he
      · exact Nat.pos_of_ne_zero fun hc => hne (UInt64.toNat_inj.mp hc)
  reward hP h := hP.congr (issueReward_queue h)
  epoch hP := by
    refine hP.congr ?_
    unfold epochTransition
    split <;> rfl
  height hP := hP

theorem Reached.indexed (h : Reached E params ws) : Indexed ws :=
  h.invariant keeps_indexed fun _ h₀ => initializeState_indexed h₀

theorem Reached.queueFilled (h : Reached E params ws) : QueueFilled ws := by
  refine h.invariant keeps_queueFilled fun ws h₀ => ?_
  have hq : ws.unbondingQueue = [] := congrArg Schedule.queue (initializeState_schedule h₀)
  intro e he
  rw [hq] at he
  cases he

/-! ## What is taken from the queue -/

/-- `n` taken from the front of a queue: whole entries first, then part of the
one where it ends. -/
inductive TakenFront : Nat → List UnbondingEntry → List UnbondingEntry → Prop
  | none {q : List UnbondingEntry} : TakenFront 0 q q
  | part {n : Nat} {e : UnbondingEntry} {amount : UInt64} {q : List UnbondingEntry} : 0 < amount.toNat →
    amount.toNat + n = e.amount.toNat → TakenFront n (e :: q) ({ e with amount } :: q)
  | whole {n : Nat} {e : UnbondingEntry} {q q' : List UnbondingEntry} : TakenFront n q q' →
    TakenFront (e.amount.toNat + n) (e :: q) q'

/-- What is left sums up to what there was, less what was taken. -/
theorem TakenFront.sum {n : Nat} (h : TakenFront n q q') :
    (q'.map (·.amount.toNat)).sum + n = (q.map (·.amount.toNat)).sum := by
  induction h with
  | none => rfl
  | part _ hsum =>
    simp only [List.map_cons, List.sum_cons]
    omega
  | whole _ ih =>
    simp only [List.map_cons, List.sum_cons]
    omega

theorem filter_filled (h : ∀ e ∈ q, 0 < e.amount.toNat) : (q.filter fun e => e.amount > 0) = q := by
  refine List.filter_eq_self.mpr fun e he => ?_
  simpa [UInt64.lt_iff_toNat_lt] using h e he

section

variable {e : UnbondingEntry}

theorem filter_own (h : e.address = a) : ((e :: q).filter (·.address = a)) = e :: q.filter (·.address = a) :=
  List.filter_cons_of_pos (by simpa using h)

theorem filter_own_other (h : e.address ≠ a) : ((e :: q).filter (·.address = a)) = q.filter (·.address = a) :=
  List.filter_cons_of_neg (by simpa using h)

theorem filter_others_own (h : e.address = a) : ((e :: q).filter (·.address ≠ a)) = q.filter (·.address ≠ a) :=
  List.filter_cons_of_neg (by simpa using h)

theorem filter_others (h : e.address ≠ a) : ((e :: q).filter (·.address ≠ a)) = e :: q.filter (·.address ≠ a) :=
  List.filter_cons_of_pos (by simpa using h)

theorem filter_left (h : 0 < e.amount.toNat) :
    ((e :: q).filter fun e => e.amount > 0) = e :: q.filter fun e => e.amount > 0 :=
  List.filter_cons_of_pos (by simpa [UInt64.lt_iff_toNat_lt] using h)

theorem filter_gone (h : e.amount = 0) : ((e :: q).filter fun e => e.amount > 0) = q.filter fun e => e.amount > 0 :=
  List.filter_cons_of_neg (by simp [h])

end

/-- `SlashUnbonding` takes from the front of the entries of `a`, and from no others. -/
theorem slashEntries_taken (hfilled : ∀ e ∈ q, 0 < e.amount.toNat) (hle : n.toNat ≤ queued (· = a) q)
    (h : WorldState.slashEntries .go a n q = .ok q') :
    TakenFront n.toNat (q.filter (·.address = a)) ((q'.filter fun e => e.amount > 0).filter (·.address = a)) ∧
      (q'.filter fun e => e.amount > 0).filter (·.address ≠ a) = q.filter (·.address ≠ a) := by
  induction q generalizing n q' with
  | nil =>
    have hn : n.toNat = 0 := Nat.le_zero.mp hle
    cases h
    rw [hn]
    exact ⟨.none, rfl⟩
  | cons e q ih =>
    obtain ⟨he, hq⟩ := List.forall_mem_cons.mp hfilled
    unfold WorldState.slashEntries at h
    simp only [queued, within, List.map_cons, List.sum_cons, decide_eq_true_eq] at hle ih
    split at h
    · next hn =>
      cases h
      rw [filter_filled hfilled, hn]
      exact ⟨.none, rfl⟩
    split at h
    · next ha =>
      rw [if_pos ha] at hle
      rw [filter_own ha, filter_others_own ha]
      split at h
      · next hcovers =>
        rw [UInt64.le_iff_toNat_le] at hcovers
        simp only [Except.bind_ok_iff, Except.pure_ok_iff] at h
        obtain ⟨r, hr, es, hes, rfl⟩ := h
        have hr := Arith.sub_toNat hr hcovers
        obtain ⟨htaken, hothers⟩ := ih hq (by omega) hes
        have hn : n.toNat = e.amount.toNat + r.toNat := by omega
        rw [filter_gone rfl, hn]
        exact ⟨.whole htaken, hothers⟩
      · next hcovers =>
        rw [UInt64.le_iff_toNat_le] at hcovers
        simp only [Except.bind_ok_iff, Except.pure_ok_iff] at h
        obtain ⟨r, hr, rfl⟩ := h
        have hr := Arith.sub_toNat hr (by omega)
        have hr₀ : 0 < r.toNat := by omega
        have hown : ({ e with amount := r } : UnbondingEntry).address = a := ha
        rw [filter_left hr₀, filter_filled hq, filter_own hown, filter_others_own hown]
        exact ⟨.part hr₀ hr, rfl⟩
    · next ha =>
      rw [if_neg ha, Nat.zero_add] at hle
      simp only [Except.bind_ok_iff, Except.pure_ok_iff] at h
      obtain ⟨es, hes, rfl⟩ := h
      obtain ⟨htaken, hothers⟩ := ih hq hle hes
      rw [filter_left he, filter_own_other ha, filter_own_other ha, filter_others ha, filter_others ha, hothers]
      exact ⟨htaken, rfl⟩

theorem slashAmount_toNat (hf : params.slashFractionDoubleSign.toNat ≤ 100) :
    (slashAmount params n).toNat = max 1 (n.toNat * params.slashFractionDoubleSign.toNat / 100) := by
  have hexact : (mulDiv n params.slashFractionDoubleSign 100).toNat =
      n.toNat * params.slashFractionDoubleSign.toNat / 100 :=
    mulDiv_toNat_of_le (by decide) hf
  unfold slashAmount
  dsimp only
  split
  · next hzero =>
    rw [hzero, UInt64.toNat_zero] at hexact
    rw [UInt64.toNat_one]
    omega
  · next hne =>
    have hpos : (mulDiv n params.slashFractionDoubleSign 100).toNat ≠ 0 := fun hc => hne (UInt64.toNat_inj.mp hc)
    omega

/-! ## What is taken from the account -/

/-- Evidence has cost `acct`, the account of its voter, `n`: of its stake as
far as that goes, of its entries from the front for the rest. All else is as
it was. -/
structure Penalized (ev : SlashEvidence) (acct : Account) (n : Nat) (ws ws' : WorldState) : Prop where
  account : ∃ stakedBalance : UInt64, stakedBalance.toNat = acct.stakedBalance.toNat - n ∧
    ws'.getAccount ev.voteA.voterAddr = some { acct with stakedBalance }
  accounts : ∀ b, b ≠ ev.voteA.voterAddr → ws'.getAccount b = ws.getAccount b
  entries : TakenFront (n - acct.stakedBalance.toNat) (ws.unbondingQueue.filter (·.address = ev.voteA.voterAddr))
    (ws'.unbondingQueue.filter (·.address = ev.voteA.voterAddr))
  otherEntries : ws'.unbondingQueue.filter (·.address ≠ ev.voteA.voterAddr) =
    ws.unbondingQueue.filter (·.address ≠ ev.voteA.voterAddr)
  burned : ws'.burnedSupply.toNat = ws.burnedSupply.toNat + n
  rest : ws' = { ws with
    accounts := ws'.accounts, unbondingQueue := ws'.unbondingQueue, burnedSupply := ws'.burnedSupply
    slashRecord := insert (ev.voteA.voterAddr, ev.voteA.height) ws.slashRecord }

/-- What an account has at risk: its stake and what it is unbonding. -/
def totalAtRisk (ws : WorldState) (acct : Account) : Nat :=
  acct.stakedBalance.toNat + queued (· = acct.address) ws.unbondingQueue

/-- The penalty: the configured part of what is at risk, at least one. -/
def penaltyOn (params : GenesisConfig) (total : Nat) : Nat := max 1 (total * params.slashFractionDoubleSign.toNat / 100)

theorem penaltyOn_le (hf : params.slashFractionDoubleSign.toNat ≤ 100) {total : Nat} (hpos : 0 < total) :
    penaltyOn params total ≤ total := by
  have hpart : total * params.slashFractionDoubleSign.toNat / 100 ≤ total := by
    refine Nat.div_le_of_le_mul ?_
    rw [Nat.mul_comm]
    exact Nat.mul_le_mul_right _ hf
  unfold penaltyOn
  omega

theorem slashEntries_go : ∀ (q : List UnbondingEntry) (n : UInt64), ∃ q', WorldState.slashEntries .go a n q = .ok q'
  | [], _ => ⟨[], rfl⟩
  | e :: q, n => by
    unfold WorldState.slashEntries
    split
    · exact ⟨_, rfl⟩
    split
    · split
      · obtain ⟨q', hq⟩ := slashEntries_go q (n - e.amount)
        exact ⟨_, by rw [Arith.go_sub, Except.ok_bind, hq]; rfl⟩
      · exact ⟨_, rfl⟩
    · obtain ⟨q', hq⟩ := slashEntries_go q n
      exact ⟨_, by rw [hq]; rfl⟩

/-- What the stake does not cover is taken from the queue. -/
theorem slashRest_taken (hfilled : QueueFilled ws) (hle : n.toNat ≤ queued (· = a) ws.unbondingQueue) :
    ∃ queue, slashRest .go ws a n = .ok { ws with unbondingQueue := queue } ∧
      TakenFront n.toNat (ws.unbondingQueue.filter (·.address = a)) (queue.filter (·.address = a)) ∧
      queue.filter (·.address ≠ a) = ws.unbondingQueue.filter (·.address ≠ a) := by
  unfold slashRest
  split
  · obtain ⟨q, hq⟩ := slashEntries_go ws.unbondingQueue n
    obtain ⟨htaken, hothers⟩ := slashEntries_taken hfilled hle hq
    refine ⟨_, ?_, htaken, hothers⟩
    rw [WorldState.slashUnbonding, hq]
    rfl
  · next hzero =>
    rw [gt_iff_lt, UInt64.lt_iff_toNat_lt, UInt64.toNat_zero] at hzero
    rw [show n.toNat = 0 by omega]
    exact ⟨ws.unbondingQueue, rfl, .none, rfl⟩

theorem slashAccount_penalized (hi : Indexed ws) (hfilled : QueueFilled ws) {acct : Account} {total : UInt64}
    (hg : ws.getAccount ev.voteA.voterAddr = some acct) (hle : (slashAmount params total).toNat ≤ totalAtRisk ws acct)
    (hburned : ws.burnedSupply.toNat + (slashAmount params total).toNat < 2 ^ 64) :
    ∃ ws', slashAccount .go params ws ev.voteA.voterAddr ev.voteA.height acct total = .ok ws' ∧
      Penalized ev acct (slashAmount params total).toNat ws ws' := by
  have haddr := hi.keyed.account _ _ hg
  rw [totalAtRisk, haddr] at hle
  unfold slashAccount
  generalize slashAmount params total = amount at hle hburned ⊢
  obtain ⟨fromStake, hfrom⟩ : ∃ fromStake, fromStake = if amount > acct.stakedBalance then acct.stakedBalance else
      amount := ⟨_, rfl⟩
  have hmin : fromStake.toNat = min acct.stakedBalance.toNat amount.toNat := by
    rw [hfrom]
    exact Arith.toNat_capped
  have hstaked : (acct.stakedBalance - fromStake).toNat = acct.stakedBalance.toNat - amount.toNat := by
    rw [UInt64.toNat_sub_of_le _ _ (UInt64.le_iff_toNat_le.mpr (by omega))]
    omega
  have hremaining : (amount - fromStake).toNat = amount.toNat - acct.stakedBalance.toNat := by
    rw [UInt64.toNat_sub_of_le _ _ (UInt64.le_iff_toNat_le.mpr (by omega))]
    omega
  have hkeeps : KeepsName ws { acct with stakedBalance := acct.stakedBalance - fromStake } :=
    .inl ⟨acct, haddr.symm ▸ hg, rfl⟩
  have hset := hi.setAccount_eq hkeeps
  obtain ⟨queue, hrest, htaken, hothers⟩ := @slashRest_taken
    (ws.setAccount { acct with stakedBalance := acct.stakedBalance - fromStake }) ev.voteA.voterAddr (amount - fromStake)
    hfilled (by rw [WorldState.setAccount_unbondingQueue]; omega)
  rw [WorldState.setAccount_unbondingQueue] at htaken hothers
  rw [hremaining] at htaken
  dsimp only
  rw [← hfrom]
  simp only [Arith.go_sub, Arith.go_add, Except.ok_bind, hrest]
  refine ⟨_, rfl, ⟨⟨_, hstaked, ?_⟩, fun b hb => ?_, htaken, hothers, ?_, ?_⟩⟩
  · rw [← haddr]
    exact WorldState.getAccount_setAccount_self
  · exact WorldState.getAccount_setAccount_ne (haddr.symm ▸ hb)
  · change (ws.burnedSupply + amount).toNat = _
    rw [UInt64.toNat_add, Nat.mod_eq_of_lt hburned]
  · rw [hset]
    rfl

/-- **What a penalty takes, and from whom.** In every state the steps of
`ApplyBlock` reach, evidence that is invalid or recorded changes nothing; other
evidence takes the configured part of what its voter has at risk, if no sum
wraps. -/
theorem slash_penalty (hr : Reached E params ws) (hf : params.slashFractionDoubleSign.toNat ≤ 100) :
    (ev.isValid E = false ∨ ws.hasBeenSlashed ev.voteA.voterAddr ev.voteA.height = true →
      applySlashEvidence E .go params ws ev = .ok ws) ∧
    ∀ acct, ws.getAccount ev.voteA.voterAddr = some acct → ev.isValid E = true →
      ws.hasBeenSlashed ev.voteA.voterAddr ev.voteA.height = false → 0 < totalAtRisk ws acct →
      totalAtRisk ws acct < 2 ^ 64 →
      ws.burnedSupply.toNat + penaltyOn params (totalAtRisk ws acct) < 2 ^ 64 →
      ∃ ws', applySlashEvidence E .go params ws ev = .ok ws' ∧
        Penalized ev acct (penaltyOn params (totalAtRisk ws acct)) ws ws' := by
  constructor
  · rintro (hinvalid | hrecorded)
    · simp [applySlashEvidence, hinvalid]
    · simp [applySlashEvidence, hrecorded]
  · intro acct hg hvalid hnew hpos hfit hburned
    have haddr := hr.indexed.keyed.account _ _ hg
    obtain ⟨unbonding, hu⟩ : ∃ n, ws.unbondingBalanceFor .go ev.voteA.voterAddr = .ok n :=
      Except.foldlM_total (fun total entry => by split <;> exact ⟨_, rfl⟩) _ _
    have hunbonding := unbondingBalanceFor_toNat rfl
      (unbondingBalanceFor_exact (by rw [totalAtRisk, haddr] at hfit; omega) hu)
    have htotal : (acct.stakedBalance + unbonding).toNat = totalAtRisk ws acct := by
      rw [totalAtRisk, haddr] at hfit ⊢
      rw [UInt64.toNat_add, hunbonding, Nat.mod_eq_of_lt hfit]
    have hamount : (slashAmount params (acct.stakedBalance + unbonding)).toNat = penaltyOn params
        (totalAtRisk ws acct) := by
      rw [slashAmount_toNat hf, htotal, penaltyOn]
    have hne : acct.stakedBalance + unbonding ≠ 0 := by
      intro hzero
      rw [hzero, UInt64.toNat_zero] at htotal
      omega
    have hcovered := penaltyOn_le hf hpos
    rw [← hamount] at hcovered hburned
    obtain ⟨ws', hs, hpenalized⟩ := slashAccount_penalized hr.indexed hr.queueFilled hg hcovered hburned
    refine ⟨ws', ?_, hamount ▸ hpenalized⟩
    simp only [applySlashEvidence, hvalid, hnew, hg, hu, Arith.go_add, Except.ok_bind, Bool.not_true, Bool.false_eq_true,
      if_false, if_neg hne, hs]

section

open Sample

/-- Four fifths of what is at risk. -/
def Sample.severeConfig : GenesisConfig := { unbondingConfig with slashFractionDoubleSign := 80 }

/-- Key 1 has sixty staked and forty in the queue: the penalty of eighty ends inside the entry. -/
theorem slash_penalty_unstaked : ∃ ws acct ws', applyBlocks env .go severeConfig genesis [block 1 [unstake]] = .ok ws ∧
    ws.getAccount (address 1) = some acct ∧ applySlashEvidence env .go severeConfig ws doubleVote = .ok ws' ∧
    Penalized doubleVote acct 80 ws ws' := by
  have hrun : (applyBlocks env .go severeConfig genesis [block 1 [unstake]]).isOk = true ∧
      (∃ acct ∈ (applyBlocks env .go severeConfig genesis [block 1 [unstake]]).value.getAccount (address 1),
        totalAtRisk (applyBlocks env .go severeConfig genesis [block 1 [unstake]]).value acct = 100) ∧
      doubleVote.isValid env = true ∧ doubleVote.voteA.voterAddr = address 1 ∧
      (applyBlocks env .go severeConfig genesis [block 1 [unstake]]).value.hasBeenSlashed
        (address 1) doubleVote.voteA.height = false ∧
      (applyBlocks env .go severeConfig genesis [block 1 [unstake]]).value.burnedSupply = 0 := by
    decide +kernel
  obtain ⟨hok, ⟨acct, hg, hrisk⟩, hvalid, hvoter, hnew, hburned⟩ := hrun
  have hreached : Reached env severeConfig _ := applyBlocks_reached genesis_ok (Except.ok_value hok)
  have hpenalty : penaltyOn severeConfig 100 = 80 := by decide
  have hg' := hvoter.symm ▸ hg
  have hnew' := hvoter.symm ▸ hnew
  obtain ⟨ws', hs, hpenalized⟩ := (slash_penalty hreached (by decide)).2 acct hg' hvalid hnew' (by rw [hrisk]; decide)
    (by rw [hrisk]; decide) (by rw [hrisk, hburned, hpenalty, UInt64.toNat_zero]; omega)
  rw [hrisk, hpenalty] at hpenalized
  exact ⟨_, acct, ws', Except.ok_value hok, hg, hs, hpenalized⟩

end

end Drana
