/-
The unbonding queue as a ledger of promises: each `Unstake` promises its amount
for the block `UnbondingPeriod` later, penalties cut promises, and a block pays
what is due first of all. The queue is the list of open promises.
-/
import Drana.Lib.Both
import Drana.Lib.Deferred
import Drana.Schedule
import Drana.PostLedger

namespace Drana

open Deferred

variable {E : Env} {params : GenesisConfig} {ws ws' : WorldState} {tx : Transaction} {ord : RangeOrder} {a : Address}
  {period : Nat} {ps : List (Promise Address)} {q q' : List UnbondingEntry}

/-! ## What a block does to the ledger -/

/-- What evidence takes from the queue, if anything. -/
def penalty (E : Env) (params : GenesisConfig) (ws : WorldState) (ev : SlashEvidence) : Option (Address × UInt64) :=
  let addr := ev.voteA.voterAddr
  if !ev.isValid E || ws.hasBeenSlashed addr ev.voteA.height then none
  else
    match ws.getAccount addr, ws.unbondingBalanceFor .go addr with
    | some acct, .ok unbonding =>
      let totalAtRisk := acct.stakedBalance + unbonding
      let amount := slashAmount params totalAtRisk
      let remaining := amount - (if amount > acct.stakedBalance then acct.stakedBalance else amount)
      if totalAtRisk = 0 then none else if remaining > 0 then some (addr, remaining) else none
    | _, _ => none

/-- The cuts of a block's evidence, one after the other. -/
def cutsIn (E : Env) (params : GenesisConfig) : WorldState → List SlashEvidence → List (Address × Nat)
  | _, [] => []
  | ws, ev :: evs =>
    ((penalty E params ws ev).map fun c => (c.1, c.2.toNat)).toList ++
    match applySlashEvidence E .go params ws ev with
    | .ok ws' => cutsIn E params ws' evs
    | .error _ => []

/-- The unstakes among transactions applied. -/
def unstakesIn (log : List Applied) : List (Address × Nat) :=
  log.filterMap fun x => if x.tx.kind = some .unstake then some (x.tx.sender, x.tx.amount.toNat) else none

theorem unstakesIn_cons (x : Applied) (log : List Applied) : unstakesIn (x :: log) =
    (if x.tx.kind = some .unstake then [(x.tx.sender, x.tx.amount.toNat)] else []) ++ unstakesIn log := by
  rw [unstakesIn, List.filterMap_cons]
  split <;> simp_all [unstakesIn]

/-- A block, as the ledger sees it. -/
def turnOf (E : Env) (params : GenesisConfig) (ws : WorldState) (b : (Nat → RangeOrder) × Block) : Turn Address where
  time := b.2.header.height.toNat
  cuts :=
    match releaseMatured .go ws b.2.header.height with
    | .ok w => cutsIn E params w b.2.evidence
    | .error _ => []
  promises := unstakesIn (appliedInBlock E .go params b.1 ws b.2)

/-- The ledger a run leaves. -/
def ledgerAlong (E : Env) (params : GenesisConfig) :
    Ledger Address → WorldState → List ((Nat → RangeOrder) × Block) → Ledger Address
  | l, _, [] => l
  | l, ws, b :: bs =>
    match applyBlock E .go params b.1 ws b.2 with
    | .ok ws' => ledgerAlong E params (l.turn params.unbondingPeriod.toNat (turnOf E params ws b)) ws' bs
    | .error _ => l

/-! ## The queue -/

/-- An entry of the queue is for a promise. -/
structure Entered (period : Nat) (p : Promise Address) (e : UnbondingEntry) : Prop where
  address : e.address = p.owner
  amount : e.amount.toNat = p.left
  releaseHeight : e.releaseHeight.toNat = p.made + period

/-- The queue lists the open promises. -/
def Queued (period : Nat) (ps : List (Promise Address)) (q : List UnbondingEntry) : Prop :=
  List.Forall₂ (Entered period) ps q

namespace Queued

theorem filter (h : Queued period ps q) {P : Promise Address → Prop} {Q : UnbondingEntry → Prop} [DecidablePred P]
    [DecidablePred Q] (hPQ : ∀ p e, Entered period p e → (P p ↔ Q e)) :
    Queued period (ps.filter (P ·)) (q.filter (Q ·)) :=
  List.rel_filter (fun p e he => by simpa using hPQ p e he) h

theorem due_iff {p : Promise Address} {e : UnbondingEntry} (h : Entered period p e) {height : UInt64} :
    p.made + period ≤ height.toNat ↔ e.releaseHeight ≤ height := by
  rw [UInt64.le_iff_toNat_le, h.releaseHeight]

/-- The loop of `SlashUnbonding` cuts. -/
theorem slashEntries (h : Queued period ps q) {n : UInt64} (hs : WorldState.slashEntries .go a n q = .ok q') :
    Queued period (cut a n.toNat ps) q' := by
  induction h generalizing n q' with
  | nil =>
    cases hs
    exact .nil
  | @cons p e ps q he hq ih =>
    rw [WorldState.slashEntries] at hs
    split at hs
    · next hn =>
      cases hs
      rw [hn, UInt64.toNat_zero, cut_zero]
      exact .cons he hq
    · rw [cut, ← he.address]
      split at hs
      · next ha =>
        rw [if_pos ha]
        split at hs
        · next hle =>
          simp only [Arith.go_sub, Except.ok_bind, Except.bind_ok_iff, Except.pure_ok_iff] at hs
          obtain ⟨es, hes, rfl⟩ := hs
          have hle : e.amount.toNat ≤ n.toNat := UInt64.le_iff_toNat_le.mp hle
          refine .cons ⟨he.address, ?_, he.releaseHeight⟩ ?_
          · rw [Promise.cut_left, ← he.amount, Nat.sub_eq_zero_of_le hle]
            rfl
          · rw [← he.amount, ← UInt64.toNat_sub_of_le _ _ (UInt64.le_iff_toNat_le.mpr hle)]
            exact ih hes
        · next hlt =>
          simp only [Arith.go_sub, Except.ok_bind, Except.pure_ok_iff] at hs
          subst hs
          have hlt : n.toNat < e.amount.toNat := UInt64.lt_iff_toNat_lt.mp (UInt64.not_le.mp hlt)
          refine .cons ⟨he.address, ?_, he.releaseHeight⟩ ?_
          · rw [Promise.cut_left, ← he.amount]
            exact UInt64.toNat_sub_of_le _ _ (UInt64.le_of_lt (UInt64.not_le.mp ‹_›))
          · rw [← he.amount, Nat.sub_eq_zero_of_le hlt.le, cut_zero]
            exact hq
      · next ha =>
        rw [if_neg ha]
        simp only [Except.bind_ok_iff, Except.pure_ok_iff] at hs
        obtain ⟨es, hes, rfl⟩ := hs
        exact .cons he (ih hes)

end Queued

theorem slashRest_queue {n : UInt64} (h : slashRest .go ws a n = .ok ws') :
    if n > 0 then ∃ q, WorldState.slashEntries .go a n ws.unbondingQueue = .ok q ∧
      ws'.unbondingQueue = q.filter fun e => e.amount > 0
    else ws'.unbondingQueue = ws.unbondingQueue := by
  obtain ⟨hn, q, hq, rfl⟩ | ⟨rfl, rfl⟩ := slashRest_ok_iff.mp h
  · rw [if_pos hn]
    exact ⟨q, hq, rfl⟩
  · rw [if_neg (UInt64.lt_irrefl 0)]

/-- Evidence cuts the queue as its penalty says. -/
theorem applySlashEvidence_queue {ev : SlashEvidence} (h : applySlashEvidence E .go params ws ev = .ok ws') :
    match penalty E params ws ev with
    | none => ws'.unbondingQueue = ws.unbondingQueue
    | some c => ∃ q, WorldState.slashEntries .go c.1 c.2 ws.unbondingQueue = .ok q ∧
        ws'.unbondingQueue = q.filter fun e => e.amount > 0 := by
  simp only [applySlashEvidence] at h
  unfold penalty
  dsimp only
  split at h
  · next hv =>
    cases h
    rw [if_pos (by simp [hv])]
  next hv =>
  split at h
  · next hs =>
    cases h
    rw [if_pos (by simp [hs])]
  next hs =>
  rw [if_neg (by simpa using ⟨by simpa using hv, by simpa using hs⟩)]
  split at h
  · next hg =>
    cases h
    rw [hg]
  next acct hg =>
  simp only [Except.bind_ok_iff, Arith.go_add, Except.ok_bind] at h
  obtain ⟨unbonding, hu, h⟩ := h
  rw [hg, hu]
  dsimp only
  split at h
  · next h₀ =>
    cases h
    rw [if_pos h₀]
  next h₀ =>
  rw [if_neg h₀]
  obtain ⟨staked, -, remaining, hremaining, w, hw, burned, -, rfl⟩ := slashAccount_ok_iff.mp h
  obtain rfl := Arith.sub_ok hremaining
  generalize (if slashAmount params (acct.stakedBalance + unbonding) > acct.stakedBalance then acct.stakedBalance
    else slashAmount params (acct.stakedBalance + unbonding)) = fromStake at hw ⊢
  have hqueue := slashRest_queue hw
  split at hqueue
  · next hr =>
    rw [if_pos hr]
    exact hqueue
  · next hr =>
    rw [if_neg hr]
    exact hqueue

/-- A block's evidence makes its cuts. -/
theorem processEvidence_queued {evs : List SlashEvidence} {l : Ledger Address}
    (h : Queued period l.queue ws.unbondingQueue)
    (hs : processEvidence E .go params ws evs = .ok ws') :
    Queued period ((cutsIn E params ws evs).foldl Ledger.cutOne l).queue ws'.unbondingQueue := by
  induction evs generalizing ws l with
  | nil =>
    cases hs
    exact h
  | cons ev evs ih =>
    obtain ⟨w, hw, hrest⟩ := Except.foldlM_cons_ok_iff.mp hs
    have hqueue := applySlashEvidence_queue hw
    rw [cutsIn, hw, List.foldl_append]
    refine ih ?_ hrest
    split at hqueue
    · next hnone =>
      rw [hnone, hqueue]
      exact h
    · next c hc =>
      obtain ⟨q, hq, hqueue⟩ := hqueue
      rw [hc, hqueue]
      refine (h.slashEntries hq).filter fun p e he => ?_
      rw [gt_iff_lt, UInt64.lt_iff_toNat_lt, he.amount]
      rfl

/-- Transactions make their promises. -/
theorem executeTransactions_queued {order : Nat → RangeOrder} {header : BlockHeader} {txs : List Transaction} {i : Nat}
    {l : Ledger Address} (hfit : header.height.toNat + params.unbondingPeriod.toNat < 2 ^ 64)
    (h : Queued params.unbondingPeriod.toNat l.queue ws.unbondingQueue)
    (hs : executeTransactions E .go params order header i ws txs = .ok ws') :
    Queued params.unbondingPeriod.toNat
      ((unstakesIn (appliedTransactions E .go params order header i ws txs)).foldl
        (Ledger.promise header.height.toNat) l).queue
      ws'.unbondingQueue := by
  induction txs generalizing i ws l with
  | nil =>
    simp only [executeTransactions, Except.pure_ok_iff] at hs
    subst hs
    exact h
  | cons tx txs ih =>
    simp only [executeTransactions, Except.bind_ok_iff] at hs
    obtain ⟨w, hw, hrest⟩ := hs
    rw [appliedTransactions, hw]
    dsimp only
    rcases executeTransaction_schedule hw with ⟨-, hne, hsch⟩ | ⟨hk, -, hsch⟩ | ⟨hk, -, release, hr, hsch⟩
    · have hqueue : w.unbondingQueue = ws.unbondingQueue := congrArg Schedule.queue hsch
      rw [unstakesIn_cons, if_neg hne]
      exact ih (hqueue ▸ h) hrest
    · have hqueue : w.unbondingQueue = ws.unbondingQueue := congrArg Schedule.queue hsch
      rw [unstakesIn_cons, if_neg (by simp [hk])]
      exact ih (hqueue ▸ h) hrest
    · have hqueue : w.unbondingQueue = ws.unbondingQueue ++ [⟨tx.sender, tx.amount, release⟩] :=
        congrArg Schedule.queue hsch
      rw [unstakesIn_cons, if_pos hk, List.foldl_append]
      refine ih ?_ hrest
      rw [hqueue]
      refine List.rel_append h (.cons ⟨rfl, rfl, ?_⟩ .nil)
      cases hr
      rw [UInt64.toNat_add, Nat.mod_eq_of_lt hfit]

/-! ## Blocks -/

theorem issueReward_queue (h : issueReward .go params ws a = .ok ws') : ws'.unbondingQueue = ws.unbondingQueue :=
  congrArg Schedule.queue (issueReward_schedule h)

/-- After a block the queue lists the ledger's promises. -/
theorem applyBlock_queued {b : (Nat → RangeOrder) × Block} {l : Ledger Address}
    (hfit : b.2.header.height.toNat + params.unbondingPeriod.toNat < 2 ^ 64)
    (h : Queued params.unbondingPeriod.toNat l.queue ws.unbondingQueue)
    (hb : applyBlock E .go params b.1 ws b.2 = .ok ws') :
    Queued params.unbondingPeriod.toNat (l.turn params.unbondingPeriod.toNat (turnOf E params ws b)).queue
      ws'.unbondingQueue := by
  obtain ⟨w, hw, rfl⟩ := applyBlock_ok_iff.mp hb
  simp only [beforeEpoch, beforeTransactions, Except.bind_ok_iff] at hw
  obtain ⟨w₂, ⟨w₁, hrelease, hevidence⟩, w₃, htxs, hreward⟩ := hw
  have hlast : ({ epochTransition params (b.1 b.2.transactions.length) w b.2.header.height with
      chainHeight := b.2.header.height } : WorldState).unbondingQueue = w₃.unbondingQueue := by
    refine Eq.trans ?_ (issueReward_queue hreward)
    have hepoch := congrArg Schedule.queue
      (@epochTransition_schedule params w (b.1 b.2.transactions.length) b.2.header.height)
    refine Eq.trans hepoch ?_
    split <;> rfl
  have hreleased : w₁.unbondingQueue = ws.unbondingQueue.filter fun e => ¬ e.releaseHeight ≤ b.2.header.height :=
    congrArg Schedule.queue (releaseMatured_schedule hrelease)
  have hbefore : beforeTransactions E .go params ws b.2 = .ok w₂ := by
    simp only [beforeTransactions, hrelease, Except.ok_bind]
    exact hevidence
  rw [hlast, Ledger.turn, turnOf]
  simp only [hrelease, appliedInBlock, hbefore]
  refine executeTransactions_queued hfit (processEvidence_queued ?_ hevidence) htxs
  rw [hreleased]
  exact h.filter fun p e he => not_congr (Queued.due_iff he)

/-! ## Credits -/

theorem balanceOf_lt : balanceOf ws a < 2 ^ 64 := by
  unfold balanceOf
  cases ws.getAccount a with
  | none => exact Nat.two_pow_pos 64
  | some acct => exact acct.balance.toNat_lt

theorem depositAccount_balance (hk : Keyed ws) {n : UInt64} (h : depositAccount .go ws a n = .ok ws') (b : Address) :
    balanceOf ws' b = (balanceOf ws b + if b = a then n.toNat else 0) % 2 ^ 64 := by
  simp only [depositAccount, Arith.go_add, Except.ok_bind, Except.pure_ok_iff] at h
  subst h
  unfold balanceOf
  rw [WorldState.getAccount_setAccount]
  change Option.elim (if b = ((ws.getAccount a).getD { address := a }).address then _ else _) _ _ = _
  rw [hk.address_getD]
  split
  · next hb =>
    rw [hb]
    cases hg : ws.getAccount a with
    | none => simp
    | some acct => simp [UInt64.toNat_add]
  · rw [Nat.add_zero]
    exact (Nat.mod_eq_of_lt balanceOf_lt).symm

/-- What a list of entries credits to each account. -/
theorem depositAll_balance (hk : Keyed ws) {es : List UnbondingEntry}
    (h : es.foldlM (fun ws e => depositAccount .go ws e.address e.amount) ws = .ok ws') (b : Address) :
    balanceOf ws' b = (balanceOf ws b + ((es.filter (·.address = b)).map (·.amount.toNat)).sum) % 2 ^ 64 := by
  induction es generalizing ws with
  | nil =>
    cases h
    exact (Nat.mod_eq_of_lt balanceOf_lt).symm
  | cons e es ih =>
    obtain ⟨w, hw, hrest⟩ := Except.foldlM_cons_ok_iff.mp h
    rw [ih ((depositAccount_writes hw).keyed hk) hrest, depositAccount_balance hk hw, Nat.mod_add_mod, List.filter_cons]
    by_cases hb : b = e.address
    · simp [hb, Nat.add_assoc]
    · simp [hb, Ne.symm hb]

/-- A block first of all pays what the ledger has due. -/
theorem releaseMatured_balance (hk : Keyed ws) {l : Ledger Address} {height : UInt64}
    (hq : Queued period l.queue ws.unbondingQueue) (h : releaseMatured .go ws height = .ok ws') (b : Address) :
    balanceOf ws' b =
      (balanceOf ws b + (((l.due period height.toNat).filter (·.owner = b)).map Promise.left).sum) % 2 ^ 64 := by
  have hdue : Queued period (l.due period height.toNat) (ws.unbondingQueue.filter fun e => e.releaseHeight ≤ height) :=
    hq.filter fun p e he => Queued.due_iff he
  have hown := hdue.filter (P := fun p => p.owner = b) (Q := fun e => e.address = b) fun p e he => by rw [he.address]
  have hsum : ∀ {ps : List (Promise Address)} {q : List UnbondingEntry}, Queued period ps q →
      q.map (fun e => e.amount.toNat) = ps.map Promise.left := by
    intro ps q h
    induction h with
    | nil => rfl
    | cons he _ ih => rw [List.map_cons, List.map_cons, ih, he.amount]
  rw [← hsum hown]
  have hk' : Keyed (ws.removeMaturedUnbonding height).2 := hk.congr rfl rfl rfl
  exact depositAll_balance hk' h b

/-! ## Runs -/

theorem mem_appliedTransactions {order : Nat → RangeOrder} {header : BlockHeader} {txs : List Transaction} {i : Nat}
    {x : Applied} (h : x ∈ appliedTransactions E .go params order header i ws txs) :
    ∃ i, executeTransaction E .go params (order i) header i x.before x.tx = .ok x.after := by
  induction txs generalizing i ws with
  | nil => cases h
  | cons tx txs ih =>
    rw [appliedTransactions] at h
    split at h
    · next w hw =>
      rcases List.mem_cons.mp h with rfl | h
      · exact ⟨i, hw⟩
      · exact ih h
    · cases h

/-- Nobody unstakes nothing. -/
theorem turnOf_pos {b : (Nat → RangeOrder) × Block} : ∀ u ∈ (turnOf E params ws b).promises, 0 < u.2 := by
  intro u hu
  simp only [turnOf, unstakesIn, List.mem_filterMap, appliedInBlock] at hu
  obtain ⟨x, hx, hu⟩ := hu
  split at hx
  · obtain ⟨i, hrun⟩ := mem_appliedTransactions hx
    split at hu
    · next hk =>
      cases hu
      rcases executeTransaction_schedule hrun with ⟨-, hne, -⟩ | ⟨hk', -, -⟩ | ⟨-, ⟨v, hv⟩, -⟩
      · exact absurd hk hne
      · rw [hk] at hk'
        cases hk'
      · simp only [validateUnstake, Except.bind_ok_iff, Except.throwIf_ok_iff] at hv
        obtain ⟨-, hne, -⟩ := hv
        exact Nat.pos_of_ne_zero fun hc => hne (UInt64.toNat_inj.mp hc)
    · cases hu
  · cases hx

/-- The unstakes a run applies: who, how much, and at which height. -/
def unstakesOf (E : Env) (params : GenesisConfig) :
    WorldState → List ((Nat → RangeOrder) × Block) → List (Address × Nat × Nat)
  | _, [] => []
  | ws, b :: bs =>
    match applyBlock E .go params b.1 ws b.2 with
    | .ok ws' =>
      (unstakesIn (appliedInBlock E .go params b.1 ws b.2)).map (fun u => (u.1, u.2, b.2.header.height.toNat)) ++
        unstakesOf E params ws' bs
    | .error _ => []

theorem ledgerAlong_append {l : Ledger Address} {bs : List ((Nat → RangeOrder) × Block)} {b : (Nat → RangeOrder) × Block}
    {ws₀ : WorldState} (h : applyBlocks E .go params ws₀ bs = .ok ws)
    (hb : applyBlock E .go params b.1 ws b.2 = .ok ws') :
    ledgerAlong E params l ws₀ (bs ++ [b]) =
      (ledgerAlong E params l ws₀ bs).turn params.unbondingPeriod.toNat (turnOf E params ws b) := by
  induction bs generalizing l ws₀ with
  | nil =>
    cases h
    simp only [List.nil_append, ledgerAlong, hb]
  | cons c bs ih =>
    obtain ⟨w, hw, hrest⟩ := applyBlocks_cons_ok_iff.mp h
    simp only [List.cons_append, ledgerAlong, hw]
    exact ih hrest

theorem unstakesOf_append {bs : List ((Nat → RangeOrder) × Block)} {b : (Nat → RangeOrder) × Block} {ws₀ : WorldState}
    (h : applyBlocks E .go params ws₀ bs = .ok ws) (hb : applyBlock E .go params b.1 ws b.2 = .ok ws') :
    unstakesOf E params ws₀ (bs ++ [b]) = unstakesOf E params ws₀ bs ++
      (turnOf E params ws b).promises.map fun u => (u.1, u.2, b.2.header.height.toNat) := by
  induction bs generalizing ws₀ with
  | nil =>
    cases h
    simp [unstakesOf, hb, turnOf]
  | cons c bs ih =>
    obtain ⟨w, hw, hrest⟩ := applyBlocks_cons_ok_iff.mp h
    simp only [List.cons_append, unstakesOf, hw, ih hrest, List.append_assoc]

/-- The ledger of a run: the queue is its list of open promises, its promises
are the unstakes of the run, and it is on time. -/
theorem ledger_run {ws₀ : WorldState} (hP : 0 < params.unbondingPeriod) (h₀ : initializeState E params = .ok ws₀)
    {bs : List ((Nat → RangeOrder) × Block)} (hc : Consecutive bs)
    (hfit : bs.length + params.unbondingPeriod.toNat < 2 ^ 64) (h : applyBlocks E .go params ws₀ bs = .ok ws) :
    Queued params.unbondingPeriod.toNat (ledgerAlong E params {} ws₀ bs).queue ws.unbondingQueue ∧
    (ledgerAlong E params {} ws₀ bs).origins = Multiset.ofList (unstakesOf E params ws₀ bs) ∧
    (ledgerAlong E params {} ws₀ bs).OnTime params.unbondingPeriod.toNat bs.length := by
  induction bs using List.reverseRecOn generalizing ws with
  | nil =>
    cases h
    have hqueue : ws₀.unbondingQueue = [] := congrArg Schedule.queue (initializeState_schedule h₀)
    refine ⟨hqueue ▸ .nil, rfl, ?_, ?_, ?_⟩
    · exact fun p hp => absurd hp List.not_mem_nil
    · exact fun x hx => absurd hx List.not_mem_nil
    · exact fun p hp => absurd hp List.not_mem_nil
  | append_singleton bs b ih =>
    obtain ⟨w, hw, hb⟩ := applyBlocks_append_ok_iff.mp h
    rw [List.length_append, List.length_singleton] at hfit ⊢
    obtain ⟨hqueue, horigins, hontime⟩ := ih hc.init (by omega) hw
    rw [ledgerAlong_append hw hb, unstakesOf_append hw hb]
    refine ⟨applyBlock_queued ?_ hqueue hb, ?_, hontime.turn (UInt64.lt_iff_toNat_lt.mp hP) hc.last turnOf_pos⟩
    · rw [hc.last]
      exact hfit
    · rw [Ledger.origins_turn, horigins, ← Multiset.coe_add]
      rfl

/-- What there is to say of a run `bs` from `ws₀` to `ws` and its next block `b`, to `ws'`. -/
structure UnbondsOnTime (E : Env) (params : GenesisConfig) (ws₀ : WorldState) (bs : List ((Nat → RangeOrder) × Block))
    (b : (Nat → RangeOrder) × Block) (ws ws' : WorldState) (l l' : Ledger Address) : Prop where
  /-- Each unstake of the run is one promise, open, paid or void. -/
  once : l'.origins = Multiset.ofList (unstakesOf E params ws₀ (bs ++ [b]))
  /-- Those of height `m` are paid at `m` and the period, or void. -/
  settled : ∀ m, m + params.unbondingPeriod.toNat ≤ (bs ++ [b]).length →
    (Multiset.ofList (unstakesOf E params ws₀ (bs ++ [b]))).filter (fun u => u.2.2 = m) =
      Multiset.ofList ((l'.paid.filter fun x => x.2 = m + params.unbondingPeriod.toNat).map fun x => x.1.origin) +
        Multiset.ofList ((l'.void.filter fun p => p.made = m).map Promise.origin)
  onTime : ∀ x ∈ l'.paid, x.2 = x.1.made + params.unbondingPeriod.toNat
  void : ∀ p ∈ l'.void, p.taken = p.amount
  /-- The block pays what is due, -/
  paid : l'.paid = l.paid ++
    (l.due params.unbondingPeriod.toNat b.2.header.height.toNat).map fun p => (p, b.2.header.height.toNat)
  /-- each owner what is left of its promises, -/
  credited : ∃ w, releaseMatured .go ws b.2.header.height = .ok w ∧ ∀ a, balanceOf w a = (balanceOf ws a +
    (((l.due params.unbondingPeriod.toNat b.2.header.height.toNat).filter (·.owner = a)).map Promise.left).sum) % 2 ^ 64
  /-- and the queue lists the open promises, for later. -/
  queue : Queued params.unbondingPeriod.toNat l'.queue ws'.unbondingQueue
  later : ∀ e ∈ ws'.unbondingQueue, b.2.header.height < e.releaseHeight

/-- **Unbonding is exact and on time**, along every run from genesis: an unstake
is paid once, in the block at its height plus the period, with what penalties
have left of it. -/
theorem unbonding_on_time {ws₀ : WorldState} (hP : 0 < params.unbondingPeriod) (h₀ : initializeState E params = .ok ws₀)
    {bs : List ((Nat → RangeOrder) × Block)} {b : (Nat → RangeOrder) × Block} (hc : Consecutive (bs ++ [b]))
    (hfit : (bs ++ [b]).length + params.unbondingPeriod.toNat < 2 ^ 64)
    (h : applyBlocks E .go params ws₀ bs = .ok ws) (hb : applyBlock E .go params b.1 ws b.2 = .ok ws') :
    UnbondsOnTime E params ws₀ bs b ws ws' (ledgerAlong E params {} ws₀ bs)
    (ledgerAlong E params {} ws₀ (bs ++ [b])) := by
  have hrun := applyBlocks_append_ok_iff.mpr ⟨ws, h, hb⟩
  obtain ⟨hqueue, -, -⟩ := ledger_run hP h₀ hc.init (by rw [List.length_append] at hfit; omega) h
  obtain ⟨hqueue', horigins', hontime'⟩ := ledger_run hP h₀ hc hfit hrun
  obtain ⟨w₀, hw₀, -⟩ := applyBlock_ok_iff.mp hb
  simp only [beforeEpoch, beforeTransactions, Except.bind_ok_iff] at hw₀
  obtain ⟨-, ⟨w, hrelease, -⟩, -⟩ := hw₀
  have hk : Keyed ws := (keeps_writes.invariant .refl h).keyed (initializeState_fresh h₀).1.keyed
  constructor
  · exact horigins'
  · intro m hm
    rw [← horigins']
    exact hontime'.settled hm
  · exact hontime'.paid
  · exact hontime'.void
  · rw [ledgerAlong_append h hb]
    exact Ledger.turn_paid _ _
  · exact ⟨w, hrelease, releaseMatured_balance hk hqueue hrelease⟩
  · exact hqueue'
  · intro e he
    obtain ⟨p, hp, hentered⟩ := hqueue'.flip.exists_of_mem he
    have hearly := (hontime'.queue p hp).early
    rw [UInt64.lt_iff_toNat_lt, hentered.releaseHeight, hc.last]
    simpa using hearly

section

open Sample

def Sample.unbondingConfig : GenesisConfig := { config with unbondingPeriod := 2 }

theorem Sample.unbondingGenesis_ok : initializeState env unbondingConfig = .ok genesis := genesis_ok

/-- Key 1 takes forty of its stake. -/
def Sample.unstake : Transaction :=
  signed 1 { type := 6, sender := address 1, pubKey := (key 1).publicKey, amount := 40, nonce := 1 }

def Sample.unstaking : List ((Nat → RangeOrder) × Block) := [block 1 [unstake], block 2 []]

def Sample.unbonding : WorldState := (applyBlocks env .go unbondingConfig genesis unstaking).value

def Sample.unbonded : WorldState := (applyBlock env .go unbondingConfig (block 3 []).1 unbonding (block 3 []).2).value

theorem Sample.unbonded_run : (applyBlocks env .go unbondingConfig genesis unstaking).isOk = true ∧
    (applyBlock env .go unbondingConfig (block 3 []).1 unbonding (block 3 []).2).isOk = true ∧
    unbonding.unbondingQueue.length = 1 ∧ unbonded.unbondingQueue = [] := by decide +kernel

theorem Sample.consecutive_unstaking : Consecutive (unstaking ++ [block 3 []]) := by
  intro i b hi
  match i with
  | 0 =>
    cases hi
    rfl
  | 1 =>
    cases hi
    rfl
  | 2 =>
    cases hi
    rfl
  | i + 3 => cases hi

/-- The third block pays. -/
theorem unbonding_on_time_unbonded : UnbondsOnTime env unbondingConfig genesis unstaking (block 3 []) unbonding unbonded
    (ledgerAlong env unbondingConfig {} genesis unstaking)
    (ledgerAlong env unbondingConfig {} genesis (unstaking ++ [block 3 []])) :=
  unbonding_on_time (by decide) unbondingGenesis_ok consecutive_unstaking (by decide) (Except.ok_value unbonded_run.1)
    (Except.ok_value unbonded_run.2.1)

end

end Drana
