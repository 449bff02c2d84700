/-
Epochs. Between two ends of epochs the active validators and their stakes do
not change; at an end the accounts with enough at stake are the new set. Keys
come from the set before: who was not in it gets the zero key.
-/
import Drana.Schedule
import Drana.Simulation

namespace Drana

variable {E : Env} {ar : Arith} {params : GenesisConfig} {ws ws' : WorldState} {tx : Transaction} {ord : RangeOrder}
  {a : Address} {vs vs' : List ValidatorStake}

/-! ## Within an epoch -/

/-- The key in every validator's entry is one of its address: what it signs can be checked with it. -/
def CanVote (E : Env) (ws : WorldState) : Prop := ∀ v ∈ ws.activeValidators, addressFromPublicKey E v.pubKey = v.address

instance (ws : WorldState) : Decidable (CanVote E ws) :=
  inferInstanceAs (Decidable (∀ v ∈ ws.activeValidators, addressFromPublicKey E v.pubKey = v.address))

/-- One validator before and after: a new key is the address's own. -/
structure SameSlot (E : Env) (v v' : ValidatorStake) : Prop where
  address : v'.address = v.address
  stakedBalance : v'.stakedBalance = v.stakedBalance
  pubKey : v'.pubKey = v.pubKey ∨ addressFromPublicKey E v'.pubKey = v'.address

namespace SameSlot

variable {v v' v'' : ValidatorStake}

protected theorem refl : SameSlot E v v := ⟨rfl, rfl, .inl rfl⟩

theorem trans (h : SameSlot E v v') (h' : SameSlot E v' v'') : SameSlot E v v'' where
  address := h'.address.trans h.address
  stakedBalance := h'.stakedBalance.trans h.stakedBalance
  pubKey := by
    rcases h'.pubKey with he | hkey
    · rcases h.pubKey with he' | hkey
      · exact .inl (he.trans he')
      · rw [he, h'.address]
        exact .inr hkey
    · exact .inr hkey

end SameSlot

theorem slots_trans {vs'' : List ValidatorStake} (h : List.Forall₂ (SameSlot E) vs vs')
    (h' : List.Forall₂ (SameSlot E) vs' vs'') : List.Forall₂ (SameSlot E) vs vs'' := by
  induction h generalizing vs'' with
  | nil =>
    cases h'
    exact .nil
  | cons hv _ ih =>
    cases h' with
    | cons hv' hrest => exact .cons (hv.trans hv') (ih hrest)

/-- The set of an epoch goes on: the same validators with the same stakes, and the same epoch. -/
structure EpochGoesOn (E : Env) (ws ws' : WorldState) : Prop where
  slots : List.Forall₂ (SameSlot E) ws.activeValidators ws'.activeValidators
  epoch : ws'.currentEpoch = ws.currentEpoch

namespace EpochGoesOn

theorem of_eq (hv : ws'.activeValidators = ws.activeValidators) (he : ws'.currentEpoch = ws.currentEpoch) :
    EpochGoesOn E ws ws' := ⟨hv ▸ List.forall₂_same.mpr fun _ _ => .refl, he⟩

theorem of_schedule {queue : List UnbondingEntry} (h : ws'.schedule = { ws.schedule with queue }) :
    EpochGoesOn E ws ws' :=
  of_eq (congrArg Schedule.validators h) (congrArg Schedule.epoch h)

theorem trans {w : WorldState} (h : EpochGoesOn E ws w) (h' : EpochGoesOn E w ws') : EpochGoesOn E ws ws' where
  slots := slots_trans h.slots h'.slots
  epoch := h'.epoch.trans h.epoch

end EpochGoesOn

theorem setPubKey_slots {key : PublicKey} (hkey : addressFromPublicKey E key = a) :
    List.Forall₂ (SameSlot E) vs (WorldState.setPubKey a key vs) := by
  induction vs with
  | nil => exact .nil
  | cons v vs ih =>
    rw [WorldState.setPubKey]
    split
    · next ha => exact .cons ⟨rfl, rfl, .inr (hkey.trans ha.symm)⟩ (List.forall₂_same.mpr fun _ _ => .refl)
    · exact .cons .refl ih

/-- The key of a stake is its sender's own. -/
theorem validateStake_key {sr : StateReader} {u : Unit} (h : validateStake E tx sr params = .ok u) :
    addressFromPublicKey E tx.pubKey = tx.sender := by
  simp only [validateStake, Except.bind_ok_iff] at h
  obtain ⟨-, -, acct, hc, -⟩ := h
  exact (validateCommonNoBalanceCheck_ok (validateCommon_ok hc)).1

theorem executeTransaction_goesOn {header : BlockHeader} {i : Nat}
    (h : executeTransaction E ar params ord header i ws tx = .ok ws') : EpochGoesOn E ws ws' := by
  rcases executeTransaction_schedule h with ⟨-, -, hs⟩ | ⟨-, ⟨u, hv⟩, hs⟩ | ⟨-, -, release, -, hs⟩
  · exact .of_schedule hs
  · have hslots : List.Forall₂ (SameSlot E) ws.activeValidators
        (WorldState.setPubKey tx.sender tx.pubKey ws.activeValidators) := setPubKey_slots (validateStake_key hv)
    have hvalidators := congrArg Schedule.validators hs
    change ws'.activeValidators = WorldState.setPubKey tx.sender tx.pubKey ws.activeValidators at hvalidators
    exact ⟨hvalidators ▸ hslots, congrArg Schedule.epoch hs⟩
  · exact .of_schedule hs

theorem beforeTransactions_goesOn {block : Block} (h : beforeTransactions E ar params ws block = .ok ws') :
    EpochGoesOn E ws ws' := by
  simp only [beforeTransactions, Except.bind_ok_iff] at h
  obtain ⟨w, hw, he⟩ := h
  refine Except.foldlM_inv (EpochGoesOn E ws) (fun ev _ w w' hg hs => ?_) (.of_schedule (releaseMatured_schedule hw)) he
  obtain ⟨queue, hq⟩ := applySlashEvidence_schedule hs
  exact hg.trans (.of_schedule hq)

theorem executeTransactions_goesOn {order : Nat → RangeOrder} {header : BlockHeader} {txs : List Transaction} {i : Nat}
    (h : executeTransactions E ar params order header i ws txs = .ok ws') : EpochGoesOn E ws ws' := by
  induction txs generalizing i ws with
  | nil =>
    simp only [executeTransactions, Except.pure_ok_iff] at h
    exact .of_eq (by rw [h]) (by rw [h])
  | cons tx txs ih =>
    simp only [executeTransactions, Except.bind_ok_iff] at h
    obtain ⟨w, hw, hrest⟩ := h
    exact (executeTransaction_goesOn hw).trans (ih hrest)

/-- Up to its last step, a block leaves the epoch as it is. -/
theorem beforeEpoch_goesOn {order : Nat → RangeOrder} {block : Block}
    (h : beforeEpoch E ar params order ws block = .ok ws') : EpochGoesOn E ws ws' := by
  simp only [beforeEpoch, Except.bind_ok_iff] at h
  obtain ⟨w₁, h₁, w₂, h₂, h₃⟩ := h
  refine ((beforeTransactions_goesOn h₁).trans (executeTransactions_goesOn h₂)).trans ?_
  exact .of_schedule (issueReward_schedule h₃)

/-! ## The new set -/

/-- The validators of a set are sorted by address, each once. -/
def SortedSet (vs : List ValidatorStake) : Prop := vs.Pairwise fun v u => v.address.toList < u.address.toList

theorem sortValidatorSet_perm_self : (sortValidatorSet vs).Perm vs := by
  rw [sortValidatorSet_eq]
  exact (List.reverse_perm _).trans ((List.perm_insertionSort _ _).trans (List.reverse_perm vs))

theorem sortValidatorSet_sorted (hn : (vs.map (·.address)).Nodup) : SortedSet (sortValidatorSet vs) := by
  have : Std.Total fun v u : ValidatorStake => v.address.toList ≥ u.address.toList :=
    ⟨fun v u => List.le_total u.address.toList v.address.toList⟩
  have : IsTrans ValidatorStake fun v u => v.address.toList ≥ u.address.toList :=
    ⟨fun v u t hvu hut => List.le_trans hut hvu⟩
  have hle : (sortValidatorSet vs).Pairwise fun v u => v.address.toList ≤ u.address.toList := by
    rw [sortValidatorSet_eq, List.pairwise_reverse]
    exact List.pairwise_insertionSort _ _
  have hne : (sortValidatorSet vs).Pairwise fun v u => v.address ≠ u.address :=
    List.pairwise_map.mp ((sortValidatorSet_perm_self.map _).nodup_iff.mpr hn)
  refine (hle.and hne).imp fun h => ?_
  obtain ⟨hle, hne⟩ := h
  by_contra hlt
  exact hne (ByteArr.toList_inj (List.le_antisymm hle (List.not_lt.mp hlt)))

/-- The set of a state is the one its accounts elect. -/
structure Elected (minStake : UInt64) (ws : WorldState) : Prop where
  sorted : SortedSet ws.activeValidators
  members : ∀ a stake, (∃ v ∈ ws.activeValidators, v.address = a ∧ v.stakedBalance = stake) ↔
    ∃ acct, ws.getAccount a = some acct ∧ acct.stakedBalance ≥ minStake ∧ acct.stakedBalance = stake

theorem mem_computeActiveValidatorSet (hk : Keyed ws) {minStake : UInt64} {v : ValidatorStake} :
    v ∈ ws.computeActiveValidatorSet ord minStake ↔ ∃ acct, ws.getAccount v.address = some acct ∧
      acct.stakedBalance ≥ minStake ∧ v.pubKey = ws.pubKeyForAccount v.address ∧
      v.stakedBalance = acct.stakedBalance := by
  rw [WorldState.computeActiveValidatorSet, sortValidatorSet_perm_self.mem_iff]
  exact mem_candidates hk

/-- The addresses of a new set are the accounts', each once. -/
theorem computeActiveValidatorSet_elects (hk : Keyed ws) {minStake : UInt64} {w : WorldState}
    (haccounts : w.accounts = ws.accounts) (hvs : w.activeValidators = ws.computeActiveValidatorSet ord minStake) :
    Elected minStake w where
  sorted := by
    rw [hvs]
    exact sortValidatorSet_sorted (List.Nodup.map_on (fun v hv u hu he => candidates_inj hk hv hu he)
      (nodup_candidates hk))
  members a stake := by
    rw [WorldState.getAccount_congr haccounts, hvs]
    constructor
    · rintro ⟨v, hv, rfl, rfl⟩
      obtain ⟨acct, hg, hmin, -, hstake⟩ := (mem_computeActiveValidatorSet hk).mp hv
      exact ⟨acct, hg, hmin, hstake.symm⟩
    · rintro ⟨acct, hg, hmin, rfl⟩
      exact ⟨⟨a, ws.pubKeyForAccount a, acct.stakedBalance⟩,
        (mem_computeActiveValidatorSet hk).mpr ⟨acct, hg, hmin, rfl, rfl⟩,
        rfl, rfl⟩

/-! ## Runs -/

/-- A block at the end of an epoch. -/
def EndsEpoch (params : GenesisConfig) (block : Block) : Prop :=
  params.epochLength > 0 ∧ block.header.height > 0 ∧ block.header.height % params.epochLength = 0

instance (params : GenesisConfig) (block : Block) : Decidable (EndsEpoch params block) :=
  inferInstanceAs (Decidable (_ ∧ _))

/-- What a block does to the set and the epoch, from the state before its last step. -/
theorem applyBlock_epoch {order : Nat → RangeOrder} {block : Block}
    (h : applyBlock E ar params order ws block = .ok ws') :
    ∃ w, beforeEpoch E ar params order ws block = .ok w ∧ ws'.accounts = w.accounts ∧
      if EndsEpoch params block then
        ws'.activeValidators = w.computeActiveValidatorSet (order block.transactions.length) params.minStake ∧
          ws'.currentEpoch = block.header.height / params.epochLength
      else ws'.activeValidators = w.activeValidators ∧ ws'.currentEpoch = w.currentEpoch := by
  obtain ⟨w, hw, rfl⟩ := applyBlock_ok_iff.mp h
  refine ⟨w, hw, ?_⟩
  unfold epochTransition
  split
  · next hends =>
    rw [if_pos (show EndsEpoch params block from hends)]
    exact ⟨rfl, rfl, rfl⟩
  · next hends =>
    rw [if_neg (show ¬ EndsEpoch params block from hends)]
    exact ⟨rfl, rfl, rfl⟩

/-- Who is in the active set, with what. -/
def slots (ws : WorldState) : List (Address × UInt64) := ws.activeValidators.map fun v => (v.address, v.stakedBalance)

theorem EpochGoesOn.slots_eq (h : EpochGoesOn E ws ws') : Drana.slots ws' = Drana.slots ws := by
  unfold Drana.slots
  obtain ⟨hslots, -⟩ := h
  generalize ws.activeValidators = vs at hslots ⊢
  generalize ws'.activeValidators = vs' at hslots ⊢
  induction hslots with
  | nil => rfl
  | cons hv _ ih => rw [List.map_cons, List.map_cons, ih, hv.address, hv.stakedBalance]

/-- Division goes on until the next multiple. -/
theorem div_succ_of_mod_ne {n m l : UInt64} (hn : n.toNat = m.toNat + 1) (hl : 0 < l) (h : n % l ≠ 0) :
    n / l = m / l := by
  have hpos : 0 < l.toNat := UInt64.lt_iff_toNat_lt.mp hl
  have hmod : n.toNat % l.toNat ≠ 0 := by
    intro hc
    refine h (UInt64.toNat_inj.mp ?_)
    rw [UInt64.toNat_mod, hc]
    rfl
  refine UInt64.toNat_inj.mp ?_
  rw [UInt64.toNat_div, UInt64.toNat_div, hn, Nat.succ_div, if_neg]
  · rfl
  · intro hd
    exact hmod (hn ▸ Nat.mod_eq_zero_of_dvd hd)

/-- The epoch of a state at its height. -/
theorem currentEpoch_run {ws₀ : WorldState} (hE : 0 < params.epochLength) (h₀ : initializeState E params = .ok ws₀)
    {bs : List ((Nat → RangeOrder) × Block)} (hc : Consecutive bs) (h : applyBlocks E ar params ws₀ bs = .ok ws) :
    ws.currentEpoch = ws.chainHeight / params.epochLength := by
  have hstart := initializeState_schedule h₀
  have hheight₀ : ws₀.chainHeight = 0 := congrArg Schedule.height hstart
  have hepoch₀ : ws₀.currentEpoch = 0 := congrArg Schedule.epoch hstart
  induction bs using List.reverseRecOn generalizing ws with
  | nil =>
    cases h
    rw [hheight₀, hepoch₀, UInt64.zero_div]
  | append_singleton bs b ih =>
    obtain ⟨w, hw, hb⟩ := applyBlocks_append_ok_iff.mp h
    obtain ⟨x, hx, -, hends⟩ := applyBlock_epoch hb
    rw [applyBlock_height hb]
    split at hends
    · exact hends.2
    · next hnot =>
      have hheight : b.2.header.height.toNat = w.chainHeight.toNat + 1 := by
        rw [applyBlocks_height hheight₀ hc.init hw, hc.last]
      rw [hends.2, (beforeEpoch_goesOn hx).epoch, ih hc.init hw]
      refine (div_succ_of_mod_ne hheight hE fun hmod => hnot ⟨hE, ?_, hmod⟩).symm
      rw [gt_iff_lt, UInt64.lt_iff_toNat_lt, hheight]
      exact Nat.succ_pos _

/-- **Epochs are frozen**: along every run from genesis, a block that does not
end an epoch leaves the addresses and stakes of the active set as they are; one
that does makes the set of the accounts that then have enough at stake, sorted
by address and each once; and the epoch is always the height divided by the
length of an epoch. -/
theorem epoch_freezing {ws₀ : WorldState} (hE : 0 < params.epochLength) (h₀ : initializeState E params = .ok ws₀)
    {bs : List ((Nat → RangeOrder) × Block)} {b : (Nat → RangeOrder) × Block} (hc : Consecutive (bs ++ [b]))
    (h : applyBlocks E .go params ws₀ bs = .ok ws) (hb : applyBlock E .go params b.1 ws b.2 = .ok ws') :
    (¬ params.epochLength.toNat ∣ b.2.header.height.toNat → slots ws' = slots ws) ∧
    (params.epochLength.toNat ∣ b.2.header.height.toNat → Elected params.minStake ws') ∧
    ws.currentEpoch = ws.chainHeight / params.epochLength ∧ ws'.currentEpoch = ws'.chainHeight / params.epochLength := by
  obtain ⟨w, hw, haccounts, hends⟩ := applyBlock_epoch hb
  have hiff : EndsEpoch params b.2 ↔ params.epochLength.toNat ∣ b.2.header.height.toNat := by
    have hmod : b.2.header.height % params.epochLength = 0 ↔ params.epochLength.toNat ∣ b.2.header.height.toNat := by
      rw [← UInt64.toNat_inj, UInt64.toNat_mod, Nat.dvd_iff_mod_eq_zero]
      rfl
    have hpos : b.2.header.height > 0 := by
      rw [gt_iff_lt, UInt64.lt_iff_toNat_lt, hc.last]
      exact Nat.succ_pos _
    rw [EndsEpoch, hmod]
    exact ⟨fun h => h.2.2, fun h => ⟨hE, hpos, h⟩⟩
  refine ⟨fun hnot => ?_, fun hdvd => ?_, currentEpoch_run hE h₀ hc.init h,
    currentEpoch_run hE h₀ hc (applyBlocks_append_ok_iff.mpr ⟨ws, h, hb⟩)⟩
  · rw [if_neg (mt hiff.mp hnot)] at hends
    have hslots := (beforeEpoch_goesOn hw).slots_eq
    rwa [slots, ← hends.1] at hslots
  · rw [if_pos (hiff.mpr hdvd)] at hends
    have hk : Keyed ws := keeps_writes.invariant .refl h |>.keyed (initializeState_fresh h₀).1.keyed
    exact computeActiveValidatorSet_elects ((beforeEpoch_writes hw).keyed hk) haccounts hends.1

section

open Sample

/-- Epochs of two blocks, and fifty to be a validator. -/
def Sample.epochConfig : GenesisConfig := { config with epochLength := 2, minStake := 50 }

theorem Sample.epochGenesis_ok : initializeState env epochConfig = .ok genesis := genesis_ok

def Sample.stake (n : UInt8) (amount nonce : UInt64) : Transaction :=
  signed n { type := 5, sender := address n, pubKey := (key n).publicKey, amount, nonce }

/-- Key 2 stakes sixty in the first block; the second ends an epoch. -/
def Sample.staked : WorldState := (applyBlocks env .go epochConfig genesis [block 1 [stake 2 60 1]]).value

def Sample.joined : WorldState := (applyBlock env .go epochConfig (block 2 []).1 staked (block 2 []).2).value

theorem Sample.staked_run : (applyBlocks env .go epochConfig genesis [block 1 [stake 2 60 1]]).isOk = true ∧
    (applyBlock env .go epochConfig (block 2 []).1 staked (block 2 []).2).isOk = true ∧
    (∀ v ∈ epochConfig.validators, addressFromPublicKey env v.pubKey = v.address) ∧ ¬ CanVote env joined := by
  decide +kernel

theorem Sample.consecutive_staked : Consecutive ([block 1 [stake 2 60 1]] ++ [block 2 []]) := by
  intro i b hi
  match i with
  | 0 =>
    cases hi
    rfl
  | 1 =>
    cases hi
    rfl
  | i + 2 => cases hi

/-- The second block elects. -/
theorem epoch_freezing_joined :
    (¬ epochConfig.epochLength.toNat ∣ (block 2 []).2.header.height.toNat → slots joined = slots staked) ∧
    (epochConfig.epochLength.toNat ∣ (block 2 []).2.header.height.toNat → Elected epochConfig.minStake joined) ∧
    staked.currentEpoch = staked.chainHeight / epochConfig.epochLength ∧
    joined.currentEpoch = joined.chainHeight / epochConfig.epochLength :=
  epoch_freezing (by decide) epochGenesis_ok consecutive_staked (Except.ok_value staked_run.1)
    (Except.ok_value staked_run.2.1)

theorem Sample.joined_run : applyBlocks env .go epochConfig genesis [block 1 [stake 2 60 1], block 2 []] = .ok joined :=
  (@applyBlocks_append_ok_iff env .go epochConfig genesis joined (block 2 []) [block 1 [stake 2 60 1]]).mpr
    ⟨staked, Except.ok_value staked_run.1, Except.ok_value staked_run.2.1⟩

end

/-! ## Keys -/

/-- At the end of an epoch, who has enough at stake is in the set already (or
has the address of the zero key). -/
def NoNewcomers (E : Env) (params : GenesisConfig) (ws : WorldState) (b : (Nat → RangeOrder) × Block) : Prop :=
  EndsEpoch params b.2 → ∀ w, beforeEpoch E .go params b.1 ws b.2 = .ok w →
    ∀ a acct, w.getAccount a = some acct → acct.stakedBalance ≥ params.minStake →
      a ∈ ws.activeValidators.map (·.address) ∨ addressFromPublicKey E .zero = a

theorem CanVote.goesOn (h : CanVote E ws) (hg : EpochGoesOn E ws ws') : CanVote E ws' := by
  obtain ⟨hslots, -⟩ := hg
  unfold CanVote at h ⊢
  generalize ws.activeValidators = vs at hslots h
  generalize ws'.activeValidators = vs' at hslots ⊢
  induction hslots with
  | nil => exact fun _ hv => absurd hv List.not_mem_nil
  | @cons v v' vs vs' hv _ ih =>
    intro u hu
    rcases List.mem_cons.mp hu with rfl | hu
    · rcases hv.pubKey with hsame | hown
      · rw [hsame, hv.address]
        exact h v List.mem_cons_self
      · exact hown
    · exact ih (fun t ht => h t (List.mem_cons_of_mem v ht)) u hu

/-- The key a new set files: of the entry before, or zero. -/
theorem pubKeyForAccount_iff (h : CanVote E ws) : addressFromPublicKey E (ws.pubKeyForAccount a) = a ↔
    a ∈ ws.activeValidators.map (·.address) ∨ addressFromPublicKey E .zero = a := by
  unfold WorldState.pubKeyForAccount
  split
  · next v hv =>
    have hmem := List.mem_of_find?_eq_some hv
    have ha : v.address = a := by simpa using List.find?_some hv
    have hin : a ∈ ws.activeValidators.map (·.address) := List.mem_map.mpr ⟨v, hmem, ha⟩
    rw [h v hmem, ha]
    exact iff_of_true rfl (.inl hin)
  · next hnone =>
    have hnot : a ∉ ws.activeValidators.map (·.address) := by
      intro hin
      obtain ⟨v, hv, ha⟩ := List.mem_map.mp hin
      exact absurd (decide_eq_true ha) (List.find?_eq_none.mp hnone v hv)
    rw [or_iff_right hnot]

/-- A block from a set that can vote leads to one that can, exactly when it brings no newcomer. -/
theorem applyBlock_canVote_iff {b : (Nat → RangeOrder) × Block} (hk : Keyed ws) (hcan : CanVote E ws)
    (h : applyBlock E .go params b.1 ws b.2 = .ok ws') : CanVote E ws' ↔ NoNewcomers E params ws b := by
  obtain ⟨w, hw, -, hends⟩ := applyBlock_epoch h
  have hgoes := beforeEpoch_goesOn hw
  have hcanw := hcan.goesOn hgoes
  have haddrs : w.activeValidators.map (·.address) = ws.activeValidators.map (·.address) := by
    have hslots := congrArg (List.map Prod.fst) hgoes.slots_eq
    simpa [slots, List.map_map, Function.comp_def] using hslots
  unfold NoNewcomers
  split at hends
  · next he =>
    have hkw := (beforeEpoch_writes hw).keyed hk
    unfold CanVote
    rw [hends.1]
    constructor
    · intro hnew _ w' hw' a acct hg hmin
      rw [hw] at hw'
      cases hw'
      have hv := hnew ⟨a, w.pubKeyForAccount a, acct.stakedBalance⟩
        ((mem_computeActiveValidatorSet hkw).mpr ⟨acct, hg, hmin, rfl, rfl⟩)
      rw [← haddrs]
      exact (pubKeyForAccount_iff hcanw).mp hv
    · intro hno v hv
      obtain ⟨acct, hg, hmin, hkey, -⟩ := (mem_computeActiveValidatorSet hkw).mp hv
      rw [hkey]
      refine (pubKeyForAccount_iff hcanw).mpr ?_
      rw [haddrs]
      exact hno he w hw v.address acct hg hmin
  · next hnot =>
    refine iff_of_true (fun v hv => ?_) fun he => absurd he hnot
    rw [hends.1] at hv
    exact hcanw v hv

/-- At genesis the configured keys are filed. -/
theorem initializeState_canVote (hkeys : ∀ v ∈ params.validators, addressFromPublicKey E v.pubKey = v.address)
    (h : initializeState E params = .ok ws) : CanVote E ws := by
  have hvalidators : ws.activeValidators = params.validators.map initialValidator :=
    congrArg Schedule.validators (initializeState_schedule h)
  intro v hv
  rw [hvalidators] at hv
  obtain ⟨g, hg, rfl⟩ := List.mem_map.mp hv
  exact hkeys g hg

/-- **Every active validator has its key in the set**, in all states of a run
from genesis, exactly when no epoch of the run brings a newcomer. -/
theorem validators_can_vote (hkeys : ∀ v ∈ params.validators, addressFromPublicKey E v.pubKey = v.address)
    {ws₀ : WorldState} (h₀ : initializeState E params = .ok ws₀) {bs : List ((Nat → RangeOrder) × Block)}
    (h : applyBlocks E .go params ws₀ bs = .ok ws) :
    (∀ bs' w, bs' <+: bs → applyBlocks E .go params ws₀ bs' = .ok w → CanVote E w) ↔
      Throughout E .go params (NoNewcomers E params) ws₀ bs := by
  have hcan := initializeState_canVote hkeys h₀
  have hk := (initializeState_fresh h₀).1.keyed
  clear h₀
  induction bs generalizing ws₀ with
  | nil =>
    refine iff_of_true (fun bs' w hpre hw => ?_) trivial
    rw [List.prefix_nil.mp hpre] at hw
    cases hw
    exact hcan
  | cons b bs ih =>
    obtain ⟨w, hw, hrest⟩ := applyBlocks_cons_ok_iff.mp h
    have hkw := (applyBlock_writes hw).keyed hk
    rw [Throughout, hw]
    constructor
    · intro hall
      have hcanw := hall [b] w (List.prefix_append [b] bs) (applyBlocks_cons_ok_iff.mpr ⟨w, hw, rfl⟩)
      refine ⟨(applyBlock_canVote_iff hk hcan hw).mp hcanw, (ih hrest hcanw hkw).mp fun bs' x hpre hx => ?_⟩
      exact hall (b :: bs') x (List.cons_prefix_cons.mpr ⟨rfl, hpre⟩) (applyBlocks_cons_ok_iff.mpr ⟨w, hw, hx⟩)
    · rintro ⟨hno, hthere⟩ bs' x hpre hx
      have hcanw := (applyBlock_canVote_iff hk hcan hw).mpr hno
      cases bs' with
      | nil =>
        cases hx
        exact hcan
      | cons b' bs' =>
        obtain ⟨rfl, hpre'⟩ := List.cons_prefix_cons.mp hpre
        obtain ⟨w', hw', hx⟩ := applyBlocks_cons_ok_iff.mp hx
        rw [hw] at hw'
        cases hw'
        exact (ih hrest hcanw hkw).mpr hthere bs' x hpre' hx

section

open Sample

/-- Key 1, a validator, stakes sixty more; the second block ends an epoch. -/
def Sample.raising : List ((Nat → RangeOrder) × Block) := [block 1 [stake 1 60 1], block 2 []]

theorem Sample.raising_run : (applyBlocks env .go epochConfig genesis raising).isOk = true ∧
    ((applyBlocks env .go epochConfig genesis raising).value.activeValidators.map (·.stakedBalance)) = [160] ∧
    ∀ bs' ∈ raising.inits, ∀ w ∈ (applyBlocks env .go epochConfig genesis bs').toOption, CanVote env w := by
  decide +kernel

/-- It can vote all along, and the epoch brings nobody. -/
theorem validators_can_vote_raising :
    (∀ bs' w, bs' <+: raising → applyBlocks env .go epochConfig genesis bs' = .ok w → CanVote env w) ∧
      Throughout env .go epochConfig (NoNewcomers env epochConfig) genesis raising := by
  obtain ⟨hok, -, hall⟩ := raising_run
  have hvotes : ∀ bs' w, bs' <+: raising → applyBlocks env .go epochConfig genesis bs' = .ok w → CanVote env w :=
    fun bs' w hpre h => hall bs' ((List.mem_inits _ _).mpr hpre) w (Except.toOption_eq_some_iff.mpr h)
  exact ⟨hvotes, (validators_can_vote staked_run.2.2.1 epochGenesis_ok (Except.ok_value hok)).mp hvotes⟩

/-- The entry of who joins has no key. -/
theorem newcomer_cannot_vote : (∀ v ∈ epochConfig.validators, addressFromPublicKey env v.pubKey = v.address) ∧
    initializeState env epochConfig = .ok genesis ∧
    applyBlocks env .go epochConfig genesis [block 1 [stake 2 60 1], block 2 []] = .ok joined ∧ ¬ CanVote env joined :=
  ⟨staked_run.2.2.1, epochGenesis_ok, joined_run, staked_run.2.2.2⟩

end

end Drana
