/-
The genesis file (`LoadGenesis` of `internal/genesis`), and whether the state
made from it adds up. The accounts of the file are checked to be distinct; its
validators are not, and a validator listed twice pays its stake twice.

The file's JSON is taken as the value it denotes; a missing member is Go's zero
value. What the modelled code does not read of the configuration is left out.
-/
import Drana.Rpc
import Drana.Conservation

namespace Drana

open Except (orThrow throwIf wrapErr)

variable {E : Env} {cfg : GenesisConfig} {ws w ws' : WorldState} {a : Address} {v : GenesisValidator}

/-! ## The file -/

structure GenesisAccountJson where
  address : String := ""
  balance : UInt64 := 0

structure GenesisValidJson where
  address : String := ""
  pubKey : String := ""
  stake : UInt64 := 0

structure GenesisJson where
  accounts : List GenesisAccountJson := []
  validators : List GenesisValidJson := []
  maxPostLength : Int64 := 0
  maxPostBytes : Int64 := 0
  minPostCommitment : UInt64 := 0
  minBoostCommitment : UInt64 := 0
  maxTxPerBlock : Int64 := 0
  blockReward : UInt64 := 0
  minStake : UInt64 := 0
  epochLength : UInt64 := 0
  unbondingPeriod : UInt64 := 0
  slashFractionDoubleSign : UInt64 := 0
  postFeePercent : UInt64 := 0
  boostBurnPercent : UInt64 := 0
  boostAuthorPercent : UInt64 := 0
  boostStakerPercent : UInt64 := 0

/-- The loop over the accounts, from account `i` on, with the addresses seen. -/
def loadGenesisAccounts (E : Env) : Nat → List Address → List GenesisAccountJson → Except String (List GenesisAccount)
  | _, _, [] => return []
  | i, seen, a :: as => do
    let addr ← wrapErr (s!"account {i}: " ++ ·) (parseAddress E a.address)
    throwIf (addr ∈ seen) s!"account {i}: duplicate address {a.address}"
    let accounts ← loadGenesisAccounts E (i + 1) (addr :: seen) as
    return ⟨addr, a.balance⟩ :: accounts

/-- The loop over the validators, from validator `i` on. The text of the
decoder's error stands for either of its two. -/
def loadGenesisValidators (E : Env) : Nat → List GenesisValidJson → Except String (List GenesisValidator)
  | _, [] => return []
  | i, v :: vs => do
    let addr ← wrapErr (s!"validator {i}: " ++ ·) (parseAddress E v.address)
    let pubBytes ← orThrow (hexDecode v.pubKey) s!"validator {i} pubkey: encoding/hex: invalid hex string"
    throwIf (pubBytes.length ≠ 32) s!"validator {i} pubkey: expected 32 bytes, got {pubBytes.length}"
    let validators ← loadGenesisValidators E (i + 1) vs
    return ⟨addr, ByteArr.copyFrom pubBytes, v.stake⟩ :: validators

/-- `LoadGenesis`, with `os.ReadFile` and `json.Unmarshal`. -/
def loadGenesis (E : Env) (readFile : String → Except String (List UInt8))
    (unmarshal : List UInt8 → Except String GenesisJson) (path : String) : Except String GenesisConfig := do
  let data ← wrapErr ("read genesis: " ++ ·) (readFile path)
  let j ← wrapErr ("parse genesis: " ++ ·) (unmarshal data)
  let accounts ← loadGenesisAccounts E 0 [] j.accounts
  let validators ← loadGenesisValidators E 0 j.validators
  return {
    accounts, validators
    maxPostLength := j.maxPostLength
    maxPostBytes := j.maxPostBytes
    minPostCommitment := j.minPostCommitment
    minBoostCommitment := j.minBoostCommitment
    maxTxPerBlock := j.maxTxPerBlock
    blockReward := j.blockReward
    minStake := j.minStake
    epochLength := j.epochLength
    unbondingPeriod := j.unbondingPeriod
    slashFractionDoubleSign := j.slashFractionDoubleSign
    postFeePercent := j.postFeePercent
    boostBurnPercent := j.boostBurnPercent
    boostAuthorPercent := j.boostAuthorPercent
    boostStakerPercent := j.boostStakerPercent }

/-- The accounts loaded are at distinct addresses. -/
theorem loadGenesisAccounts_nodup {as : List GenesisAccountJson} {i : Nat} {seen : List Address}
    {gs : List GenesisAccount}
    (h : loadGenesisAccounts E i seen as = .ok gs) : (gs.map (·.address)).Nodup ∧ ∀ a ∈ seen, a ∉ gs.map (·.address) := by
  induction as generalizing i seen gs with
  | nil =>
    cases h
    simp
  | cons j as ih =>
    simp only [loadGenesisAccounts, Except.bind_ok_iff, Except.throwIf_ok_iff, Except.pure_ok_iff] at h
    obtain ⟨addr, -, -, hseen, rest, hrest, rfl⟩ := h
    obtain ⟨hnodup, hout⟩ := ih hrest
    refine ⟨List.nodup_cons.mpr ⟨hout addr List.mem_cons_self, hnodup⟩, fun a ha hmem => ?_⟩
    rcases List.mem_cons.mp hmem with rfl | hmem
    · exact hseen ha
    · exact hout a (List.mem_cons_of_mem _ ha) hmem

theorem loadGenesis_accounts {readFile : String → Except String (List UInt8)}
    {unmarshal : List UInt8 → Except String GenesisJson} {path : String}
    (h : loadGenesis E readFile unmarshal path = .ok cfg) : (cfg.accounts.map (·.address)).Nodup := by
  simp only [loadGenesis, Except.bind_ok_iff, Except.pure_ok_iff] at h
  obtain ⟨-, -, j, -, accounts, haccounts, -, -, rfl⟩ := h
  exact (loadGenesisAccounts_nodup haccounts).1

/-! ## What the state adds up to -/

/-- What accounts can spend and what they have staked as validators. -/
def spendableAndStaked (ws : WorldState) : Nat :=
  ws.accounts.total fun _ acct => acct.balance.toNat + acct.stakedBalance.toNat

/-- What the account of an address adds to it. -/
def spendableAndStakedAt (ws : WorldState) (a : Address) : Nat :=
  (ws.getAccount a).elim 0 fun acct => acct.balance.toNat + acct.stakedBalance.toNat

theorem spendableAndStaked_setAccount {acct : Account} :
    spendableAndStaked (ws.setAccount acct) + spendableAndStakedAt ws acct.address =
      spendableAndStaked ws + (acct.balance.toNat + acct.stakedBalance.toNat) :=
  GoMap.total_insert

/-- The loop over the configured accounts adds one account for each. -/
theorem initAccounts_granted {as : List GenesisAccount} {i : Nat} {total : UInt64}
    (hnodup : (as.map (·.address)).Nodup) (hfree : ∀ g ∈ as, ws.getAccount g.address = none)
    (h : initAccounts E i total ws as = .ok ws') :
    spendableAndStaked ws' = spendableAndStaked ws + (as.map (·.balance.toNat)).sum ∧
      ∀ a acct, ws'.getAccount a = some acct →
        ws.getAccount a = some acct ∨ ∃ g ∈ as, acct = { address := g.address, balance := g.balance } := by
  induction as generalizing i total ws with
  | nil =>
    cases h
    exact ⟨rfl, fun a acct hg => .inl hg⟩
  | cons g as ih =>
    simp only [initAccounts, Except.bind_ok_iff] at h
    obtain ⟨-, -, -, -, h⟩ := h
    obtain ⟨hout, hnodup⟩ := List.nodup_cons.mp hnodup
    have hfree' : ∀ g' ∈ as, (ws.setAccount { address := g.address, balance := g.balance }).getAccount g'.address =
        none := by
      intro g' hg'
      have hne : g'.address ≠ g.address := fun heq => hout (List.mem_map.mpr ⟨g', hg', heq⟩)
      rw [WorldState.getAccount_setAccount_ne hne]
      exact hfree g' (List.mem_cons_of_mem _ hg')
    obtain ⟨hsum, hgranted⟩ := ih hnodup hfree' h
    have hnone : spendableAndStakedAt ws g.address = 0 := by
      rw [spendableAndStakedAt, hfree g List.mem_cons_self, Option.elim_none]
    have hone := @spendableAndStaked_setAccount ws { address := g.address, balance := g.balance }
    rw [hnone] at hone
    refine ⟨?_, fun a acct hg => ?_⟩
    · rw [hsum, List.map_cons, List.sum_cons]
      simp only [UInt64.toNat_zero] at hone
      omega
    · rcases hgranted a acct hg with hold | ⟨g', hg', hacct⟩
      · rw [WorldState.getAccount_setAccount] at hold
        split at hold
        · cases hold
          exact .inr ⟨g, List.mem_cons_self, rfl⟩
        · exact .inl hold
      · exact .inr ⟨g', List.mem_cons_of_mem _ hg', hacct⟩

/-- A validator with a stake has an account that covers it. -/
theorem initValidator_cases (h : initValidator ws v = .ok ws') :
    v.stake = 0 ∧ ws' = ws ∨ ∃ acct, 0 < v.stake ∧ ws.getAccount v.address = some acct ∧
    v.stake.toNat ≤ acct.balance.toNat ∧
      ws' = ws.setAccount { acct with balance := acct.balance - v.stake, stakedBalance := v.stake } := by
  unfold initValidator at h
  split at h
  · next hpos =>
    simp only [Except.bind_ok_iff, Except.throwIf_ok_iff, Except.pure_ok_iff] at h
    obtain ⟨-, hle, rfl⟩ := h
    have hle := le_of_not_lt hle
    cases hg : ws.getAccount v.address with
    | some acct =>
      rw [hg] at hle
      exact .inr ⟨acct, hpos, rfl, hle, rfl⟩
    | none =>
      rw [hg] at hle
      have hpos := UInt64.lt_iff_toNat_lt.mp hpos
      simp only [Option.getD_none, UInt64.toNat_zero] at hle hpos
      omega
  · next hzero =>
    cases h
    refine .inl ⟨?_, rfl⟩
    have := le_of_not_lt hzero
    exact UInt64.toNat_inj.mp (by simpa using this)

/-- After the validators `done`: nothing is lost, each with a stake has it as
its account's, taken from what `base` has there, and others' accounts are `base`'s. -/
structure InitiallyStaked (base : WorldState) (done : List GenesisValidator) (ws : WorldState) : Prop where
  keyed : Keyed ws
  sum : spendableAndStaked ws = spendableAndStaked base
  staked : ∀ v ∈ done, 0 < v.stake → ∃ acct old, ws.getAccount v.address = some acct ∧
    base.getAccount v.address = some old ∧ acct.stakedBalance = v.stake ∧
    acct.balance.toNat + v.stake.toNat = old.balance.toNat
  others : ∀ a, a ∉ done.map (·.address) → ws.getAccount a = base.getAccount a

theorem InitiallyStaked.validator {base : WorldState} {done : List GenesisValidator} (h : InitiallyStaked base done ws)
    (hbase : ∀ a acct, base.getAccount a = some acct → acct.stakedBalance = 0)
    (hnew : v.address ∉ done.map (·.address)) (hv : initValidator ws v = .ok ws') :
    InitiallyStaked base (done ++ [v]) ws' := by
  have hother : ∀ {b : Address}, b ∉ (done ++ [v]).map (·.address) → b ∉ done.map (·.address) ∧ b ≠ v.address := by
    intro b hb
    simpa [not_or] using hb
  have hdone : ∀ u ∈ done, u.address ≠ v.address := fun u hu heq => hnew (heq ▸ List.mem_map_of_mem hu)
  rcases initValidator_cases hv with ⟨hzero, rfl⟩ | ⟨acct, hpos, hg, hle, rfl⟩
  · refine ⟨h.keyed, h.sum, fun u hu hstake => ?_, fun b hb => h.others b (hother hb).1⟩
    rcases List.mem_append.mp hu with hu | hu
    · exact h.staked u hu hstake
    · cases List.mem_singleton.mp hu
      simp [hzero] at hstake
  · have haddr : acct.address = v.address := h.keyed.account _ _ hg
    have hold : base.getAccount v.address = some acct := by rw [← h.others _ hnew, hg]
    have hsub : (acct.balance - v.stake).toNat = acct.balance.toNat - v.stake.toNat :=
      UInt64.toNat_sub_of_le _ _ (UInt64.le_iff_toNat_le.mpr hle)
    refine ⟨h.keyed.setAccount, ?_, fun u hu hstake => ?_, fun b hb => ?_⟩
    · have hset := @spendableAndStaked_setAccount ws
        { acct with balance := acct.balance - v.stake, stakedBalance := v.stake }
      have hat : spendableAndStakedAt ws acct.address = acct.balance.toNat := by
        rw [spendableAndStakedAt, haddr, hg, Option.elim_some, hbase _ _ hold, UInt64.toNat_zero, Nat.add_zero]
      simp only [hat, hsub] at hset
      have := h.sum
      omega
    · rcases List.mem_append.mp hu with hu | hu
      · obtain ⟨acct', old, hacct', hrest⟩ := h.staked u hu hstake
        refine ⟨acct', old, ?_, hrest⟩
        rw [WorldState.getAccount_setAccount_ne (haddr ▸ hdone u hu)]
        exact hacct'
      · cases List.mem_singleton.mp hu
        refine ⟨{ acct with balance := acct.balance - v.stake, stakedBalance := v.stake }, acct, ?_, hold, rfl, ?_⟩
        · rw [WorldState.getAccount_setAccount]
          exact if_pos haddr.symm
        · change (acct.balance - v.stake).toNat + v.stake.toNat = _
          omega
    · obtain ⟨hb, hne⟩ := hother hb
      rw [WorldState.getAccount_setAccount_ne (haddr ▸ hne)]
      exact h.others b hb

theorem InitiallyStaked.validators {base : WorldState} {done vs : List GenesisValidator}
    (h : InitiallyStaked base done ws)
    (hbase : ∀ a acct, base.getAccount a = some acct → acct.stakedBalance = 0)
    (hnodup : ((done ++ vs).map (·.address)).Nodup) (hv : vs.foldlM initValidator ws = .ok ws') :
    InitiallyStaked base (done ++ vs) ws' := by
  induction vs generalizing ws done with
  | nil =>
    cases Except.foldlM_nil_ok_iff.mp hv
    rwa [List.append_nil]
  | cons v vs ih =>
    obtain ⟨w, hw, hrest⟩ := Except.foldlM_cons_ok_iff.mp hv
    have hnew : v.address ∉ done.map (·.address) := by
      rw [List.map_append, List.nodup_append] at hnodup
      exact fun hmem => hnodup.2.2 _ hmem _ (List.mem_map_of_mem List.mem_cons_self) rfl
    have := ih (h.validator hbase hnew hw) (by simpa using hnodup) hrest
    simpa using this

/-! ## Consistency -/

/-- Nothing is made or lost, no address is twice in the active set, and each
stake configured is its account's, taken once from what the account was given. -/
structure GenesisConsistent (cfg : GenesisConfig) (ws : WorldState) : Prop where
  sum : spendableAndStaked ws = (cfg.accounts.map (·.balance.toNat)).sum
  distinct : (ws.activeValidators.map (·.address)).Nodup
  staked : ∀ v ∈ cfg.validators, 0 < v.stake → initialValidator v ∈ ws.activeValidators ∧
    ∃ acct, ∃ g ∈ cfg.accounts, g.address = v.address ∧ ws.getAccount v.address = some acct ∧
      acct.stakedBalance = v.stake ∧ acct.balance.toNat + v.stake.toNat = g.balance.toNat

/-- **Genesis is consistent** for a configuration loaded from a file exactly
when it lists no validator twice. -/
theorem genesis_consistent_iff {readFile : String → Except String (List UInt8)}
    {unmarshal : List UInt8 → Except String GenesisJson} {path : String}
    (hload : loadGenesis E readFile unmarshal path = .ok cfg) (h₀ : initializeState E cfg = .ok ws) :
    GenesisConsistent cfg ws ↔ (cfg.validators.map (·.address)).Nodup := by
  have hactive : ws.activeValidators = cfg.validators.map initialValidator := by
    simp only [initializeState, Except.bind_ok_iff, Except.pure_ok_iff] at h₀
    obtain ⟨-, -, -, -, rfl⟩ := h₀
    rfl
  have haddresses : ws.activeValidators.map (·.address) = cfg.validators.map (·.address) := by
    rw [hactive, List.map_map]
    rfl
  refine ⟨fun h => haddresses ▸ h.distinct, fun hnodup => ?_⟩
  simp only [initializeState, Except.bind_ok_iff, Except.pure_ok_iff] at h₀
  obtain ⟨base, hbase, w, hw, rfl⟩ := h₀
  obtain ⟨hsum, hgranted⟩ := initAccounts_granted (loadGenesis_accounts hload) (fun g _ => rfl) hbase
  have hgiven : ∀ a acct, base.getAccount a = some acct →
      ∃ g ∈ cfg.accounts, acct = { address := g.address, balance := g.balance } := by
    intro a acct hg
    rcases hgranted a acct hg with hnone | hg
    · cases hnone
    · exact hg
  have hstart : InitiallyStaked base [] base := ⟨(initAccounts_fresh .empty hbase).keyed, rfl, by simp, fun _ _ => rfl⟩
  have hend := hstart.validators (fun a acct hg => by
    obtain ⟨g, -, rfl⟩ := hgiven a acct hg
    rfl) hnodup hw
  refine ⟨?_, ?_, fun v hv hpos => ⟨List.mem_map_of_mem hv, ?_⟩⟩
  · exact hend.sum.trans (hsum.trans (Nat.zero_add _))
  · rw [haddresses]
    exact hnodup
  · obtain ⟨acct, old, hacct, hold, hstake, hbalance⟩ := hend.staked v hv hpos
    obtain ⟨g, hg, rfl⟩ := hgiven _ _ hold
    refine ⟨acct, g, hg, ?_, hacct, hstake, hbalance⟩
    exact hstart.keyed.account _ _ hold

section

open Sample

/-- A file that grants each of these keys a thousand, and lists the others as
validators with their stakes. -/
def listing (granted : List UInt8) (stakes : List (UInt8 × UInt64)) : GenesisJson where
  accounts := granted.map fun n => ⟨(address n).toString, 1000⟩
  validators := stakes.map fun v => ⟨(address v.1).toString, hexEncode (key v.1).publicKey.toList, v.2⟩

/-- The configuration it denotes. -/
def listed (granted : List UInt8) (stakes : List (UInt8 × UInt64)) : GenesisConfig where
  accounts := granted.map fun n => ⟨address n, 1000⟩
  validators := stakes.map fun v => ⟨address v.1, (key v.1).publicKey, v.2⟩

variable {granted : List UInt8} {stakes : List (UInt8 × UInt64)}

theorem parseAddress_listing (n : UInt8) : parseAddress env (address n).toString = .ok (address n) :=
  parseAddress_toString (addressFromPublicKey_validate _)

theorem listing_accounts {seen : List Address} (hdistinct : (granted.map address).Nodup)
    (hnew : ∀ n ∈ granted, address n ∉ seen) (i : Nat) :
    loadGenesisAccounts env i seen (listing granted stakes).accounts = .ok (listed granted stakes).accounts := by
  induction granted generalizing i seen with
  | nil => rfl
  | cons n granted ih =>
    obtain ⟨hn, hdistinct⟩ := List.nodup_cons.mp hdistinct
    have hlater : ∀ m ∈ granted, address m ∉ address n :: seen := by
      intro m hm hseen
      rcases List.mem_cons.mp hseen with heq | hseen
      · exact hn (heq ▸ List.mem_map_of_mem hm)
      · exact hnew m (List.mem_cons_of_mem _ hm) hseen
    have hrest : loadGenesisAccounts env (i + 1) (address n :: seen) (listing granted stakes).accounts =
        .ok (listed granted stakes).accounts := ih hdistinct hlater (i + 1)
    simp only [listing, listed, List.map_cons, loadGenesisAccounts, parseAddress_listing, wrapErr, throwIf,
      Except.ok_bind, hnew n List.mem_cons_self, if_false] at hrest ⊢
    rw [hrest]
    rfl

theorem listing_validators (i : Nat) :
    loadGenesisValidators env i (listing granted stakes).validators = .ok (listed granted stakes).validators := by
  induction stakes generalizing i with
  | nil => rfl
  | cons v stakes ih =>
    have hrest : loadGenesisValidators env (i + 1) (listing granted stakes).validators =
        .ok (listed granted stakes).validators := ih (i + 1)
    have hlen : (key v.1).publicKey.toList.length = 32 := Vector.length_toList
    simp only [listing, listed, List.map_cons, loadGenesisValidators, parseAddress_listing, wrapErr, throwIf, orThrow,
      Except.ok_bind, hexDecode_encode, hlen, ne_eq, not_true_eq_false, if_false, ByteArr.copyFrom_toList] at hrest ⊢
    rw [hrest]
    rfl

theorem loadGenesis_listing (hdistinct : (granted.map address).Nodup) :
    loadGenesis env (fun _ => .ok []) (fun _ => .ok (listing granted stakes)) "genesis.json" =
      .ok (listed granted stakes) := by
  simp only [loadGenesis, wrapErr, Except.ok_bind, listing_accounts hdistinct (fun _ _ => List.not_mem_nil),
    listing_validators]
  rfl

/-- Two validators, each listed once, are staked once each. -/
theorem genesis_consistent_once :
    GenesisConsistent (listed [1, 2] [(1, 100), (2, 60)])
    (initializeState env (listed [1, 2] [(1, 100), (2, 60)])).value := by
  have h₀ : initializeState env (listed [1, 2] [(1, 100), (2, 60)]) =
      .ok (initializeState env (listed [1, 2] [(1, 100), (2, 60)])).value := Except.ok_value (by decide +kernel)
  exact (genesis_consistent_iff (loadGenesis_listing (by decide +kernel)) h₀).mpr (by decide +kernel)

/-- Key 1, listed twice. -/
def twiceListed : GenesisConfig := listed [1] [(1, 100), (1, 100)]

/-- It pays 200 and has 100 staked. -/
theorem genesis_inconsistent_twice : ∃ ws acct,
    loadGenesis env (fun _ => .ok []) (fun _ => .ok (listing [1] [(1, 100), (1, 100)])) "genesis.json" = .ok twiceListed ∧
    initializeState env twiceListed = .ok ws ∧ ws.getAccount (address 1) = some acct ∧
    acct.balance = 800 ∧ acct.stakedBalance = 100 ∧ ¬ GenesisConsistent twiceListed ws := by
  have hrun : (initializeState env twiceListed).isOk = true ∧
      (initializeState env twiceListed).value.getAccount (address 1) =
        some { address := address 1, balance := 800, stakedBalance := 100 } ∧
      (((initializeState env twiceListed).value.activeValidators.map (·.address)) = [address 1, address 1]) := by
    decide +kernel
  refine ⟨_, _, loadGenesis_listing (List.nodup_singleton _), Except.ok_value hrun.1, hrun.2.1, rfl, rfl, fun h => ?_⟩
  have := h.distinct
  rw [hrun.2.2] at this
  simp at this

end

end Drana
