/-
Two runs side by side. `ApplyBlock` reads neither the post-staked balances nor,
without evidence, the slashing record, and its result does not depend on the
order in which maps are ranged over: twins have twins as successors.
-/
import Drana.Twins
import Drana.StateRoot
import Drana.Reboots

namespace Drana

open Except (Both orThrow)

variable {E : Env} {ar : Arith} {params : GenesisConfig} {ws ws' : WorldState} {tx : Transaction}
  {keep : Bool} {S : Set (Address × UInt64)} {a : Address} {acct : Account}

/-! ## Validation -/

theorem account_reader (h : Twin keep S ws ws') (a : Address) (e : String) :
    Both (SameAccount keep) (orThrow (ws.reader.getAccount a) e) (orThrow (ws'.reader.getAccount a) e) :=
  .orThrow (h.account a) e

theorem validateCommonNoBalanceCheck_twin (h : Twin keep S ws ws') :
    Both (SameAccount keep) (validateCommonNoBalanceCheck E tx ws.reader)
    (validateCommonNoBalanceCheck E tx ws'.reader) := by
  unfold validateCommonNoBalanceCheck
  refine .bind (.eq _) fun _ _ _ _ _ => .bind (.eq _) fun _ _ _ _ _ => ?_
  refine .bind (account_reader h tx.sender _) fun acct acct' _ _ hacct => ?_
  obtain ⟨q, rfl, hq⟩ := hacct
  exact .bind (.eq _) fun _ _ _ _ _ => ⟨q, rfl, hq⟩

theorem validateCommon_twin (h : Twin keep S ws ws') :
    Both (SameAccount keep) (validateCommon E tx ws.reader) (validateCommon E tx ws'.reader) := by
  unfold validateCommon
  refine .bind (validateCommonNoBalanceCheck_twin h) fun acct acct' _ _ hacct => ?_
  obtain ⟨q, rfl, hq⟩ := hacct
  exact .bind (.eq _) fun _ _ _ _ _ => ⟨q, rfl, hq⟩

theorem validateTransaction_twin (h : Twin keep S ws ws') :
    Both Eq (validateTransaction E tx ws.reader params) (validateTransaction E tx ws'.reader params) := by
  have hpost : ws'.reader.getPost = ws.reader.getPost := funext h.getPost
  have hstake : ws'.reader.getPostStake = ws.reader.getPostStake := funext fun p => funext fun a => h.getPostStake p a
  unfold validateTransaction
  split
  · unfold validateTransfer
    refine .bind (.eq _) fun _ _ _ _ _ => .bind (.eq _) fun _ _ _ _ _ => .bind (.eq _) fun _ _ _ _ _ => ?_
    exact .bind (validateCommon_twin h) fun _ _ _ _ _ => rfl
  · unfold validateCreatePost validateParent
    rw [hpost]
    refine .bind (.eq _) fun _ _ _ _ _ => .bind (.eq _) fun _ _ _ _ _ => .bind (.eq _) fun _ _ _ _ _ => ?_
    exact .bind (.eq _) fun _ _ _ _ _ => .bind (validateCommon_twin h) fun _ _ _ _ _ => rfl
  · unfold validateBoostPost
    rw [hpost]
    refine .bind (.eq _) fun _ _ _ _ _ => .bind (.eq _) fun post post' _ _ hp => ?_
    subst hp
    exact .bind (.eq _) fun _ _ _ _ _ => .bind (validateCommon_twin h) fun _ _ _ _ _ => rfl
  · unfold validateRegisterName
    refine .bind (.eq _) fun _ _ _ _ _ => .bind (.eq _) fun _ _ _ _ _ => ?_
    refine .bind (validateCommon_twin h) fun acct acct' _ _ hacct => ?_
    obtain ⟨q, rfl, -⟩ := hacct
    refine .bind (.eq _) fun _ _ _ _ _ => .throwIf ?_ _
    change (ws.getAccountByName tx.text).isSome = true ↔ (ws'.getAccountByName tx.text).isSome = true
    rw [h.taken_iff]
  · unfold validateStake
    refine .bind (.eq _) fun _ _ _ _ _ => .bind (validateCommon_twin h) fun acct acct' _ _ hacct => ?_
    obtain ⟨q, rfl, -⟩ := hacct
    exact .eq _
  · unfold validateUnstake
    refine .bind (.eq _) fun _ _ _ _ _ => .bind (validateCommonNoBalanceCheck_twin h) fun acct acct' _ _ hacct => ?_
    obtain ⟨q, rfl, -⟩ := hacct
    exact .eq _
  · unfold validateUnstakePost
    rw [hpost, hstake]
    exact .bind (validateCommonNoBalanceCheck_twin h) fun _ _ _ _ _ => .eq _
  · exact .eq _

/-! ## Transactions -/

/-- The sender's two records. -/
theorem sender_twin (h : Twin keep S ws ws') (a : Address) (e : String) :
    Both (SameAccount keep) (orThrow (ws.getAccount a) e) (orThrow (ws'.getAccount a) e) := .orThrow (h.account a) e

theorem applyTransfer_twin (h : Twin keep S ws ws') :
    Both (Twin keep S) (applyTransfer ar ws tx) (applyTransfer ar ws' tx) := by
  unfold applyTransfer
  refine .bind (sender_twin h tx.sender _) fun acct acct' _ _ hacct => ?_
  obtain ⟨q, rfl, hq⟩ := hacct
  refine .bind (.eq _) fun _ _ _ _ _ => .bind (.eq _) fun balance balance' _ _ hb => ?_
  refine .bind (.eq _) fun nonce nonce' _ _ hn => ?_
  subst hb hn
  exact depositAccount_twin (h.write { acct with balance, nonce } hq) tx.amount

theorem applyStake_twin (h : Twin keep S ws ws') :
    Both (Twin keep S) (applyStake ar ws tx) (applyStake ar ws' tx) := by
  unfold applyStake
  refine .bind (sender_twin h tx.sender _) fun acct acct' _ _ hacct => ?_
  obtain ⟨q, rfl, hq⟩ := hacct
  refine .bind (.eq _) fun _ _ _ _ _ => .bind (.eq _) fun balance balance' _ _ hb => ?_
  refine .bind (.eq _) fun staked staked' _ _ hs => .bind (.eq _) fun nonce nonce' _ _ hn => ?_
  subst hb hs hn
  exact (h.write { acct with balance, stakedBalance := staked, nonce } hq).setValidatorPubKey tx.sender tx.pubKey

theorem applyUnstake_twin (h : Twin keep S ws ws') (height : UInt64) :
    Both (Twin keep S) (applyUnstake ar params ws tx height) (applyUnstake ar params ws' tx height) := by
  unfold applyUnstake
  refine .bind (sender_twin h tx.sender _) fun acct acct' _ _ hacct => ?_
  obtain ⟨q, rfl, hq⟩ := hacct
  refine .bind (.eq _) fun _ _ _ _ _ => .bind (.eq _) fun staked staked' _ _ hs => ?_
  refine .bind (.eq _) fun nonce nonce' _ _ hn => .bind (.eq _) fun release release' _ _ hr => ?_
  subst hs hn hr
  exact (h.write { acct with stakedBalance := staked, nonce } hq).addUnbondingEntry _

theorem applyRegisterName_twin (h : Twin keep S ws ws') :
    Both (Twin keep S) (applyRegisterName ar ws tx) (applyRegisterName ar ws' tx) := by
  unfold applyRegisterName
  refine .bind (sender_twin h tx.sender _) fun acct acct' _ _ hacct => ?_
  obtain ⟨q, rfl, hq⟩ := hacct
  refine .bind (.eq _) fun nonce nonce' _ _ hn => ?_
  subst hn
  exact (h.write { acct with nonce, name := tx.text } hq).registerName tx.sender tx.text

/-- Go's arithmetic never stops. -/
theorem bind_add_go {α : Type} {x y : UInt64} {f : UInt64 → Except String α} : (Arith.go.add x y >>= f) = f (x + y) := rfl

theorem bind_sub_go {α : Type} {x y : UInt64} {f : UInt64 → Except String α} : (Arith.go.sub x y >>= f) = f (x - y) := rfl

theorem applyCreatePost_twin (h : Twin keep S ws ws') (height : UInt64) (time : Int64) :
    Both (Twin keep S) (applyCreatePost E .go params ws tx height time)
    (applyCreatePost E .go params ws' tx height time) := by
  unfold applyCreatePost
  refine .bind (sender_twin h tx.sender _) fun acct acct' _ _ hacct => ?_
  obtain ⟨q, rfl, hq⟩ := hacct
  refine .bind (.eq _) fun _ _ _ _ _ => ?_
  simp only [bind_add_go, bind_sub_go, h.burnedSupply]
  refine Twin.setBurned (((h.setAccount ?_).setPost _).setPostStake _) _
  exact ⟨q + (tx.amount - postFee params tx.amount), rfl, fun hk => by rw [hq hk]⟩

theorem addBoostStake_twin (h : Twin keep S ws ws') (post : Post) (n height : UInt64) :
    Both (Twin keep S) (addBoostStake ar ws post tx n height) (addBoostStake ar ws' post tx n height) := by
  unfold addBoostStake
  rw [h.getPostStake]
  split
  · refine .bind (.eq _) fun amount amount' _ _ ha => ?_
    subst ha
    exact (h.setPostStake _).setPost _
  · refine .bind (.eq _) fun count count' _ _ hc => ?_
    subst hc
    exact (h.setPostStake _).setPost _

theorem applyBoostPost_twin (hk : Keyed ws) (h : Twin keep S ws ws') (ord ord' : RangeOrder) (height : UInt64) :
    Both (Twin keep S) (applyBoostPost .go params ord ws tx height) (applyBoostPost .go params ord' ws' tx height) := by
  unfold applyBoostPost
  refine .bind (sender_twin h tx.sender _) fun acct acct' hg _ hacct => ?_
  obtain ⟨q, rfl, hq⟩ := hacct
  have hg : ws.getAccount tx.sender = some acct := Except.orThrow_ok_iff.mp hg
  rw [h.getPost]
  refine .bind (.eq _) fun _ _ _ _ _ => .bind (.eq _) fun post post' _ _ hp => .bind (.eq _) fun staked staked' _ _ hs =>
    ?_
  subst hp hs
  simp only [bind_add_go, bind_sub_go, WorldState.setAccount_burnedSupply, h.burnedSupply]
  have hsame : SameAccount keep
      { acct with balance := acct.balance - tx.amount, postStakeBalance := acct.postStakeBalance + staked
                  nonce := acct.nonce + 1 }
      { acct with balance := acct.balance - tx.amount, postStakeBalance := q + staked, nonce := acct.nonce + 1 } :=
    ⟨q + staked, rfl, fun hk => by rw [hq hk]⟩
  have hsent := (h.setAccount hsame).setBurned (ws.burnedSupply + burnAmount params tx.amount)
  have hk₀ : Keyed { ws.setAccount
      { acct with balance := acct.balance - tx.amount, postStakeBalance := acct.postStakeBalance + staked
                  nonce := acct.nonce + 1 } with burnedSupply := ws.burnedSupply + burnAmount params tx.amount } :=
    hk.setAccount.congr rfl rfl rfl
  refine .bind (payAuthor_twin hsent _) fun w₁ w₁' hw₁ _ h₁ => ?_
  refine .bind (payStakers_twin ((payAuthor_writes hw₁).keyed hk₀) h₁ ord ord' post tx.postID _)
    fun w₂ w₂' _ _ h₂ => ?_
  exact addBoostStake_twin h₂ _ staked height

theorem applyUnstakePost_twin (hk : Keyed ws) (h : Twin keep S ws ws') (ord ord' : RangeOrder) :
    Both (Twin keep S) (applyUnstakePost .go ord ws tx) (applyUnstakePost .go ord' ws' tx) := by
  unfold applyUnstakePost
  refine .bind (sender_twin h tx.sender _) fun acct acct' hg _ hacct => ?_
  obtain ⟨q, rfl, hq⟩ := hacct
  have hg : ws.getAccount tx.sender = some acct := Except.orThrow_ok_iff.mp hg
  rw [h.getPost, h.getPostStake]
  refine .bind (.eq _) fun stake stake' _ _ hs => .bind (.eq _) fun post post' _ _ hp => ?_
  subst hs hp
  simp only [bind_add_go, bind_sub_go]
  have hsame : SameAccount keep
      { acct with balance := acct.balance + stake.amount, postStakeBalance := acct.postStakeBalance - stake.amount
                  nonce := acct.nonce + 1 }
      { acct with balance := acct.balance + stake.amount, postStakeBalance := q - stake.amount
                  nonce := acct.nonce + 1 } :=
    ⟨q - stake.amount, rfl, fun hk => by rw [hq hk]⟩
  have hsent := (h.setAccount hsame).removePostStake tx.postID tx.sender
  have hk₀ : Keyed ((ws.setAccount
      { acct with balance := acct.balance + stake.amount, postStakeBalance := acct.postStakeBalance - stake.amount
                  nonce := acct.nonce + 1 }).removePostStake tx.postID tx.sender) := hk.setAccount.removePostStake
  split
  · refine .bind (forceUnstakes_twin hk₀ hsent (getPostStakers_perm hsent ord ord' tx.postID) tx.postID _)
      fun acc acc' _ _ hacc => ?_
    obtain ⟨w₁, post₁⟩ := acc
    obtain ⟨w₂, post₂⟩ := acc'
    obtain ⟨htwin, hpost⟩ := hacc
    have hpost : post₂ = post₁ := hpost
    subst hpost
    exact htwin.setPost _
  · exact hsent.setPost _

theorem executeTransaction_twin (hk : Keyed ws) (h : Twin keep S ws ws') (ord ord' : RangeOrder) (header : BlockHeader)
    (i : Nat) : Both (Twin keep S) (executeTransaction E .go params ord header i ws tx)
      (executeTransaction E .go params ord' header i ws' tx) := by
  unfold executeTransaction
  refine .bind (.wrapErr (validateTransaction_twin h)) fun _ _ _ _ _ => .wrapErr ?_
  unfold applyTransaction
  split
  · exact applyTransfer_twin h
  · exact applyCreatePost_twin h header.height header.timestamp
  · exact applyBoostPost_twin hk h ord ord' header.height
  · exact applyUnstakePost_twin hk h ord ord'
  · exact applyRegisterName_twin h
  · exact applyStake_twin h
  · exact applyUnstake_twin h header.height
  · rfl

theorem executeTransactions_twin (order order' : Nat → RangeOrder) (header : BlockHeader) {txs : List Transaction}
    {i : Nat} (hk : Keyed ws) (h : Twin keep S ws ws') :
    Both (Twin keep S) (executeTransactions E .go params order header i ws txs)
      (executeTransactions E .go params order' header i ws' txs) := by
  induction txs generalizing i ws ws' with
  | nil => exact h
  | cons tx txs ih =>
    refine .bind (executeTransaction_twin hk h (order i) (order' i) header i) fun w w' hw _ htwin => ?_
    exact ih ((executeTransaction_writes hw).keyed hk) htwin

theorem executeTransactions_writes {order : Nat → RangeOrder} {header : BlockHeader} {txs : List Transaction} {i : Nat}
    (h : executeTransactions E ar params order header i ws txs = .ok ws') : Writes ws ws' := by
  induction txs generalizing i ws with
  | nil =>
    cases h
    exact .refl
  | cons tx txs ih =>
    obtain ⟨w, hw, hrest⟩ := Except.bind_ok_iff.mp h
    exact (executeTransaction_writes hw).trans (ih hrest)

/-! ## Evidence -/

theorem hasBeenSlashed_twin (h : Twin keep S ws ws') {height : UInt64} (hS : (a, height) ∈ S) :
    ws'.hasBeenSlashed a height = ws.hasBeenSlashed a height := by
  simp only [WorldState.hasBeenSlashed, h.slashRecord _ hS]

theorem stakeAtRisk_twin (h : Twin keep S ws ws') (a : Address) : stakeAtRisk ws' a = stakeAtRisk ws a := by
  rw [stakeAtRisk, stakeAtRisk, h.unbondingQueue]
  rcases h.cases a with ⟨h₁, h₂⟩ | ⟨acct, q, h₁, h₂, -⟩
  · rw [h₁, h₂]
  · rw [h₁, h₂]
    rfl

theorem unbondingBalanceFor_twin (h : Twin keep S ws ws') (a : Address) :
    ws'.unbondingBalanceFor ar a = ws.unbondingBalanceFor ar a := by
  rw [WorldState.unbondingBalanceFor, WorldState.unbondingBalanceFor, h.unbondingQueue]

theorem slashRest_twin (h : Twin keep S ws ws') (a : Address) (n : UInt64) :
    Both (Twin keep S) (slashRest ar ws a n) (slashRest ar ws' a n) := by
  unfold slashRest
  split
  · unfold WorldState.slashUnbonding
    rw [h.unbondingQueue]
    refine .bind (.eq _) fun q q' _ _ hq => ?_
    subst hq
    exact h.setQueue _
  · exact h

theorem recordSlash_twin (h : Twin keep S ws ws') (a : Address) (height : UInt64) :
    Twin keep S (ws.recordSlash a height) (ws'.recordSlash a height) :=
  { h with
    slashRecord := by
      intro x hx
      rw [WorldState.recordSlash_slashRecord, WorldState.recordSlash_slashRecord, Finset.mem_insert, Finset.mem_insert,
        h.slashRecord x hx] }

theorem slashAccount_twin (h : Twin keep S ws ws') {q : UInt64} (hq : keep = true → q = acct.postStakeBalance)
    (height n : UInt64) : Both (Twin keep S) (slashAccount ar params ws a height acct n)
      (slashAccount ar params ws' a height { acct with postStakeBalance := q } n) := by
  unfold slashAccount
  refine .bind (.eq _) fun staked staked' _ _ hs => .bind (.eq _) fun rest rest' _ _ hr => ?_
  subst hs hr
  refine .bind (slashRest_twin (h.write { acct with stakedBalance := staked } hq) a rest) fun w w' _ _ hw => ?_
  have hrec := recordSlash_twin hw a height
  dsimp only
  rw [hrec.burnedSupply]
  refine .bind (.eq _) fun burned burned' _ _ hb => ?_
  subst hb
  exact hrec.setBurned burned

/-- Evidence of an offence on one record only, against who has nothing at risk, does nothing. -/
theorem applySlashEvidence_nothing {ev : SlashEvidence} (h₀ : stakeAtRisk ws ev.offence.1 = 0) :
    applySlashEvidence E .go params ws ev = .ok ws := by
  unfold applySlashEvidence
  dsimp only
  split
  · rfl
  · split
    · rfl
    · split
      · rfl
      · next acct hg =>
        have hloop : ∀ (q : List UnbondingEntry) (t : UInt64), ∃ r, q.foldlM (fun total e =>
            if e.address = ev.voteA.voterAddr then Arith.go.add total e.amount else .ok total) t = .ok r := by
          intro q
          induction q with
          | nil => exact fun t => ⟨t, rfl⟩
          | cons e q ih =>
            intro t
            rw [List.foldlM_cons]
            split
            · exact ih (t + e.amount)
            · exact ih t
        obtain ⟨unbonding, hu⟩ := hloop ws.unbondingQueue 0
        have hu : ws.unbondingBalanceFor .go ev.voteA.voterAddr = .ok unbonding := hu
        have htotal := totalAtRisk_zero hg hu rfl h₀
        rw [hu]
        change (if acct.stakedBalance + unbonding = 0 then _ else _) = _
        rw [if_pos htotal]
        rfl

theorem applySlashEvidence_twin (h : Twin keep S ws ws') {ev : SlashEvidence}
    (hev : ev.isValid E = true → ev.offence ∉ S → stakeAtRisk ws ev.offence.1 = 0) :
    Both (Twin keep S) (applySlashEvidence E .go params ws ev) (applySlashEvidence E .go params ws' ev) := by
  by_cases hS : ev.isValid E = true ∧ ev.offence ∉ S
  · have h₀ := hev hS.1 hS.2
    rw [applySlashEvidence_nothing h₀, applySlashEvidence_nothing ((stakeAtRisk_twin h _).trans h₀)]
    exact h
  · unfold applySlashEvidence
    dsimp only
    cases hv : ev.isValid E with
    | false => exact h
    | true =>
      have hoff : ev.offence ∈ S := by
        by_contra hn
        exact hS ⟨hv, hn⟩
      rw [hasBeenSlashed_twin h hoff]
      split
      · exact h
      · split
        · exact h
        · rcases h.cases ev.voteA.voterAddr with ⟨h₁, h₂⟩ | ⟨acct, q, h₁, h₂, hq⟩
          · simp only [h₁, h₂]
            exact h
          · simp only [h₁, h₂, unbondingBalanceFor_twin h]
            refine .bind (.eq _) fun u u' _ _ hu => ?_
            subst hu
            refine .bind (.eq _) fun t t' _ _ ht => ?_
            subst ht
            split
            · exact h
            · exact slashAccount_twin h hq _ _

/-- A list of evidence, none of it on one record only and against who has something at risk. -/
theorem processEvidence_twin {lost : Finset (Address × UInt64)} {evs : List SlashEvidence}
    (h : Twin keep {x | x ∉ lost} ws ws') (hn : NoneForgotten E params lost ws evs) :
    Both (Twin keep {x | x ∉ lost}) (processEvidence E .go params ws evs) (processEvidence E .go params ws' evs) := by
  induction evs generalizing ws ws' with
  | nil => exact h
  | cons ev evs ih =>
    obtain ⟨hev, hrest⟩ := hn
    unfold processEvidence
    rw [List.foldlM_cons, List.foldlM_cons]
    have hstep : Both (Twin keep {x | x ∉ lost}) (applySlashEvidence E .go params ws ev)
        (applySlashEvidence E .go params ws' ev) :=
      applySlashEvidence_twin h fun hv hl => hev hv (by simpa using hl)
    refine .bind hstep fun w w' hw _ htwin => ?_
    rw [hw] at hrest
    exact ih htwin hrest

/-! ## Blocks -/

theorem releaseMatured_twin (h : Twin keep S ws ws') (height : UInt64) :
    Both (Twin keep S) (releaseMatured ar ws height) (releaseMatured ar ws' height) := by
  unfold releaseMatured WorldState.removeMaturedUnbonding
  rw [h.unbondingQueue]
  exact .foldlM (fun e _ w w' hw => depositAccount_twin hw e.amount) (h.setQueue _)

theorem issueReward_twin (h : Twin keep S ws ws') (a : Address) :
    Both (Twin keep S) (issueReward ar params ws a) (issueReward ar params ws' a) := by
  unfold issueReward
  split
  · refine .bind (depositAccount_twin h params.blockReward) fun w w' _ _ hw => ?_
    rw [hw.issuedSupply]
    refine .bind (.eq _) fun issued issued' _ _ hi => ?_
    subst hi
    exact { hw with issuedSupply := rfl }
  · exact h

/-- The insertion sort of `sortValidatorSet`, its prefix held last element first. -/
theorem sortValidatorSet_eq (vs : List ValidatorStake) : sortValidatorSet vs =
    (vs.reverse.insertionSort fun v u => v.address.toList ≥ u.address.toList).reverse := by
  have hinsert : ∀ v sorted, insertValidator v sorted =
      sorted.orderedInsert (fun v u => v.address.toList ≥ u.address.toList) v := by
    intro v sorted
    induction sorted with
    | nil => rfl
    | cons u us ih =>
      rw [insertValidator, List.orderedInsert_cons, compareAddrs, ih]
      by_cases hlt : v.address.toList < u.address.toList
      · rw [if_pos (compareBytes_neg_iff.mpr hlt), if_neg (List.not_le.mpr hlt)]
      · rw [if_neg (fun hc => hlt (compareBytes_neg_iff.mp hc)), if_pos (List.not_lt.mp hlt)]
  rw [sortValidatorSet, ← List.foldr_reverse]
  congr 1
  generalize vs.reverse = l
  induction l with
  | nil => rfl
  | cons v l ih => rw [List.foldr_cons, ih, hinsert, List.insertionSort_cons]

/-- A set of validators with distinct addresses is sorted one way. -/
theorem sortValidatorSet_perm {vs vs' : List ValidatorStake} (hp : vs.Perm vs')
    (haddr : ∀ v ∈ vs, ∀ u ∈ vs, v.address = u.address → v = u) : sortValidatorSet vs = sortValidatorSet vs' := by
  have : Std.Total fun v u : ValidatorStake => v.address.toList ≥ u.address.toList :=
    ⟨fun v u => List.le_total u.address.toList v.address.toList⟩
  have : IsTrans ValidatorStake fun v u => v.address.toList ≥ u.address.toList :=
    ⟨fun v u t hvu hut => List.le_trans hut hvu⟩
  rw [sortValidatorSet_eq, sortValidatorSet_eq]
  congr 1
  have hs := List.perm_insertionSort (fun v u : ValidatorStake => v.address.toList ≥ u.address.toList) vs.reverse
  have hs' := List.perm_insertionSort (fun v u : ValidatorStake => v.address.toList ≥ u.address.toList) vs'.reverse
  have hreverse : vs.reverse.Perm vs'.reverse := (List.reverse_perm vs).trans (hp.trans (List.reverse_perm vs').symm)
  refine (hs.trans (hreverse.trans hs'.symm)).eq_of_pairwise (fun v u hv hu hvu huv => ?_)
    (List.pairwise_insertionSort _ _) (List.pairwise_insertionSort _ _)
  have hv : v ∈ vs := List.mem_reverse.mp (hs.mem_iff.mp hv)
  have hu : u ∈ vs := hp.mem_iff.mpr (List.mem_reverse.mp (hs'.mem_iff.mp hu))
  exact haddr v hv u hu (ByteArr.toList_inj (List.le_antisymm huv hvu))

/-- Who is in the new active set. -/
theorem mem_candidates (hk : Keyed ws) {ord : RangeOrder} {minStake : UInt64} {v : ValidatorStake} :
    v ∈ (ws.allAccounts ord).filterMap (fun acct =>
      if acct.stakedBalance ≥ minStake then
        some ⟨acct.address, ws.pubKeyForAccount acct.address, acct.stakedBalance⟩
      else none) ↔
      ∃ acct, ws.getAccount v.address = some acct ∧ acct.stakedBalance ≥ minStake ∧
        v.pubKey = ws.pubKeyForAccount v.address ∧ v.stakedBalance = acct.stakedBalance := by
  simp only [WorldState.allAccounts, List.mem_filterMap, List.mem_map]
  constructor
  · intro h
    obtain ⟨acct, ⟨e, he, rfl⟩, hv⟩ := h
    have hg : ws.getAccount e.1 = some e.2 := MapRange.mem_list.mp he
    have haddr := hk.account _ _ hg
    split at hv
    · next hmin =>
      cases hv
      refine ⟨e.2, ?_, hmin, rfl, rfl⟩
      rw [haddr]
      exact hg
    · cases hv
  · intro h
    obtain ⟨acct, hg, hmin, hkey, hstake⟩ := h
    refine ⟨acct, ⟨(v.address, acct), MapRange.mem_list.mpr hg, rfl⟩, ?_⟩
    rw [if_pos hmin, hk.account _ _ hg, ← hkey, ← hstake]

/-- An account stands once. -/
theorem candidates_inj (hk : Keyed ws) {ord : RangeOrder} {minStake : UInt64} {v u : ValidatorStake}
    (hv : v ∈ (ws.allAccounts ord).filterMap (fun acct =>
      if acct.stakedBalance ≥ minStake then
        some ⟨acct.address, ws.pubKeyForAccount acct.address, acct.stakedBalance⟩
      else none))
    (hu : u ∈ (ws.allAccounts ord).filterMap (fun acct =>
      if acct.stakedBalance ≥ minStake then
        some ⟨acct.address, ws.pubKeyForAccount acct.address, acct.stakedBalance⟩
      else none)) (he : v.address = u.address) : v = u := by
  obtain ⟨acct, hg, -, hpub, hstake⟩ := (mem_candidates hk).mp hv
  obtain ⟨acct', hg', -, hpub', hstake'⟩ := (mem_candidates hk).mp hu
  rw [← he, hg] at hg'
  cases hg'
  rw [← he] at hpub'
  cases v
  cases u
  simp only at he hpub hpub' hstake hstake'
  simp [he, hpub, hpub', hstake, hstake']

theorem nodup_candidates (hk : Keyed ws) {ord : RangeOrder} {minStake : UInt64} :
    ((ws.allAccounts ord).filterMap (fun acct =>
      if acct.stakedBalance ≥ minStake then
        some (⟨acct.address, ws.pubKeyForAccount acct.address, acct.stakedBalance⟩ : ValidatorStake)
      else none)).Nodup := by
  have hkeys : ((ws.allAccounts ord).map Account.address) = (ord.accounts.list ws.accounts).map Prod.fst := by
    rw [WorldState.allAccounts, List.map_map]
    exact List.map_congr_left fun e he => hk.account e.1 e.2 (MapRange.mem_list.mp he)
  have hnodup : ((ws.allAccounts ord).map Account.address).Nodup := hkeys ▸ MapRange.nodup_keys
  refine (List.pairwise_map.mp hnodup).filterMap _ fun x y hxy v hv u hu he => hxy ?_
  subst he
  simp only [Option.ite_none_right_eq_some, Option.some.injEq] at hv hu
  obtain ⟨-, rfl⟩ := hv
  exact (congrArg ValidatorStake.address hu.2).symm

theorem computeActiveValidatorSet_twin (hk : Keyed ws) (hk' : Keyed ws') (h : Twin keep S ws ws')
    (ord ord' : RangeOrder) (minStake : UInt64) :
    ws'.computeActiveValidatorSet ord' minStake = ws.computeActiveValidatorSet ord minStake := by
  have hkey : ∀ a, ws'.pubKeyForAccount a = ws.pubKeyForAccount a := by
    intro a
    rw [WorldState.pubKeyForAccount, WorldState.pubKeyForAccount, h.activeValidators]
  refine (sortValidatorSet_perm ?_ fun v hv u hu he => ?_).symm
  · refine (List.perm_ext_iff_of_nodup (nodup_candidates hk) (nodup_candidates hk')).mpr fun v => ?_
    rw [mem_candidates hk, mem_candidates hk', hkey]
    rcases h.cases v.address with ⟨h₁, h₂⟩ | ⟨acct, q, h₁, h₂, -⟩
    · simp [h₁, h₂]
    · simp [h₁, h₂]
  · exact candidates_inj hk hv hu he

theorem epochTransition_twin (hk : Keyed ws) (hk' : Keyed ws') (h : Twin keep S ws ws') (ord ord' : RangeOrder)
    (height : UInt64) :
    Twin keep S (epochTransition params ord ws height) (epochTransition params ord' ws' height) := by
  unfold epochTransition
  split
  · exact { h with
      activeValidators := computeActiveValidatorSet_twin hk hk' h ord ord' params.minStake
      currentEpoch := rfl }
  · exact h

theorem Twin.keyed (h : Twin keep S ws ws') (hk : Keyed ws) : Keyed ws' where
  account a acct' hg := by
    rcases h.cases a with ⟨-, h₂⟩ | ⟨acct, q, h₁, h₂, -⟩
    · rw [h₂] at hg
      cases hg
    · rw [h₂] at hg
      cases hg
      exact hk.account a acct h₁
  post p post hg := hk.post p post (h.getPost p ▸ hg)
  stake p a s hg := hk.stake p a s (h.getPostStake p a ▸ hg)

/-- **A block has one outcome on twins**, in whatever orders the two nodes range
over their maps, unless it brings evidence of an offence only one has on record. -/
theorem applyBlock_twin {lost : Finset (Address × UInt64)} (hk : Keyed ws) (h : Twin keep {x | x ∉ lost} ws ws')
    {order order' : Nat → RangeOrder} {block : Block}
    (hn : ∀ w, releaseMatured .go ws block.header.height = .ok w → NoneForgotten E params lost w block.evidence) :
    Both (Twin keep {x | x ∉ lost}) (applyBlock E .go params order ws block)
    (applyBlock E .go params order' ws' block) := by
  unfold applyBlock
  refine .bind (releaseMatured_twin h block.header.height) fun w₁ w₁' hw₁ _ h₁ => ?_
  have hk₁ := (releaseMatured_writes hw₁).keyed hk
  refine .bind (processEvidence_twin h₁ (hn w₁ hw₁)) fun w₂ w₂' hw₂ _ h₂ => ?_
  have hk₂ : Keyed w₂ :=
    Except.foldlM_inv Keyed (fun ev _ w w' hw hs => (applySlashEvidence_writes hs).keyed hw) hk₁ hw₂
  refine .bind (executeTransactions_twin order order' block.header hk₂ h₂) fun w₃ w₃' hw₃ _ h₃ => ?_
  refine .bind (issueReward_twin h₃ block.header.proposerAddr) fun w₄ w₄' hw₄ _ h₄ => ?_
  have hk₄ : Keyed w₄ := (issueReward_writes hw₄).keyed ((executeTransactions_writes hw₃).keyed hk₂)
  have h₅ : Twin keep {x | x ∉ lost} (epochTransition params (order block.transactions.length) w₄ block.header.height)
      (epochTransition params (order' block.transactions.length) w₄' block.header.height) :=
    epochTransition_twin hk₄ (h₄.keyed hk₄) h₄ _ _ _
  exact { h₅ with chainHeight := rfl }

end Drana
