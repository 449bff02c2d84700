/-
What an executed transaction does to what later transactions are checked
against: balances sink by what their sender spends and no other way, stakes of
validators move by its stake and unstake, and a post is withdrawn by its author.
-/
import Drana.PostLedger
import Drana.Nonces
import Drana.Names

namespace Drana

variable {E : Env} {ar : Arith} {params : GenesisConfig} {ws w ws' : WorldState} {tx : Transaction} {ord : RangeOrder}
  {a : Address} {p : PostID}

/-- What an account has staked as a validator, zero without one. -/
def ownStakeOf (ws : WorldState) (a : Address) : UInt64 := (ws.getAccount a).elim 0 (·.stakedBalance)

/-- The name of an account, empty without one. -/
def nameOf (ws : WorldState) (a : Address) : GoString := (ws.getAccount a).elim .empty (·.name)

theorem balanceOf_of {acct : Account} (hg : ws.getAccount a = some acct) : balanceOf ws a = acct.balance.toNat := by
  rw [balanceOf, hg, Option.elim_some]

theorem ownStakeOf_of {acct : Account} (hg : ws.getAccount a = some acct) : ownStakeOf ws a = acct.stakedBalance := by
  rw [ownStakeOf, hg, Option.elim_some]

theorem nameOf_of {acct : Account} (hg : ws.getAccount a = some acct) : nameOf ws a = acct.name := by
  rw [nameOf, hg, Option.elim_some]

theorem balanceOf_setAccount {acct : Account} :
    balanceOf (ws.setAccount acct) a = if a = acct.address then acct.balance.toNat else balanceOf ws a := by
  rw [balanceOf, WorldState.getAccount_setAccount]
  split <;> rfl

theorem ownStakeOf_setAccount {acct : Account} :
    ownStakeOf (ws.setAccount acct) a = if a = acct.address then acct.stakedBalance else ownStakeOf ws a := by
  rw [ownStakeOf, WorldState.getAccount_setAccount]
  split <;> rfl

/-! ## Credits -/

/-- Balances grow, unless a sum wraps; what validators have staked stays. -/
structure Enriched (ar : Arith) (ws ws' : WorldState) : Prop where
  keyed : Keyed ws → Keyed ws'
  balance : ar.trapAdd = true → Keyed ws → ∀ a, balanceOf ws a ≤ balanceOf ws' a
  staked : Keyed ws → ∀ a, ownStakeOf ws' a = ownStakeOf ws a

namespace Enriched

protected theorem refl : Enriched ar ws ws := ⟨id, fun _ _ _ => Nat.le_refl _, fun _ _ => rfl⟩

theorem trans (h : Enriched ar ws w) (h' : Enriched ar w ws') : Enriched ar ws ws' where
  keyed hk := h'.keyed (h.keyed hk)
  balance htrap hk a := (h.balance htrap hk a).trans (h'.balance htrap (h.keyed hk) a)
  staked hk a := (h'.staked (h.keyed hk) a).trans (h.staked hk a)

/-- The accounts are the same. -/
theorem congr (h : Enriched ar ws w) (ha : ws'.accounts = w.accounts) (hp : ws'.posts = w.posts)
    (hs : ws'.postStakes = w.postStakes) : Enriched ar ws ws' where
  keyed hk := (h.keyed hk).congr ha hp hs
  balance htrap hk a := by
    rw [balanceOf.eq_1 ws', WorldState.getAccount_congr ha]
    exact h.balance htrap hk a
  staked hk a := by
    rw [ownStakeOf, WorldState.getAccount_congr ha]
    exact h.staked hk a

/-- An account is credited. -/
theorem setAccount {acct old : Account} (hg : ws.getAccount a = some old) (haddr : acct.address = old.address)
    (hb : ar.trapAdd = true → old.balance.toNat ≤ acct.balance.toNat) (hs : acct.stakedBalance = old.stakedBalance) :
    Enriched ar ws (ws.setAccount acct) where
  keyed hk := hk.setAccount
  balance htrap hk b := by
    rw [balanceOf_setAccount, haddr, hk.account a old hg]
    split
    · next hba =>
      rw [hba, balanceOf_of hg]
      exact hb htrap
    · exact Nat.le_refl _
  staked hk b := by
    rw [ownStakeOf_setAccount, haddr, hk.account a old hg]
    split
    · next hba => rw [hba, ownStakeOf_of hg, hs]
    · rfl

theorem setPost {post : Post} (h : Enriched ar ws w) : Enriched ar ws (w.setPost post) where
  keyed hk := (h.keyed hk).setPost
  balance := h.balance
  staked := h.staked

theorem setPostStake {s : PostStake} (h : Enriched ar ws w) : Enriched ar ws (w.setPostStake s) where
  keyed hk := (h.keyed hk).setPostStake
  balance := h.balance
  staked := h.staked

theorem removePostStake (h : Enriched ar ws w) : Enriched ar ws (w.removePostStake p a) where
  keyed hk := (h.keyed hk).removePostStake
  balance := h.balance
  staked := h.staked

end Enriched

theorem addBoostStake_enriched {post : Post} {n height : UInt64} (h : addBoostStake ar ws post tx n height = .ok ws') :
    Enriched ar ws ws' := by
  obtain ⟨existing, -, amount, -, rfl⟩ | ⟨-, count, -, rfl⟩ := addBoostStake_ok_iff.mp h
  · exact Enriched.refl.setPostStake.setPost
  · exact Enriched.refl.setPostStake.setPost

theorem depositAccount_enriched {n : UInt64} (h : depositAccount ar ws a n = .ok ws') : Enriched ar ws ws' := by
  obtain ⟨balance, hb, rfl⟩ := depositAccount_ok_iff.mp h
  cases hg : ws.getAccount a with
  | some acct =>
    rw [hg] at hb
    exact .setAccount hg rfl (fun htrap => le_of_add htrap hb) rfl
  | none =>
    refine ⟨fun hk => hk.setAccount, fun _ _ b => ?_, fun _ b => ?_⟩
    · rw [balanceOf_setAccount]
      split
      · next hba =>
        have hba : b = a := hba
        rw [hba, balanceOf, hg]
        exact Nat.zero_le _
      · exact Nat.le_refl _
    · rw [ownStakeOf_setAccount]
      split
      · next hba =>
        have hba : b = a := hba
        rw [hba, ownStakeOf, hg]
        rfl
      · rfl

/-- What is deposited arrives. -/
theorem depositAccount_arrives (htrap : ar.trapAdd = true) {n : UInt64} (h : depositAccount ar ws a n = .ok ws')
    (hk : Keyed ws) :
    balanceOf ws' a = balanceOf ws a + n.toNat ∧ (ws'.getAccount a).isSome = true := by
  obtain ⟨balance, hb, rfl⟩ := depositAccount_ok_iff.mp h
  have haddr : a = ((ws.getAccount a).getD { address := a }).address := hk.address_getD.symm
  have hb := Arith.add_toNat hb htrap
  constructor
  · rw [balanceOf_setAccount, if_pos haddr, hb, balanceOf]
    cases ws.getAccount a <;> rfl
  · rw [WorldState.getAccount_setAccount, if_pos haddr]
    rfl

theorem creditAccount_enriched {n : UInt64} (h : creditAccount ar ws a n = .ok ws') : Enriched ar ws ws' := by
  obtain ⟨acct, hg, balance, hb, rfl⟩ | ⟨-, rfl⟩ := creditAccount_ok_iff.mp h
  · exact .setAccount hg rfl (fun htrap => le_of_add htrap hb) rfl
  · exact .refl

theorem payAuthor_enriched {n : UInt64} (h : payAuthor ar ws a n = .ok ws') : Enriched ar ws ws' :=
  payAuthor_inv (Enriched ar ws) (fun hw hc => hw.trans (creditAccount_enriched hc)) .refl h

theorem payStakers_enriched {post : Post} {n : UInt64} (h : payStakers ar ord ws post p n = .ok ws') :
    Enriched ar ws ws' :=
  payStakers_inv (Enriched ar ws) (fun hw hc => hw.trans (creditAccount_enriched hc)) .refl h

theorem returnStake_enriched {s : PostStake} (h : returnStake ar ws s = .ok ws') : Enriched ar ws ws' := by
  obtain ⟨acct, hg, balance, hb, psb, -, rfl⟩ | ⟨-, rfl⟩ := returnStake_ok_iff.mp h
  · exact .setAccount hg rfl (fun htrap => le_of_add htrap hb) rfl
  · exact .refl

theorem forceUnstake_enriched {acc acc' : WorldState × Post} {s : PostStake} (h : forceUnstake ar p acc s = .ok acc') :
    Enriched ar acc.1 acc'.1 := by
  obtain ⟨w, hw, total, -, count, -, rfl⟩ := forceUnstake_ok_iff.mp h
  exact (returnStake_enriched hw).removePostStake

theorem releaseMatured_enriched {height : UInt64} (h : releaseMatured ar ws height = .ok ws') : Enriched ar ws ws' := by
  have hstart : Enriched ar ws (ws.removeMaturedUnbonding height).2 := Enriched.refl.congr rfl rfl rfl
  exact Except.foldlM_inv (Enriched ar ws) (fun _ _ _ _ hw hd => hw.trans (depositAccount_enriched hd)) hstart h

/-! ## Transactions -/

/-- What a transaction takes from its sender's balance. -/
def spent (tx : Transaction) : Nat := if SpendsNothing tx then 0 else tx.amount.toNat

/-- The sender's stake after a transaction. -/
def stakedAfter (staked : UInt64) (tx : Transaction) : UInt64 :=
  match tx.kind with
  | some .stake => staked + tx.amount
  | some .unstake => staked - tx.amount
  | _ => staked

/-- Nobody is poorer but the sender by what it spends, and only the sender's stake moves. -/
structure Moved (ar : Arith) (ws : WorldState) (tx : Transaction) (ws' : WorldState) : Prop where
  balance : ar.trapAdd = true → ∀ a, balanceOf ws a ≤ balanceOf ws' a + if a = tx.sender then spent tx else 0
  staked : ∀ a, ownStakeOf ws' a = if a = tx.sender then stakedAfter (ownStakeOf ws a) tx else ownStakeOf ws a

/-- The sender's account is written, then credits follow. -/
theorem Moved.of_sent {acct old : Account} (hk : Keyed ws) (hg : ws.getAccount tx.sender = some old)
    (he : Enriched ar (ws.setAccount acct) ws') (haddr : acct.address = old.address)
    (hb : ar.trapAdd = true → old.balance.toNat ≤ acct.balance.toNat + spent tx)
    (hs : acct.stakedBalance = stakedAfter old.stakedBalance tx) : Moved ar ws tx ws' where
  balance htrap a := by
    have hle := he.balance htrap hk.setAccount a
    have hb := hb htrap
    rw [balanceOf_setAccount, haddr, hk.account _ old hg] at hle
    split at hle
    · next ha =>
      rw [ha, balanceOf_of hg, if_pos rfl]
      rw [ha] at hle
      omega
    · next ha =>
      rw [if_neg ha]
      exact hle
  staked a := by
    rw [he.staked hk.setAccount a, ownStakeOf_setAccount, haddr, hk.account _ old hg]
    split
    · next ha => rw [ha, ownStakeOf_of hg, hs]
    · rfl

/-- A debit takes what the sender spends. -/
theorem debit_le {x y : UInt64} (hspend : ¬ SpendsNothing tx) (hle : ¬ x < tx.amount) (h : ar.sub x tx.amount = .ok y) :
    x.toNat ≤ y.toNat + spent tx := by
  rw [spent, if_neg hspend]
  exact (Arith.sub_toNat h (le_of_not_lt hle)).ge

/-- A transaction that spends, and moves no stake. -/
theorem Moved.of_debit {acct old : Account} {k : TxKind} (hk : Keyed ws) (hg : ws.getAccount tx.sender = some old)
    (he : Enriched ar (ws.setAccount acct) ws') (haddr : acct.address = old.address) (hc : tx.kind = some k)
    (hspend : k ≠ .stake ∧ k ≠ .unstake ∧ k ≠ .unstakePost) (hle : ¬ old.balance < tx.amount)
    (hb : ar.sub old.balance tx.amount = .ok acct.balance) (hs : acct.stakedBalance = old.stakedBalance) :
    Moved ar ws tx ws' := by
  have hn : ¬ SpendsNothing tx := by
    rw [spendsNothing_iff hc]
    exact not_or.mpr hspend.2
  have hstay : stakedAfter old.stakedBalance tx = old.stakedBalance := by
    rw [stakedAfter, hc]
    cases k <;> first | rfl | simp at hspend
  exact .of_sent hk hg he haddr (fun _ => debit_le hn hle hb) (hs.trans hstay.symm)

section

variable (hk : Keyed ws)
include hk

theorem applyCreatePost_moved {height : UInt64} {time : Int64}
    (h : applyCreatePost E ar params ws tx height time = .ok ws')
    (hc : tx.kind = some .createPost) : Moved ar ws tx ws' := by
  obtain ⟨author, hg, hle, staked, -, nonce, -, balance, hb, psb, -, burned, -, rfl⟩ := applyCreatePost_ok_iff.mp h
  obtain ⟨w, hw⟩ : ∃ w, w = ws.setAccount { author with balance, postStakeBalance := psb, nonce } := ⟨_, rfl⟩
  have hwritten : ∀ {post s}, Enriched ar w { (w.setPost post).setPostStake s with burnedSupply := burned } := by
    intro post s
    have hset : Enriched ar w ((w.setPost post).setPostStake s) := Enriched.refl.setPost.setPostStake
    exact hset.congr rfl rfl rfl
  rw [hw] at hwritten
  exact .of_debit hk hg hwritten rfl hc (by simp) hle hb rfl

theorem applyStake_moved (h : applyStake ar ws tx = .ok ws') (hc : tx.kind = some .stake) : Moved ar ws tx ws' := by
  obtain ⟨sender, hg, hle, balance, hb, stakedBalance, hs, nonce, -, rfl⟩ := applyStake_ok_iff.mp h
  have hwritten : Enriched ar (ws.setAccount { sender with balance, stakedBalance, nonce })
      ((ws.setAccount { sender with balance, stakedBalance, nonce }).setValidatorPubKey tx.sender tx.pubKey) :=
    Enriched.refl.congr rfl rfl rfl
  have hn : ¬ SpendsNothing tx := by simp [spendsNothing_iff hc]
  exact .of_sent hk hg hwritten rfl (fun _ => debit_le hn hle hb) (by rw [stakedAfter, hc, Arith.add_ok hs])

theorem applyUnstake_moved {height : UInt64} (h : applyUnstake ar params ws tx height = .ok ws')
    (hc : tx.kind = some .unstake) : Moved ar ws tx ws' := by
  obtain ⟨sender, hg, -, stakedBalance, hs, nonce, -, release, -, rfl⟩ := applyUnstake_ok_iff.mp h
  have hwritten : Enriched ar (ws.setAccount { sender with stakedBalance, nonce })
      ((ws.setAccount { sender with stakedBalance, nonce }).addUnbondingEntry ⟨tx.sender, tx.amount, release⟩) :=
    Enriched.refl.congr rfl rfl rfl
  exact .of_sent hk hg hwritten rfl (fun _ => Nat.le_add_right _ _) (by rw [stakedAfter, hc, Arith.sub_ok hs])

theorem applyRegisterName_moved (h : applyRegisterName ar ws tx = .ok ws') (hc : tx.kind = some .registerName) :
    Moved ar ws tx ws' := by
  obtain ⟨sender, hg, nonce, -, rfl⟩ := applyRegisterName_ok_iff.mp h
  have hwritten : Enriched ar (ws.setAccount { sender with nonce, name := tx.text })
      ((ws.setAccount { sender with nonce, name := tx.text }).registerName tx.sender tx.text) :=
    Enriched.refl.congr rfl rfl rfl
  exact .of_sent hk hg hwritten rfl (fun _ => Nat.le_add_right _ _) (by rw [stakedAfter, hc])

theorem applyTransfer_moved (h : applyTransfer ar ws tx = .ok ws') (hc : tx.kind = some .transfer) :
    Moved ar ws tx ws' := by
  obtain ⟨sender, hg, hle, balance, hb, nonce, -, h⟩ := applyTransfer_ok_iff.mp h
  exact .of_debit hk hg (depositAccount_enriched h) rfl hc (by simp) hle hb rfl

/-- What is sent arrives. -/
theorem applyTransfer_arrives (htrap : ar.trapAdd = true) (h : applyTransfer ar ws tx = .ok ws')
    (hne : tx.recipient ≠ tx.sender) :
    balanceOf ws' tx.recipient = balanceOf ws tx.recipient + tx.amount.toNat ∧
      (ws'.getAccount tx.recipient).isSome = true := by
  obtain ⟨sender, hg, -, balance, -, nonce, -, h⟩ := applyTransfer_ok_iff.mp h
  obtain ⟨harrives, hsome⟩ := depositAccount_arrives htrap h hk.setAccount
  have haddr : sender.address = tx.sender := hk.account _ _ hg
  rw [balanceOf_setAccount, if_neg (haddr ▸ hne)] at harrives
  exact ⟨harrives, hsome⟩

theorem applyBoostPost_moved {height : UInt64} (h : applyBoostPost ar params ord ws tx height = .ok ws')
    (hc : tx.kind = some .boostPost) : Moved ar ws tx ws' := by
  obtain ⟨booster, hg, hle, post, -, staked, -, balance, hb, psb, -, nonce, -, burnedSupply, -, w₁, h₁, w₂, h₂, total,
    -, onPost, -, h⟩ := applyBoostPost_ok_iff.mp h
  have hburned : Enriched ar (ws.setAccount { booster with balance, postStakeBalance := psb, nonce })
      { ws.setAccount { booster with balance, postStakeBalance := psb, nonce } with burnedSupply } :=
    Enriched.refl.congr rfl rfl rfl
  have hpaid := (hburned.trans (payAuthor_enriched h₁)).trans (payStakers_enriched h₂)
  exact .of_debit hk hg (hpaid.trans (addBoostStake_enriched h)) rfl hc (by simp) hle hb rfl

theorem applyUnstakePost_moved (h : applyUnstakePost ar ord ws tx = .ok ws') (hc : tx.kind = some .unstakePost) :
    Moved ar ws tx ws' := by
  obtain ⟨sender, hg, stake, -, post, -, balance, hb, psb, -, nonce, -, total, -, count, -, h⟩ :=
    applyUnstakePost_ok_iff.mp h
  have hsent : ∀ {w}, Enriched ar (ws.setAccount { sender with balance, postStakeBalance := psb, nonce }) w →
      Moved ar ws tx w := by
    intro w he
    have hle : ar.trapAdd = true → sender.balance.toNat ≤ balance.toNat + spent tx :=
      fun htrap => (le_of_add htrap hb).trans (Nat.le_add_right _ _)
    exact .of_sent hk hg he rfl hle (by rw [stakedAfter, hc])
  obtain ⟨-, ⟨w, new⟩, hloop, rfl⟩ | ⟨-, rfl⟩ := h
  · have hloop := Except.foldlM_inv (fun acc : WorldState × Post =>
        Enriched ar (ws.setAccount { sender with balance, postStakeBalance := psb, nonce }) acc.1)
      (fun s _ acc acc' hacc hs => hacc.trans (forceUnstake_enriched hs)) Enriched.refl.removePostStake hloop
    exact hsent hloop.setPost
  · exact hsent Enriched.refl.removePostStake.setPost

theorem executeTransaction_moved {header : BlockHeader} {i : Nat}
    (h : executeTransaction E ar params ord header i ws tx = .ok ws') : Moved ar ws tx ws' := by
  obtain ⟨-, h⟩ := executeTransaction_ok_iff.mp h
  unfold applyTransaction at h
  split at h
  · next hc => exact applyTransfer_moved hk h hc
  · next hc => exact applyCreatePost_moved hk h hc
  · next hc => exact applyBoostPost_moved hk h hc
  · next hc => exact applyUnstakePost_moved hk h hc
  · next hc => exact applyRegisterName_moved hk h hc
  · next hc => exact applyStake_moved hk h hc
  · next hc => exact applyUnstake_moved hk h hc
  · cases h

end

/-! ## Names -/

theorem NamesKept.nameOf (h : NamesKept ws ws') (hi : Indexed ws) : nameOf ws' a = nameOf ws a := by
  cases hg : ws.getAccount a with
  | some acct =>
    obtain ⟨acct', hg', hname⟩ := h.name hi a acct hg
    rw [nameOf_of hg', nameOf_of hg, hname]
  | none =>
    have hempty : Drana.nameOf ws a = .empty := by rw [Drana.nameOf, hg, Option.elim_none]
    cases hg' : ws'.getAccount a with
    | none => rw [hempty, Drana.nameOf, hg', Option.elim_none]
    | some acct' =>
      rw [hempty, nameOf_of hg']
      by_contra hne
      -- The index has the name, and had it for an account that was there.
      have hfound := (h.indexed hi).found a acct' hg' hne
      rw [h.nameIndex hi] at hfound
      obtain ⟨-, acct, hacct, -⟩ := hi.owned _ _ hfound
      rw [hg] at hacct
      cases hacct

/-- Only the sender of a RegisterName gets a name, the one it asks for. -/
theorem executeTransaction_nameOf {header : BlockHeader} {i : Nat} (hi : Indexed ws)
    (h : executeTransaction E ar params ord header i ws tx = .ok ws')
    (ha : tx.kind = some .registerName → a ≠ tx.sender) :
    nameOf ws' a = nameOf ws a := by
  rcases executeTransaction_names h with hn | ⟨hc, u, -, happly⟩
  · exact hn.nameOf hi
  · obtain ⟨sender, hg, nonce, -, rfl⟩ := applyRegisterName_ok_iff.mp happly
    have haddr : sender.address = tx.sender := hi.keyed.account _ _ hg
    have hsame : ((ws.setAccount { sender with nonce, name := tx.text }).registerName tx.sender tx.text).getAccount a =
        ws.getAccount a := WorldState.getAccount_setAccount_ne (haddr ▸ ha hc)
    rw [nameOf, hsame, nameOf]

/-- A name that is not asked for stays as it was in the index. -/
theorem executeTransaction_nameIndex {header : BlockHeader} {i : Nat} {n : GoString} (hi : Indexed ws)
    (h : executeTransaction E ar params ord header i ws tx = .ok ws') (hn : tx.kind = some .registerName → tx.text ≠ n) :
    ws'.nameIndex.lookup n = ws.nameIndex.lookup n := by
  rcases executeTransaction_names h with hkept | ⟨hc, u, hv, happly⟩
  · rw [hkept.nameIndex hi]
  · have hne := (validateRegisterName_ok hi hv).1
    obtain ⟨sender, hg, nonce, -, rfl⟩ := applyRegisterName_ok_iff.mp happly
    simp only [WorldState.registerName_nameIndex, WorldState.setAccount_nameIndex, ne_eq, hne, not_false_eq_true, if_true]
    rw [Finmap.lookup_insert_of_ne _ (hn hc).symm, Finmap.lookup_insert_of_ne _ (hn hc).symm]

/-- Who registers a name has one, and the name is in the index. -/
theorem executeTransaction_registers {header : BlockHeader} {i : Nat} (hi : Indexed ws)
    (h : executeTransaction E ar params ord header i ws tx = .ok ws') (hc : tx.kind = some .registerName) :
    nameOf ws' tx.sender ≠ .empty ∧ ws'.nameIndex.lookup tx.text ≠ none := by
  obtain ⟨hv, h⟩ := executeTransaction_ok_iff.mp h
  rw [validateTransaction, hc] at hv
  rw [applyTransaction, hc] at h
  have hne := (validateRegisterName_ok hi hv).1
  obtain ⟨sender, hg, nonce, -, rfl⟩ := applyRegisterName_ok_iff.mp h
  have haddr : sender.address = tx.sender := hi.keyed.account _ _ hg
  constructor
  · have hself :
        ((ws.setAccount { sender with nonce, name := tx.text }).registerName tx.sender tx.text).getAccount tx.sender =
          some { sender with nonce, name := tx.text } := by
      refine WorldState.getAccount_setAccount.trans ?_
      rw [if_pos haddr.symm]
    rw [nameOf_of hself]
    exact hne
  · rw [WorldState.registerName_nameIndex, Finmap.lookup_insert]
    exact Option.some_ne_none _

end Drana
