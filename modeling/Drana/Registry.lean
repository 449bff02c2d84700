/-
The name registry and the slashing record: what the steps of a block do to
them. Names are taken once and kept, and the index finds the account of each.
-/
import Drana.Nonces

namespace Drana

variable {E : Env} {ar : Arith} {params : GenesisConfig} {ws ws' : WorldState} {tx : Transaction}
  {ord : RangeOrder} {a : Address}

/-- The name index holds the names the accounts have, each once. -/
structure Indexed (ws : WorldState) : Prop where
  keyed : Keyed ws
  found : ∀ a acct, ws.getAccount a = some acct → acct.name ≠ .empty → ws.nameIndex.lookup acct.name = some a
  owned : ∀ n a, ws.nameIndex.lookup n = some a → n ≠ .empty ∧ ∃ acct, ws.getAccount a = some acct ∧ acct.name = n

/-- A record of an account that keeps its name, or of a new one without a name. -/
def KeepsName (ws : WorldState) (acct : Account) : Prop :=
  (∃ old, ws.getAccount acct.address = some old ∧ old.name = acct.name) ∨
    ws.getAccount acct.address = none ∧ acct.name = .empty

/-- Writing such a record writes the account alone. -/
theorem Indexed.setAccount_eq (h : Indexed ws) {acct : Account} (hn : KeepsName ws acct) :
    ws.setAccount acct = { ws with accounts := ws.accounts.insert acct.address acct } := by
  have hindex : (if acct.name ≠ .empty then ws.nameIndex.insert acct.name acct.address else ws.nameIndex) =
      ws.nameIndex := by
    split
    · next hne =>
      rcases hn with ⟨old, hold, hname⟩ | ⟨-, hempty⟩
      · rw [← hname] at hne ⊢
        exact GoMap.insert_lookup (h.found _ old hold hne)
      · exact absurd hempty hne
    · rfl
  rw [WorldState.setAccount, hindex]

theorem Indexed.setAccount (h : Indexed ws) {acct : Account} (hn : KeepsName ws acct) : Indexed (ws.setAccount acct) where
  keyed := h.keyed.setAccount
  found b acct' hg hne := by
    rw [h.setAccount_eq hn]
    change ws.nameIndex.lookup _ = _
    rw [WorldState.getAccount_setAccount] at hg
    split at hg
    · next hb =>
      cases hg
      rcases hn with ⟨old, hold, hname⟩ | ⟨-, hempty⟩
      · rw [← hname] at hne ⊢
        rw [hb]
        exact h.found _ old hold hne
      · exact absurd hempty hne
    · exact h.found b acct' hg hne
  owned n b hl := by
    rw [h.setAccount_eq hn] at hl
    obtain ⟨hne, acct', hg, hname⟩ := h.owned n b hl
    refine ⟨hne, ?_⟩
    rw [WorldState.getAccount_setAccount]
    split
    · next hb =>
      subst hb
      rcases hn with ⟨old, hold, hold'⟩ | ⟨hnone, -⟩
      · rw [hg] at hold
        cases hold
        exact ⟨acct, rfl, hold'.symm.trans hname⟩
      · rw [hg] at hnone
        cases hnone
    · exact ⟨acct', hg, hname⟩

theorem Indexed.congr (h : Indexed ws) (ha : ws'.accounts = ws.accounts) (hn : ws'.nameIndex = ws.nameIndex)
    (hp : ws'.posts = ws.posts) (hs : ws'.postStakes = ws.postStakes) : Indexed ws' where
  keyed := h.keyed.congr ha hp hs
  found b acct hg hne := by
    rw [WorldState.getAccount_congr ha] at hg
    rw [hn]
    exact h.found b acct hg hne
  owned n b hl := by
    rw [hn] at hl
    rw [WorldState.getAccount_congr ha]
    exact h.owned n b hl

/-! ## Steps that leave the registries alone -/

/-- Accounts keep their names, and new ones have none. -/
structure NamesKept (ws ws' : WorldState) : Prop where
  indexed : Indexed ws → Indexed ws'
  nameIndex : Indexed ws → ws'.nameIndex = ws.nameIndex
  name : Indexed ws → ∀ a acct, ws.getAccount a = some acct → ∃ acct', ws'.getAccount a = some acct' ∧
    acct'.name = acct.name

namespace NamesKept

protected theorem refl : NamesKept ws ws := ⟨id, fun _ => rfl, fun _ _ acct hg => ⟨acct, hg, rfl⟩⟩

theorem trans {w : WorldState} (h : NamesKept ws w) (h' : NamesKept w ws') : NamesKept ws ws' where
  indexed hi := h'.indexed (h.indexed hi)
  nameIndex hi := (h'.nameIndex (h.indexed hi)).trans (h.nameIndex hi)
  name hi a acct hg := by
    obtain ⟨acct₁, hg₁, hn₁⟩ := h.name hi a acct hg
    obtain ⟨acct₂, hg₂, hn₂⟩ := h'.name (h.indexed hi) a acct₁ hg₁
    exact ⟨acct₂, hg₂, hn₂.trans hn₁⟩

theorem setAccount {acct : Account} (hn : Indexed ws → KeepsName ws acct) : NamesKept ws (ws.setAccount acct) where
  indexed hi := hi.setAccount (hn hi)
  nameIndex hi := by rw [hi.setAccount_eq (hn hi)]
  name hi b old hg := by
    rw [WorldState.getAccount_setAccount]
    split
    · next hb =>
      subst hb
      rcases hn hi with ⟨old', hold, hname⟩ | ⟨hnone, -⟩
      · rw [hg] at hold
        cases hold
        exact ⟨acct, rfl, hname.symm⟩
      · rw [hg] at hnone
        cases hnone
    · exact ⟨old, hg, rfl⟩

/-- An account read, changed and written back. -/
theorem update {acct old : Account} (hg : ws.getAccount a = some old) (ha : acct.address = old.address)
    (hn : acct.name = old.name) : NamesKept ws (ws.setAccount acct) := by
  refine .setAccount fun hi => .inl ⟨old, ?_, hn.symm⟩
  rw [ha, hi.keyed.account a old hg]
  exact hg

/-- Neither accounts nor names are written; the keys stay right. -/
theorem other (ha : ws'.accounts = ws.accounts) (hn : ws'.nameIndex = ws.nameIndex) (hk : Keyed ws → Keyed ws') :
    NamesKept ws ws' where
  indexed hi := {
    keyed := hk hi.keyed
    found b acct hg hne := by
      rw [WorldState.getAccount_congr ha] at hg
      rw [hn]
      exact hi.found b acct hg hne
    owned n b hl := by
      rw [hn] at hl
      rw [WorldState.getAccount_congr ha]
      exact hi.owned n b hl }
  nameIndex _ := hn
  name _ b acct hg := ⟨acct, by rwa [WorldState.getAccount_congr ha], rfl⟩

theorem setPost {post : Post} : NamesKept ws (ws.setPost post) := .other rfl rfl fun hk => hk.setPost

theorem setPostStake {s : PostStake} : NamesKept ws (ws.setPostStake s) := .other rfl rfl fun hk => hk.setPostStake

end NamesKept

/-- Names are kept, and the slashing record is as it was. -/
structure RegistriesKept (ws ws' : WorldState) : Prop where
  names : NamesKept ws ws'
  slashRecord : ws'.slashRecord = ws.slashRecord

namespace RegistriesKept

protected theorem refl : RegistriesKept ws ws := ⟨.refl, rfl⟩

theorem trans {w : WorldState} (h : RegistriesKept ws w) (h' : RegistriesKept w ws') : RegistriesKept ws ws' :=
  ⟨h.names.trans h'.names, h'.slashRecord.trans h.slashRecord⟩

theorem update {acct old : Account} (hg : ws.getAccount a = some old) (ha : acct.address = old.address)
    (hn : acct.name = old.name) : RegistriesKept ws (ws.setAccount acct) := ⟨.update hg ha hn, rfl⟩

theorem other (ha : ws'.accounts = ws.accounts) (hn : ws'.nameIndex = ws.nameIndex)
    (hs : ws'.slashRecord = ws.slashRecord) (hk : Keyed ws → Keyed ws') : RegistriesKept ws ws' :=
  ⟨.other ha hn hk, hs⟩

/-- Only fields besides the maps are written. -/
theorem congr (ha : ws'.accounts = ws.accounts) (hn : ws'.nameIndex = ws.nameIndex)
    (hs : ws'.slashRecord = ws.slashRecord) (hp : ws'.posts = ws.posts) (ht : ws'.postStakes = ws.postStakes) :
    RegistriesKept ws ws' :=
  .other ha hn hs fun hk => hk.congr ha hp ht

end RegistriesKept

/-! ## Credits -/

theorem depositAccount_registries {n : UInt64} (h : depositAccount ar ws a n = .ok ws') : RegistriesKept ws ws' := by
  obtain ⟨b, -, rfl⟩ := depositAccount_ok_iff.mp h
  cases hg : ws.getAccount a with
  | none => exact ⟨.setAccount fun _ => .inr ⟨hg, rfl⟩, rfl⟩
  | some acct => exact .update hg rfl rfl

theorem creditAccount_registries {n : UInt64} (h : creditAccount ar ws a n = .ok ws') : RegistriesKept ws ws' := by
  obtain ⟨acct, hg, b, -, rfl⟩ | ⟨-, rfl⟩ := creditAccount_ok_iff.mp h
  · exact .update hg rfl rfl
  · exact .refl

theorem payAuthor_registries {n : UInt64} (h : payAuthor ar ws a n = .ok ws') : RegistriesKept ws ws' :=
  payAuthor_inv (RegistriesKept ws) (fun hw hc => hw.trans (creditAccount_registries hc)) .refl h

theorem payStakers_registries {post : Post} {p : PostID} {n : UInt64} (h : payStakers ar ord ws post p n = .ok ws') :
    RegistriesKept ws ws' :=
  payStakers_inv (RegistriesKept ws) (fun hw hc => hw.trans (creditAccount_registries hc)) .refl h

/-! ## Transactions -/

theorem applyTransfer_registries (h : applyTransfer ar ws tx = .ok ws') : RegistriesKept ws ws' := by
  obtain ⟨sender, hg, -, balance, -, nonce, -, h⟩ := applyTransfer_ok_iff.mp h
  have hsent : RegistriesKept ws (ws.setAccount { sender with balance, nonce }) := .update hg rfl rfl
  exact hsent.trans (depositAccount_registries h)

theorem applyCreatePost_registries {height : UInt64} {time : Int64}
    (h : applyCreatePost E ar params ws tx height time = .ok ws') : RegistriesKept ws ws' := by
  obtain ⟨author, hg, -, staked, -, nonce, -, balance, -, postStakeBalance, -, burned, -, rfl⟩ :=
    applyCreatePost_ok_iff.mp h
  have hsent : RegistriesKept ws (ws.setAccount { author with balance, postStakeBalance, nonce }) := .update hg rfl rfl
  exact hsent.trans (.other rfl rfl rfl fun hk => hk.setPost.setPostStake.congr rfl rfl rfl)

theorem addBoostStake_registries {post : Post} {n height : UInt64}
    (h : addBoostStake ar ws post tx n height = .ok ws') : RegistriesKept ws ws' := by
  obtain ⟨existing, -, amount, -, rfl⟩ | ⟨-, count, -, rfl⟩ := addBoostStake_ok_iff.mp h
  · exact .other rfl rfl rfl fun hk => hk.setPostStake.setPost
  · exact .other rfl rfl rfl fun hk => hk.setPostStake.setPost

theorem applyBoostPost_registries {height : UInt64} (h : applyBoostPost ar params ord ws tx height = .ok ws') :
    RegistriesKept ws ws' := by
  obtain ⟨booster, hg, -, post, -, staked, -, balance, -, postStakeBalance, -, nonce, -, burned, -, w₁, h₁, w₂, h₂,
    total, -, onPost, -, h⟩ := applyBoostPost_ok_iff.mp h
  have hsent : RegistriesKept ws (ws.setAccount { booster with balance, postStakeBalance, nonce }) := .update hg rfl rfl
  have hburned : RegistriesKept ws
      { ws.setAccount { booster with balance, postStakeBalance, nonce } with burnedSupply := burned } :=
    hsent.trans (.congr rfl rfl rfl rfl rfl)
  exact ((hburned.trans (payAuthor_registries h₁)).trans (payStakers_registries h₂)).trans (addBoostStake_registries h)

theorem returnStake_registries {s : PostStake} (h : returnStake ar ws s = .ok ws') : RegistriesKept ws ws' := by
  obtain ⟨acct, hg, balance, -, psb, -, rfl⟩ | ⟨-, rfl⟩ := returnStake_ok_iff.mp h
  · exact .update hg rfl rfl
  · exact .refl

theorem forceUnstake_registries {p : PostID} {acc acc' : WorldState × Post} {s : PostStake}
    (h : forceUnstake ar p acc s = .ok acc') : RegistriesKept acc.1 acc'.1 := by
  obtain ⟨w, hw, total, -, count, -, rfl⟩ := forceUnstake_ok_iff.mp h
  exact (returnStake_registries hw).trans (.other rfl rfl rfl fun hk => hk.removePostStake)

theorem applyUnstakePost_registries (h : applyUnstakePost ar ord ws tx = .ok ws') : RegistriesKept ws ws' := by
  obtain ⟨sender, hg, stake, -, post, -, balance, -, postStakeBalance, -, nonce, -, total, -, count, -, h⟩ :=
    applyUnstakePost_ok_iff.mp h
  have hsent : RegistriesKept ws (ws.setAccount { sender with balance, postStakeBalance, nonce }) := .update hg rfl rfl
  have hremoved : RegistriesKept ws
      ((ws.setAccount { sender with balance, postStakeBalance, nonce }).removePostStake tx.postID tx.sender) :=
    hsent.trans (.other rfl rfl rfl fun hk => hk.removePostStake)
  obtain ⟨-, acc, hacc, rfl⟩ | ⟨-, rfl⟩ := h
  · have hloop := Except.foldlM_inv (fun acc => RegistriesKept ws acc.1)
      (fun s _ _ _ hw hs => hw.trans (forceUnstake_registries hs)) hremoved hacc
    exact hloop.trans (.other rfl rfl rfl fun hk => hk.setPost)
  · exact hremoved.trans (.other rfl rfl rfl fun hk => hk.setPost)

theorem applyStake_registries (h : applyStake ar ws tx = .ok ws') : RegistriesKept ws ws' := by
  obtain ⟨sender, hg, -, balance, -, stakedBalance, -, nonce, -, rfl⟩ := applyStake_ok_iff.mp h
  have hsent : RegistriesKept ws (ws.setAccount { sender with balance, stakedBalance, nonce }) := .update hg rfl rfl
  exact hsent.trans (.congr rfl rfl rfl rfl rfl)

theorem applyUnstake_registries {height : UInt64} (h : applyUnstake ar params ws tx height = .ok ws') :
    RegistriesKept ws ws' := by
  obtain ⟨sender, hg, -, stakedBalance, -, nonce, -, release, -, rfl⟩ := applyUnstake_ok_iff.mp h
  have hsent : RegistriesKept ws (ws.setAccount { sender with stakedBalance, nonce }) := .update hg rfl rfl
  exact hsent.trans (.congr rfl rfl rfl rfl rfl)

/-- A name is nobody's where the index does not have it. -/
theorem Indexed.getAccountByName_eq_none (hi : Indexed ws) {n : GoString} :
    ws.getAccountByName n = none ↔ ws.nameIndex.lookup n = none := by
  unfold WorldState.getAccountByName
  cases hl : ws.nameIndex.lookup n with
  | none => simp
  | some b =>
    obtain ⟨-, acct, hg, -⟩ := hi.owned _ _ hl
    simp [hg]

/-- Who registers a name has none yet, and nobody has that one. -/
theorem validateRegisterName_ok {u : Unit} (hi : Indexed ws) (hv : validateRegisterName E tx ws.reader = .ok u) :
    tx.text ≠ .empty ∧ ws.nameIndex.lookup tx.text = none ∧
      ∀ sender, ws.getAccount tx.sender = some sender → sender.name = .empty := by
  simp only [validateRegisterName, Except.bind_ok_iff, Except.throwIf_ok_iff, Except.wrapErr_ok_iff, ne_eq,
    Decidable.not_not, Bool.not_eq_true, Option.isSome_eq_false_iff, Option.isNone_iff_eq_none] at hv
  obtain ⟨-, -, v, hname, acct, hc, -, hempty, htaken⟩ := hv
  obtain ⟨-, -, hacct, -⟩ := validateCommonNoBalanceCheck_ok (validateCommon_ok hc)
  refine ⟨fun he => ?_, hi.getAccountByName_eq_none.mp htaken, fun sender hg => ?_⟩
  · rw [he] at hname
    cases hname
  · change ws.getAccount tx.sender = some acct at hacct
    rw [hg] at hacct
    cases hacct
    exact hempty

theorem applyRegisterName_indexed {u : Unit} (hi : Indexed ws) (hv : validateRegisterName E tx ws.reader = .ok u)
    (h : applyRegisterName ar ws tx = .ok ws') : Indexed ws' := by
  obtain ⟨hne, hfree, hunnamed⟩ := validateRegisterName_ok hi hv
  obtain ⟨sender, hg, nonce, -, rfl⟩ := applyRegisterName_ok_iff.mp h
  have haddr : sender.address = tx.sender := hi.keyed.account _ _ hg
  have hname := hunnamed sender hg
  have hacct : ∀ b, ((ws.setAccount { sender with nonce, name := tx.text }).registerName tx.sender tx.text).getAccount b =
      if b = tx.sender then some { sender with nonce, name := tx.text } else ws.getAccount b := by
    intro b
    refine WorldState.getAccount_setAccount.trans ?_
    rw [haddr]
  have hindex : ((ws.setAccount { sender with nonce, name := tx.text }).registerName tx.sender tx.text).nameIndex =
      ws.nameIndex.insert tx.text tx.sender := by
    simp only [WorldState.registerName_nameIndex, WorldState.setAccount_nameIndex, ne_eq, hne, not_false_eq_true, if_true,
      haddr, Finmap.insert_insert]
  refine ⟨hi.keyed.setAccount.congr rfl rfl rfl, fun b acct hb hb' => ?_, fun n b hl => ?_⟩
  · rw [hindex]
    rw [hacct] at hb
    split at hb
    · next hbs =>
      cases hb
      rw [hbs]
      exact Finmap.lookup_insert _
    · rw [Finmap.lookup_insert_of_ne]
      · exact hi.found b acct hb hb'
      · intro he
        have := hi.found b acct hb hb'
        rw [he, hfree] at this
        cases this
  · rw [hindex] at hl
    by_cases hn : n = tx.text
    · subst hn
      rw [Finmap.lookup_insert] at hl
      cases hl
      exact ⟨hne, _, (hacct _).trans (if_pos rfl), rfl⟩
    · rw [Finmap.lookup_insert_of_ne _ hn] at hl
      obtain ⟨hne', acct, hb, hb'⟩ := hi.owned n b hl
      refine ⟨hne', acct, ?_, hb'⟩
      rw [hacct, if_neg]
      · exact hb
      · intro he
        rw [he, hg] at hb
        cases hb
        exact hne' (hb'.symm.trans hname)

/-- What a transaction can do to the names. -/
theorem executeTransaction_names {header : BlockHeader} {i : Nat}
    (h : executeTransaction E ar params ord header i ws tx = .ok ws') :
    NamesKept ws ws' ∨ tx.kind = some .registerName ∧
      ∃ u, validateRegisterName E tx ws.reader = .ok u ∧ applyRegisterName ar ws tx = .ok ws' := by
  obtain ⟨hv, h⟩ := executeTransaction_ok_iff.mp h
  unfold applyTransaction at h
  split at h
  · exact .inl (applyTransfer_registries h).names
  · exact .inl (applyCreatePost_registries h).names
  · exact .inl (applyBoostPost_registries h).names
  · exact .inl (applyUnstakePost_registries h).names
  · next hk =>
    rw [validateTransaction, hk] at hv
    exact .inr ⟨hk, (), hv, h⟩
  · exact .inl (applyStake_registries h).names
  · exact .inl (applyUnstake_registries h).names
  · cases h

theorem executeTransaction_indexed {header : BlockHeader} {i : Nat} (hi : Indexed ws)
    (h : executeTransaction E ar params ord header i ws tx = .ok ws') : Indexed ws' := by
  rcases executeTransaction_names h with hn | ⟨-, u, hv, ha⟩
  · exact hn.indexed hi
  · exact applyRegisterName_indexed hi hv ha

theorem executeTransaction_slashRecord {header : BlockHeader} {i : Nat}
    (h : executeTransaction E ar params ord header i ws tx = .ok ws') : ws'.slashRecord = ws.slashRecord := by
  obtain ⟨hv, h⟩ := executeTransaction_ok_iff.mp h
  unfold applyTransaction at h
  split at h
  · exact (applyTransfer_registries h).slashRecord
  · exact (applyCreatePost_registries h).slashRecord
  · exact (applyBoostPost_registries h).slashRecord
  · exact (applyUnstakePost_registries h).slashRecord
  · obtain ⟨sender, -, nonce, -, rfl⟩ := applyRegisterName_ok_iff.mp h
    rfl
  · exact (applyStake_registries h).slashRecord
  · exact (applyUnstake_registries h).slashRecord
  · cases h

/-! ## Evidence and blocks -/

theorem slashRest_registries {n : UInt64} (h : slashRest ar ws a n = .ok ws') : RegistriesKept ws ws' := by
  obtain ⟨-, q, -, rfl⟩ | ⟨-, rfl⟩ := slashRest_ok_iff.mp h
  · exact .congr rfl rfl rfl rfl rfl
  · exact .refl

/-- The penalty: names are kept, and the pair is recorded. -/
theorem slashAccount_registries {height n : UInt64} {acct : Account} (hg : ws.getAccount a = some acct)
    (h : slashAccount ar params ws a height acct n = .ok ws') :
    NamesKept ws ws' ∧ ws'.slashRecord = insert (a, height) ws.slashRecord := by
  obtain ⟨staked, -, remaining, -, w, hw, burned, -, rfl⟩ := slashAccount_ok_iff.mp h
  have hacct : RegistriesKept ws (ws.setAccount { acct with stakedBalance := staked }) := .update hg rfl rfl
  have hrest := hacct.trans (slashRest_registries hw)
  refine ⟨hrest.names.trans (.other rfl rfl fun hk => hk.congr rfl rfl rfl), ?_⟩
  exact congrArg (insert (a, height)) hrest.slashRecord

theorem applySlashEvidence_names {ev : SlashEvidence} (h : applySlashEvidence E ar params ws ev = .ok ws') :
    NamesKept ws ws' := by
  rcases applySlashEvidence_cases h with rfl | ⟨-, acct, unbonding, totalAtRisk, hg, -, -, -, hs⟩
  · exact .refl
  · exact (slashAccount_registries hg hs).1

theorem releaseMatured_registries {height : UInt64} (h : releaseMatured ar ws height = .ok ws') :
    RegistriesKept ws ws' := by
  have hstart : RegistriesKept ws (ws.removeMaturedUnbonding height).2 := .congr rfl rfl rfl rfl rfl
  exact Except.foldlM_inv (RegistriesKept ws) (fun e _ w w' hw hd => hw.trans (depositAccount_registries hd)) hstart h

theorem issueReward_registries (h : issueReward ar params ws a = .ok ws') : RegistriesKept ws ws' := by
  obtain ⟨-, w, hw, issued, -, rfl⟩ | ⟨-, rfl⟩ := issueReward_ok_iff.mp h
  · exact (depositAccount_registries hw).trans (.congr rfl rfl rfl rfl rfl)
  · exact .refl

theorem epochTransition_registries {height : UInt64} : RegistriesKept ws (epochTransition params ord ws height) := by
  unfold epochTransition
  split
  · exact .congr rfl rfl rfl rfl rfl
  · exact .refl

/-- **The index stays right** along every run. -/
theorem keeps_indexed : Keeps E ar params fun _ ws => Indexed ws where
  release hi h := (releaseMatured_registries h).names.indexed hi
  slash hi h := (applySlashEvidence_names h).indexed hi
  tx hi h := executeTransaction_indexed hi h
  reward hi h := (issueReward_registries h).names.indexed hi
  epoch hi := epochTransition_registries.names.indexed hi
  height hi := hi.congr rfl rfl rfl rfl

theorem executeTransactions_slashRecord {header : BlockHeader} {order : Nat → RangeOrder} {txs : List Transaction}
    {i : Nat} (h : executeTransactions E ar params order header i ws txs = .ok ws') :
    ws'.slashRecord = ws.slashRecord := by
  induction txs generalizing i ws with
  | nil =>
    simp only [executeTransactions, Except.pure_ok_iff] at h
    rw [h]
  | cons tx txs ih =>
    simp only [executeTransactions, Except.bind_ok_iff] at h
    obtain ⟨w, hw, hrest⟩ := h
    rw [ih hrest, executeTransaction_slashRecord hw]

/-- Only the evidence of a block writes to the record. -/
theorem applyBlock_slashRecord {order : Nat → RangeOrder} {block : Block}
    (h : applyBlock E ar params order ws block = .ok ws') :
    ∃ w₁ w₂, releaseMatured ar ws block.header.height = .ok w₁ ∧ w₁.slashRecord = ws.slashRecord ∧
      processEvidence E ar params w₁ block.evidence = .ok w₂ ∧ ws'.slashRecord = w₂.slashRecord := by
  simp only [applyBlock, Except.bind_ok_iff, Except.pure_ok_iff] at h
  obtain ⟨w₁, h₁, w₂, h₂, w₃, h₃, w₄, h₄, rfl⟩ := h
  refine ⟨w₁, w₂, h₁, (releaseMatured_registries h₁).slashRecord, h₂, ?_⟩
  have hepoch : RegistriesKept w₄ (epochTransition params (order block.transactions.length) w₄ block.header.height) :=
    epochTransition_registries
  have hreward := (issueReward_registries h₄).trans hepoch
  exact hreward.slashRecord.trans (executeTransactions_slashRecord h₃)

end Drana
