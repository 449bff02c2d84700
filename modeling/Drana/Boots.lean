/-
What holds of every state a node can reach, restarts included: names are
unique, found in the index and short enough to be stored, and the database has
records of no other accounts than there are.
-/
import Drana.Reboots

namespace Drana

variable {E : Env} {ar : Arith} {params : GenesisConfig} {ws ws' : WorldState} {kv : KVStore} {ord : RangeOrder}

/-! ## Loading accounts -/

/-- An account written for the first time, under a name nobody has. -/
theorem Indexed.setAccount_new (h : Indexed ws) {acct : Account} (hnone : ws.getAccount acct.address = none)
    (hfree : acct.name ≠ .empty → ws.nameIndex.lookup acct.name = none) : Indexed (ws.setAccount acct) where
  keyed := h.keyed.setAccount
  found b acct' hg hne := by
    rw [WorldState.getAccount_setAccount] at hg
    rw [WorldState.setAccount_nameIndex]
    split at hg
    · next hb =>
      cases hg
      rw [if_pos hne, hb]
      exact Finmap.lookup_insert _
    · have hold := h.found b acct' hg hne
      split
      · next hacct =>
        rw [Finmap.lookup_insert_of_ne]
        · exact hold
        · intro he
          rw [he, hfree hacct] at hold
          cases hold
      · exact hold
  owned n b hl := by
    rw [WorldState.setAccount_nameIndex] at hl
    have hold : ws.nameIndex.lookup n = some b →
        n ≠ .empty ∧ ∃ acct', (ws.setAccount acct).getAccount b = some acct' ∧ acct'.name = n := by
      intro hl
      obtain ⟨hne, acct', hg, hn⟩ := h.owned n b hl
      refine ⟨hne, acct', ?_, hn⟩
      rw [WorldState.getAccount_setAccount_ne]
      · exact hg
      · intro hb
        rw [hb, hnone] at hg
        cases hg
    split at hl
    · next hacct =>
      by_cases hn : n = acct.name
      · subst hn
        rw [Finmap.lookup_insert] at hl
        cases hl
        exact ⟨hacct, acct, WorldState.getAccount_setAccount_self, rfl⟩
      · rw [Finmap.lookup_insert_of_ne _ hn] at hl
        exact hold hl
    · exact hold hl

/-- Two accounts that can be loaded one after the other. -/
def Apart (x y : Account) : Prop := x.address ≠ y.address ∧ (x.name = y.name → x.name = .empty)

/-- `acct` is apart from all that `ws` has. -/
def New (ws : WorldState) (acct : Account) : Prop :=
  ws.getAccount acct.address = none ∧ (acct.name ≠ .empty → ws.nameIndex.lookup acct.name = none)

theorem New.setAccount {x y : Account} (h : New ws y) (hxy : Apart x y) : New (ws.setAccount x) y := by
  refine ⟨?_, fun hne => ?_⟩
  · rw [WorldState.getAccount_setAccount_ne hxy.1.symm]
    exact h.1
  · rw [WorldState.setAccount_nameIndex]
    split
    · next hx =>
      rw [Finmap.lookup_insert_of_ne]
      · exact h.2 hne
      · exact fun he => hx (hxy.2 he.symm)
    · exact h.2 hne

theorem loadAccounts_indexed {l : List (List UInt8)} {w : WorldState} (hi : Indexed ws)
    (hapart : l.Pairwise fun v v' => ∀ x y, decodeAccount v = .ok x → decodeAccount v' = .ok y → Apart x y)
    (hnew : ∀ v ∈ l, ∀ x, decodeAccount v = .ok x → New ws x)
    (h : l.foldlM (fun ws val => do let acct ← decodeAccount val; return ws.setAccount acct) ws = .ok w) : Indexed w := by
  induction l generalizing ws with
  | nil => exact Except.foldlM_nil_ok_iff.mp h ▸ hi
  | cons v l ih =>
    obtain ⟨w', hw, hrest⟩ := Except.foldlM_cons_ok_iff.mp h
    simp only [Except.bind_ok_iff, Except.pure_ok_iff] at hw
    obtain ⟨acct, hacct, rfl⟩ := hw
    obtain ⟨hhead, htail⟩ := List.pairwise_cons.mp hapart
    obtain ⟨hnone, hfree⟩ := hnew v List.mem_cons_self acct hacct
    refine ih (hi.setAccount_new hnone hfree) htail (fun v' hv' y hy => ?_) hrest
    exact (hnew v' (List.mem_cons_of_mem v hv') y hy).setAccount (hhead v' hv' acct y hacct hy)

/-! ## Saving and loading -/

/-- What lies under the accounts' prefix is about accounts there are. -/
def AccountsStored (kv : KVStore) (ws : WorldState) : Prop :=
  ∀ k v, prefixAccount.isPrefixOf k = true → kv.lookup k = some v →
    ∃ a : Address, k = prefixAccount ++ a.toList ∧ (ws.getAccount a).isSome = true

/-- What lies there after a save is the accounts. -/
theorem saveState_accounts (hk : Keyed ws) (h : AccountsStored kv ws) {k v : List UInt8}
    (hpre : prefixAccount.isPrefixOf k = true) : (saveState ord ws kv).lookup k = some v ↔
      ∃ a acct, ws.getAccount a = some acct ∧ k = prefixAccount ++ a.toList ∧ v = encodeAccount acct := by
  rw [saveState, GoMap.lookup_insertAll (nodup_savedKeys hk), mem_savedEntries hk]
  constructor
  · intro hkv
    rcases hkv with hnew | ⟨hnot, hold⟩
    · exact hnew.account_inv (take_of_isPrefixOf hpre)
    · obtain ⟨a, rfl, ha⟩ := h k v hpre hold
      obtain ⟨acct, hg⟩ := Option.isSome_iff_exists.mp ha
      exact absurd (mem_savedKeys hk (.account a acct hg)) hnot
  · intro hkv
    obtain ⟨a, acct, hg, rfl, rfl⟩ := hkv
    exact .inl (.account a acct hg)

/-- Every name in the index can be stored. -/
def ShortNames (ws : WorldState) : Prop := ∀ n a, ws.nameIndex.lookup n = some a → n.length < 2 ^ 32

theorem Indexed.short (hi : Indexed ws) (hs : ShortNames ws) {a : Address} {acct : Account}
    (hg : ws.getAccount a = some acct) : acct.name.length < 2 ^ 32 := by
  by_cases hn : acct.name = .empty
  · rw [hn, length_empty]
    exact Nat.two_pow_pos 32
  · exact hs _ _ (hi.found a acct hg hn)

/-- **A restart keeps the accounts and the index.** -/
theorem loadState_accounts (hi : Indexed ws) (hs : ShortNames ws) (h : AccountsStored kv ws)
    (hload : loadState (saveState ord ws kv) = .ok ws') : ws'.accounts = ws.accounts ∧ Indexed ws' := by
  have hkv : ∀ k v, prefixAccount.isPrefixOf k = true → (saveState ord ws kv).lookup k = some v →
      ∃ a acct, ws.accounts.lookup a = some acct ∧ k = prefixAccount ++ a.toList ∧ v = encodeAccount acct :=
    fun k v hpre hl => (saveState_accounts hi.keyed h hpre).mp hl
  have hdec : ∀ a acct, ws.accounts.lookup a = some acct → decodeAccount (encodeAccount acct) = .ok acct :=
    fun a acct hg => decodeAccount_encode (hi.short hs hg)
  obtain ⟨w, hok, haccounts, -⟩ := @loadAccounts {} (itemsOf (saveState ord ws kv) prefixAccount) fun v hv => by
    obtain ⟨a, acct, hg, rfl⟩ := mem_itemsOf hkv hv
    exact ⟨acct, hdec a acct hg⟩
  rw [insertAll_itemsOf (fun a => isPrefixOf_append) hi.keyed.account
    (fun a acct hg => by rw [hdec a acct hg, Except.value]) hkv
    fun a acct hg => (saveState_accounts hi.keyed h isPrefixOf_append).mpr ⟨a, acct, hg, rfl, rfl⟩] at haccounts
  have hw : Indexed w := by
    have hempty : Indexed {} := by
      constructor
      · constructor <;> intros <;> contradiction
      · intro a acct hg
        cases hg
      · intro n a hl
        cases hl
    refine loadAccounts_indexed hempty ?_ (fun v _ x _ => ⟨rfl, fun _ => rfl⟩) hok
    -- Two records of the database have two keys, so two addresses, so two names.
    refine List.pairwise_map.mpr ((List.Nodup.filter _ MapRange.nodup_list).pairwise_of_forall_ne ?_)
    intro e he e' he' hne x y hx hy
    obtain ⟨he, hpre⟩ := List.mem_filter.mp he
    obtain ⟨he', hpre'⟩ := List.mem_filter.mp he'
    obtain ⟨a, acct, hg, hk, hv⟩ := hkv e.1 e.2 hpre (MapRange.mem_list.mp he)
    obtain ⟨b, acct', hg', hk', hv'⟩ := hkv e'.1 e'.2 hpre' (MapRange.mem_list.mp he')
    rw [hv, hdec a acct hg] at hx
    rw [hv', hdec b acct' hg'] at hy
    have hx : acct = x := Except.ok.inj hx
    have hy : acct' = y := Except.ok.inj hy
    subst hx hy
    have hab : a ≠ b := by
      intro hab
      subst hab
      rw [hg] at hg'
      cases hg'
      exact hne (Prod.ext (hk.trans hk'.symm) (hv.trans hv'.symm))
    refine ⟨fun haddr => hab ?_, fun hname => ?_⟩
    · rw [← hi.keyed.account a acct hg, ← hi.keyed.account b acct' hg', haddr]
    · by_contra hne'
      have hfound := hi.found a acct hg hne'
      rw [hname] at hne' hfound
      have hfound' := hi.found b acct' hg' hne'
      rw [hfound] at hfound'
      exact hab (Option.some.inj hfound')
  simp only [loadState, Except.bind_ok_iff, Except.pure_ok_iff] at hload
  obtain ⟨w₁, h₁, w₂, h₂, burned, -, issued, -, height, -, epoch, -, rfl⟩ := hload
  rw [hok] at h₁
  cases h₁
  -- Posts and stakes go elsewhere.
  have hposts : w₂.accounts = ws.accounts ∧ Indexed w₂ := by
    refine Except.foldlM_inv (fun w => w.accounts = ws.accounts ∧ Indexed w) (fun v _ w w' hw hs => ?_)
      ⟨haccounts, hw⟩ h₂
    simp only [Except.bind_ok_iff, Except.pure_ok_iff] at hs
    obtain ⟨post, -, rfl⟩ := hs
    exact ⟨hw.1, NamesKept.setPost.indexed hw.2⟩
  have hstakes : ∀ {f : WorldState → List UInt8 → WorldState} (_ : ∀ w v, f w v = w ∨ ∃ s, f w v = w.setPostStake s)
      (l : List (List UInt8)) (w : WorldState), w.accounts = ws.accounts ∧ Indexed w →
        (l.foldl f w).accounts = ws.accounts ∧ Indexed (l.foldl f w) := by
    intro f hf l
    induction l with
    | nil => exact fun w hw => hw
    | cons v l ih =>
      intro w hw
      refine ih _ ?_
      rcases hf w v with he | ⟨s, he⟩
      · rw [he]
        exact hw
      · rw [he]
        exact ⟨hw.1, NamesKept.setPostStake.indexed hw.2⟩
  refine hstakes (fun w v => ?_) _ _ ⟨hposts.1, hposts.2.congr rfl rfl rfl rfl⟩
  split
  · next s _ => exact .inr ⟨s, rfl⟩
  · exact .inl rfl

/-! ## Runs -/

/-- A property of all names taken. -/
def NamesSatisfy (P : GoString → Prop) (ws : WorldState) : Prop := ∀ n a, ws.nameIndex.lookup n = some a → P n

/-- What is checked of a name is true of all names, along every run. -/
theorem keeps_namesSatisfy {P : GoString → Prop} (hP : ∀ n u, validateName n = .ok u → P n) :
    Keeps E ar params fun _ ws => Indexed ws ∧ NamesSatisfy P ws := by
  have hkept : ∀ {ws ws' : WorldState}, Indexed ws ∧ NamesSatisfy P ws → NamesKept ws ws' →
      Indexed ws' ∧ NamesSatisfy P ws' := by
    intro ws ws' h hn
    refine ⟨hn.indexed h.1, ?_⟩
    unfold NamesSatisfy
    rw [hn.nameIndex h.1]
    exact h.2
  constructor
  · exact fun h hr => hkept h (releaseMatured_registries hr).names
  · exact fun h hs => hkept h (applySlashEvidence_names hs)
  · intro log ws tx ws' ord header i h ht
    rcases executeTransaction_names ht with hn | ⟨-, u, hv, ha⟩
    · exact hkept h hn
    · refine ⟨applyRegisterName_indexed h.1 hv ha, ?_⟩
      simp only [validateRegisterName, Except.bind_ok_iff, Except.wrapErr_ok_iff] at hv
      obtain ⟨-, -, v, hname, -⟩ := hv
      obtain ⟨sender, -, nonce, -, rfl⟩ := applyRegisterName_ok_iff.mp ha
      intro n a hl
      simp only [WorldState.registerName_nameIndex, WorldState.setAccount_nameIndex] at hl
      by_cases hn : n = tx.text
      · rw [hn]
        exact hP _ v hname
      · rw [Finmap.lookup_insert_of_ne _ hn] at hl
        split at hl
        · rw [Finmap.lookup_insert_of_ne _ hn] at hl
          exact h.2 n a hl
        · exact h.2 n a hl
  · exact fun h hr => hkept h (issueReward_registries hr).names
  · exact fun h => hkept h epochTransition_registries.names
  · exact fun h => ⟨h.1.congr rfl rfl rfl rfl, h.2⟩

/-- Names stay short. -/
theorem keeps_shortNames : Keeps E ar params fun _ ws => Indexed ws ∧ ShortNames ws :=
  keeps_namesSatisfy fun _ _ h => Nat.lt_of_le_of_lt (validateName_length h) (by decide)

/-- What a node's state and database have, whatever has happened to them. -/
structure Booted (s : WorldState × KVStore) : Prop where
  indexed : Indexed s.1
  short : ShortNames s.1
  stored : AccountsStored s.2 s.1

theorem Booted.saved {s : WorldState × KVStore} (h : Booted s) : AccountsStored (saveState ord s.1 s.2) s.1 := by
  intro k v hpre hl
  obtain ⟨a, acct, hg, rfl, -⟩ := (saveState_accounts h.indexed.keyed h.stored hpre).mp hl
  exact ⟨a, rfl, by rw [hg]; rfl⟩

theorem Booted.event {s s' : WorldState × KVStore} {e : NodeEvent} (h : Booted s) (hrun : e.run E params s = .ok s') :
    Booted s' := by
  cases e with
  | apply ord block =>
    simp only [NodeEvent.run, Except.bind_ok_iff, Except.pure_ok_iff] at hrun
    obtain ⟨w, hw, rfl⟩ := hrun
    obtain ⟨hindexed, hshort⟩ := keeps_shortNames.invariant_block ⟨h.indexed, h.short⟩ hw
    refine ⟨hindexed, hshort, fun k v hpre hl => ?_⟩
    obtain ⟨a, rfl, ha⟩ := h.stored k v hpre hl
    exact ⟨a, rfl, (applyBlock_writes hw).accounts_grow a ha⟩
  | save ord =>
    simp only [NodeEvent.run, Except.pure_ok_iff] at hrun
    subst hrun
    exact ⟨h.indexed, h.short, h.saved⟩
  | restart ord =>
    simp only [NodeEvent.run, Except.bind_ok_iff, Except.pure_ok_iff] at hrun
    obtain ⟨w, hw, rfl⟩ := hrun
    obtain ⟨haccounts, hindexed⟩ := loadState_accounts h.indexed h.short h.stored hw
    refine ⟨hindexed, fun n a hl => ?_, fun k v hpre hl => ?_⟩
    · obtain ⟨hne, acct, hg, rfl⟩ := hindexed.owned n a hl
      rw [WorldState.getAccount_congr haccounts] at hg
      exact h.indexed.short h.short hg
    · obtain ⟨a, rfl, ha⟩ := h.saved k v hpre hl
      refine ⟨a, rfl, ?_⟩
      rwa [WorldState.getAccount_congr haccounts]

/-- The states a node comes to from genesis: by blocks, saves and restarts. -/
def Reachable (E : Env) (params : GenesisConfig) (ws : WorldState) : Prop :=
  ∃ (ws₀ : WorldState) (es : List NodeEvent) (kv : KVStore),
    initializeState E params = .ok ws₀ ∧ es.foldlM (NodeEvent.run E params) (ws₀, ∅) = .ok (ws, kv)

/-- At genesis nobody has a name. -/
theorem initializeState_nameIndex (h : initializeState E params = .ok ws) : ws.nameIndex = ∅ := by
  simp only [initializeState, Except.bind_ok_iff, Except.pure_ok_iff] at h
  obtain ⟨w₁, h₁, w₂, h₂, rfl⟩ := h
  have hunnamed : ∀ {w : WorldState} {acct : Account}, acct.name = .empty → w.nameIndex = ∅ →
      (w.setAccount acct).nameIndex = ∅ := by
    intro w acct hn hw
    rw [WorldState.setAccount_nameIndex, if_neg (not_not.mpr hn), hw]
  have haccounts : ∀ {as : List GenesisAccount} {i : Nat} {total : UInt64} {w w' : WorldState}, w.nameIndex = ∅ →
      initAccounts E i total w as = .ok w' → w'.nameIndex = ∅ := by
    intro as
    induction as with
    | nil =>
      intro i total w w' hw h
      cases h
      exact hw
    | cons g as ih =>
      intro i total w w' hw h
      simp only [initAccounts, Except.bind_ok_iff] at h
      obtain ⟨-, -, -, -, h⟩ := h
      exact ih (hunnamed (by rfl) hw) h
  have hempty : Fresh {} := by
    refine ⟨⟨?_, ?_, ?_⟩, rfl, rfl, ?_, ?_⟩ <;>
      simp [WorldState.getAccount, WorldState.getPost, WorldState.getPostStake]
  refine (Except.foldlM_inv (fun w => Fresh w ∧ w.nameIndex = ∅) (fun v _ w w' hw hs => ?_)
    ⟨initAccounts_fresh hempty h₁, haccounts rfl h₁⟩ h₂).2
  refine ⟨initValidator_fresh hw.1 hs, ?_⟩
  unfold initValidator at hs
  split at hs
  · simp only [Except.bind_ok_iff, Except.pure_ok_iff] at hs
    obtain ⟨-, -, rfl⟩ := hs
    refine hunnamed ?_ hw.2
    cases hg : w.getAccount v.address with
    | none => rfl
    | some acct => exact hw.1.unnamed _ acct hg
  · cases hs
    exact hw.2

theorem initializeState_indexed (h : initializeState E params = .ok ws) : Indexed ws := by
  have hfresh := (initializeState_fresh h).1
  refine ⟨hfresh.keyed, fun a acct hg hne => ?_, fun n a hl => ?_⟩
  · exact absurd (hfresh.unnamed a acct hg) hne
  · rw [initializeState_nameIndex h] at hl
    cases hl

theorem initializeState_namesSatisfy {P : GoString → Prop} (h : initializeState E params = .ok ws) :
    NamesSatisfy P ws := by
  intro n a hl
  rw [initializeState_nameIndex h] at hl
  cases hl

/-- **Names are unique in every state a node can reach**, and the index finds them. -/
theorem Reachable.indexed (h : Reachable E params ws) : Indexed ws := by
  obtain ⟨ws₀, es, kv, h₀, hrun⟩ := h
  have hstart : Booted (ws₀, ∅) := by
    refine ⟨initializeState_indexed h₀, initializeState_namesSatisfy h₀, fun k v _ hl => ?_⟩
    cases hl
  exact (Except.foldlM_inv Booted (fun e _ s s' hs he => hs.event he) hstart hrun).indexed

end Drana
