/-
What the state root commits to: all that a block's execution reads, except for
the slashing record. Two nodes with one root agree from there on, until a block
brings evidence of an offence that only one of them has on record.
-/
import Drana.Simulation
import Drana.Boots
import Drana.Encodings

namespace Drana

open Except (Both)

variable {E : Env} {params : GenesisConfig} {ws ws' : WorldState} {ord ord' : RangeOrder}

/-! ## The bytes of a list -/

section

variable {α : Type} {write : HashWriter → α → HashWriter} {R : α → α → Prop} {l l' : List α} {r r' : List UInt8}

/-- A writer that appends. -/
def Appends (write : HashWriter → α → HashWriter) : Prop := ∀ hw a, write hw a = hw ++ write [] a

theorem Appends.foldl (h : Appends write) (hw : HashWriter) : l.foldl write hw = hw ++ l.flatMap (write []) := by
  induction l generalizing hw with
  | nil => simp
  | cons a l ih => rw [List.foldl_cons, ih, h hw a, List.flatMap_cons, List.append_assoc]

theorem Appends.writeList (h : Appends write) (hw : HashWriter) :
    writeList write hw l = hw ++ (putUint64 (UInt64.ofNat l.length) ++ l.flatMap (write [])) := by
  rw [Drana.writeList, h.foldl, HashWriter.writeUint64, List.append_assoc]

/-- What is written tells elements apart up to `R`, whatever follows. -/
def Tells (R : α → α → Prop) (write : HashWriter → α → HashWriter) : Prop :=
  ∀ a b r r', write [] a ++ r = write [] b ++ r' → R a b ∧ r = r'

theorem Tells.flatMap (h : Tells R write) (hlen : l.length = l'.length)
    (heq : l.flatMap (write []) ++ r = l'.flatMap (write []) ++ r') : List.Forall₂ R l l' ∧ r = r' := by
  induction l generalizing l' with
  | nil =>
    obtain rfl := List.length_eq_zero_iff.mp hlen.symm
    exact ⟨.nil, heq⟩
  | cons a l ih =>
    cases l' with
    | nil => cases hlen
    | cons b l' =>
      simp only [List.flatMap_cons, List.append_assoc] at heq
      obtain ⟨hab, hrest⟩ := h _ _ _ _ heq
      obtain ⟨hl, hr⟩ := ih (by simpa using hlen) hrest
      exact ⟨.cons hab hl, hr⟩

/-- Lists with lengths a `uint64` can hold. -/
theorem Tells.list (h : Tells R write) (hl : l.length < 2 ^ 63) (hl' : l'.length < 2 ^ 63)
    (heq : putUint64 (UInt64.ofNat l.length) ++ (l.flatMap (write []) ++ r) =
      putUint64 (UInt64.ofNat l'.length) ++ (l'.flatMap (write []) ++ r')) : List.Forall₂ R l l' ∧ r = r' := by
  obtain ⟨hlen, hrest⟩ := putUint64_delimited _ _ _ _ heq
  exact h.flatMap (ofNat_inj_of_lt (by omega) (by omega) hlen) hrest

end

/-! ## The bytes of a record -/

theorem writeAccount_appends : Appends writeAccount := by
  intro hw a
  simp [writeAccount, HashWriter.writeUint64, HashWriter.writeBytes_eq, HashWriter.writeString_eq]

theorem writePost_appends : Appends writePost := by
  intro hw p
  simp [writePost, HashWriter.writeInt64, HashWriter.writeUint64, HashWriter.writeBytes_eq, HashWriter.writeString_eq]

theorem writePostStake_appends : Appends writePostStake := by
  intro hw s
  simp [writePostStake, HashWriter.writeUint64, HashWriter.writeBytes_eq]

theorem writeValidator_appends : Appends writeValidator := by
  intro hw v
  simp [writeValidator, HashWriter.writeUint64, HashWriter.writeBytes_eq]

theorem writeUnbonding_appends : Appends writeUnbonding := by
  intro hw u
  simp [writeUnbonding, HashWriter.writeUint64, HashWriter.writeBytes_eq]

/-- All of an account but its post-staked balance. -/
theorem writeAccount_tells : Tells (SameAccount false) writeAccount := by
  intro a b r r' h
  simp only [writeAccount, HashWriter.writeUint64, HashWriter.writeBytes_eq, HashWriter.writeString_eq, List.nil_append,
    List.append_assoc] at h
  obtain ⟨haddr, h⟩ := address_delimited _ _ _ _ h
  obtain ⟨hbalance, h⟩ := putUint64_delimited _ _ _ _ h
  obtain ⟨hnonce, h⟩ := putUint64_delimited _ _ _ _ h
  obtain ⟨hname, h⟩ := lenPrefixed_string_delimited _ _ _ _ h
  obtain ⟨hstaked, h⟩ := putUint64_delimited _ _ _ _ h
  refine ⟨⟨b.postStakeBalance, ?_, fun hk => by cases hk⟩, h⟩
  cases a
  cases b
  simp only at haddr hbalance hnonce hname hstaked
  simp [haddr, hbalance, hnonce, hname, hstaked]

theorem writePost_tells : Tells Eq writePost := by
  intro p p' r r' h
  simp only [writePost, HashWriter.writeInt64, HashWriter.writeUint64, HashWriter.writeBytes_eq,
    HashWriter.writeString_eq, List.nil_append, List.append_assoc] at h
  obtain ⟨hid, h⟩ := hash_delimited _ _ _ _ h
  obtain ⟨hauthor, h⟩ := address_delimited _ _ _ _ h
  obtain ⟨htext, h⟩ := lenPrefixed_string_delimited _ _ _ _ h
  obtain ⟨hchannel, h⟩ := lenPrefixed_string_delimited _ _ _ _ h
  obtain ⟨hparent, h⟩ := hash_delimited _ _ _ _ h
  obtain ⟨hheight, h⟩ := putUint64_delimited _ _ _ _ h
  obtain ⟨htime, h⟩ := putUint64_delimited _ _ _ _ h
  obtain ⟨hstaked, h⟩ := putUint64_delimited _ _ _ _ h
  obtain ⟨hburned, h⟩ := putUint64_delimited _ _ _ _ h
  obtain ⟨hcount, h⟩ := putUint64_delimited _ _ _ _ h
  obtain ⟨hwithdrawn, h⟩ := putUint64_delimited _ _ _ _ h
  refine ⟨?_, h⟩
  have htime := toUInt64_inj htime
  have hwithdrawn : p.withdrawn = p'.withdrawn := by
    cases hp : p.withdrawn <;> cases hp' : p'.withdrawn <;> simp [hp, hp'] at hwithdrawn ⊢
  cases p
  cases p'
  simp only at hid hauthor htext hchannel hparent hheight htime hstaked hburned hcount hwithdrawn
  simp [hid, hauthor, htext, hchannel, hparent, hheight, htime, hstaked, hburned, hcount, hwithdrawn]

theorem writePostStake_tells : Tells Eq writePostStake := by
  intro s s' r r' h
  simp only [writePostStake, HashWriter.writeUint64, HashWriter.writeBytes_eq, List.nil_append, List.append_assoc] at h
  obtain ⟨hid, h⟩ := hash_delimited _ _ _ _ h
  obtain ⟨hstaker, h⟩ := address_delimited _ _ _ _ h
  obtain ⟨hamount, h⟩ := putUint64_delimited _ _ _ _ h
  obtain ⟨hheight, h⟩ := putUint64_delimited _ _ _ _ h
  refine ⟨?_, h⟩
  cases s
  cases s'
  simp only at hid hstaker hamount hheight
  simp [hid, hstaker, hamount, hheight]

theorem writeValidator_tells : Tells Eq writeValidator := by
  intro v v' r r' h
  simp only [writeValidator, HashWriter.writeUint64, HashWriter.writeBytes_eq, List.nil_append, List.append_assoc] at h
  obtain ⟨haddr, h⟩ := address_delimited _ _ _ _ h
  obtain ⟨hkey, h⟩ := hash_delimited _ _ _ _ h
  obtain ⟨hstaked, h⟩ := putUint64_delimited _ _ _ _ h
  refine ⟨?_, h⟩
  cases v
  cases v'
  simp only at haddr hkey hstaked
  simp [haddr, hkey, hstaked]

theorem writeUnbonding_tells : Tells Eq writeUnbonding := by
  intro u u' r r' h
  simp only [writeUnbonding, HashWriter.writeUint64, HashWriter.writeBytes_eq, List.nil_append, List.append_assoc] at h
  obtain ⟨haddr, h⟩ := address_delimited _ _ _ _ h
  obtain ⟨hamount, h⟩ := putUint64_delimited _ _ _ _ h
  obtain ⟨hheight, h⟩ := putUint64_delimited _ _ _ _ h
  refine ⟨?_, h⟩
  cases u
  cases u'
  simp only at haddr hamount hheight
  simp [haddr, hamount, hheight]

/-! ## Equal roots -/

/-- The slices a root is computed from have lengths: `int`s. -/
structure Sized (ws : WorldState) : Prop where
  accounts : ws.accounts.keys.card < 2 ^ 63
  posts : ws.posts.keys.card < 2 ^ 63
  postStakes : ws.postStakes.keys.card < 2 ^ 63
  activeValidators : ws.activeValidators.length < 2 ^ 63
  unbondingQueue : ws.unbondingQueue.length < 2 ^ 63

section

variable {K V : Type} [DecidableEq K] {f : MapRange K V} {m : GoMap K V} {less : V → V → Bool}

theorem length_list : (f.list m).length = m.keys.card := by
  have hkeys : ((f.list m).map Prod.fst).toFinset = m.keys := by
    ext k
    rw [List.mem_toFinset, List.mem_map, Finmap.mem_keys, ← Finmap.lookup_isSome, Option.isSome_iff_exists]
    constructor
    · intro h
      obtain ⟨e, he, rfl⟩ := h
      exact ⟨e.2, MapRange.mem_list.mp he⟩
    · intro h
      obtain ⟨v, hv⟩ := h
      exact ⟨(k, v), MapRange.mem_list.mpr hv, rfl⟩
  rw [← hkeys, List.toFinset_card_of_nodup MapRange.nodup_keys, List.length_map]

theorem length_sortSlice {l : List V} : (sortSlice less l).length = l.length :=
  (List.perm_insertionSort _ l).length_eq

theorem length_sorted : (sortSlice less ((f.list m).map (·.2))).length = m.keys.card := by
  rw [length_sortSlice, List.length_map, length_list]

/-- Of a map whose records carry their keys, the slice has the records. -/
theorem mem_sorted {key : V → K} (hkey : ∀ k v, m.lookup k = some v → key v = k) {v : V} :
    v ∈ sortSlice less ((f.list m).map (·.2)) ↔ m.lookup (key v) = some v := by
  have hmem : v ∈ sortSlice less ((f.list m).map (·.2)) ↔ v ∈ (f.list m).map (·.2) :=
    (List.perm_insertionSort _ _).mem_iff
  rw [hmem, List.mem_map]
  constructor
  · intro h
    obtain ⟨e, he, rfl⟩ := h
    have hl := MapRange.mem_list.mp he
    rw [hkey _ _ hl]
    exact hl
  · intro h
    exact ⟨(key v, v), MapRange.mem_list.mpr h, rfl⟩

/-- Slices alike up to `R`, which keeps the keys, are of maps alike up to `R`. -/
theorem lookup_rel {key : V → K} {R : V → V → Prop} (hR : ∀ v w, R v w → key w = key v) {f' : MapRange K V}
    {m' : GoMap K V} (hkey : ∀ k v, m.lookup k = some v → key v = k) (hkey' : ∀ k v, m'.lookup k = some v → key v = k)
    (h : List.Forall₂ R (sortSlice less ((f.list m).map (·.2))) (sortSlice less ((f'.list m').map (·.2)))) (k : K) :
    Option.Rel R (m.lookup k) (m'.lookup k) := by
  have hfound : ∀ v, m.lookup k = some v → ∃ w, m'.lookup k = some w ∧ R v w := by
    intro v hv
    have hk := hkey k v hv
    obtain ⟨w, hw, hvw⟩ := h.exists_of_mem ((mem_sorted hkey).mpr (hk.symm ▸ hv))
    refine ⟨w, ?_, hvw⟩
    rw [← hk, ← hR v w hvw]
    exact (mem_sorted hkey').mp hw
  have hfound' : ∀ w, m'.lookup k = some w → ∃ v, m.lookup k = some v := by
    intro w hw
    have hk := hkey' k w hw
    obtain ⟨v, hv, hvw⟩ := h.flip.exists_of_mem ((mem_sorted hkey').mpr (hk.symm ▸ hw))
    refine ⟨v, ?_⟩
    rw [← hk, hR v w hvw]
    exact (mem_sorted hkey).mp hv
  cases hv : m.lookup k with
  | some v =>
    obtain ⟨w, hw, hvw⟩ := hfound v hv
    rw [hw]
    exact .some hvw
  | none =>
    cases hw : m'.lookup k with
    | none => exact .none
    | some w =>
      obtain ⟨v, hv'⟩ := hfound' w hw
      rw [hv] at hv'
      cases hv'

end

theorem stateRootBytes_eq : stateRootBytes ord ws =
    let accounts := sortSlice lessAccount (ws.allAccounts ord)
    let posts := sortSlice lessPost (ws.allPosts ord)
    let postStakes := sortSlice lessPostStake (ws.allPostStakes ord)
    putUint64 (UInt64.ofNat accounts.length) ++ (accounts.flatMap (writeAccount []) ++
    (putUint64 (UInt64.ofNat posts.length) ++ (posts.flatMap (writePost []) ++
    (putUint64 (UInt64.ofNat postStakes.length) ++ (postStakes.flatMap (writePostStake []) ++
    (putUint64 (UInt64.ofNat ws.activeValidators.length) ++ (ws.activeValidators.flatMap (writeValidator []) ++
    (putUint64 (UInt64.ofNat ws.unbondingQueue.length) ++ (ws.unbondingQueue.flatMap (writeUnbonding []) ++
    (putUint64 ws.currentEpoch ++ (putUint64 ws.burnedSupply ++ (putUint64 ws.issuedSupply ++
      putUint64 ws.chainHeight)))))))))))) := by
  simp only [stateRootBytes, writeAccount_appends.writeList, writePost_appends.writeList,
    writePostStake_appends.writeList, writeValidator_appends.writeList, writeUnbonding_appends.writeList,
    HashWriter.writeUint64, newHashWriter, List.nil_append, List.append_assoc]

/-- The names of the accounts determine the index. -/
theorem Twin.ofAccounts_nameIndex {keep : Bool} (hi : Indexed ws) (hi' : Indexed ws')
    (h : ∀ a, Option.Rel (SameAccount keep) (ws.getAccount a) (ws'.getAccount a)) : ws'.nameIndex = ws.nameIndex := by
  have hiff : ∀ {w : WorldState}, Indexed w → ∀ n a, w.nameIndex.lookup n = some a ↔
      n ≠ .empty ∧ (w.getAccount a).map (·.name) = some n := by
    intro w hw n a
    constructor
    · intro hl
      obtain ⟨hne, acct, hg, hn⟩ := hw.owned n a hl
      exact ⟨hne, by rw [hg, Option.map_some, hn]⟩
    · intro hl
      obtain ⟨hne, hname⟩ := hl
      obtain ⟨acct, hg, rfl⟩ := Option.map_eq_some_iff.mp hname
      exact hw.found a acct hg hne
  refine Finmap.ext_lookup fun n => Option.ext fun a => ?_
  rw [hiff hi, hiff hi']
  have hrel := h a
  generalize ws.getAccount a = o at hrel
  generalize ws'.getAccount a = o' at hrel
  cases hrel with
  | none => rfl
  | some hsame => rw [Option.map_some, Option.map_some, hsame.name]

/-- The offences that one of two states has on record and the other has not. -/
def onOneRecord (ws ws' : WorldState) : Finset (Address × UInt64) := symmDiff ws.slashRecord ws'.slashRecord

/-- **What the root commits to**: two states hashed from the same bytes are twins. -/
theorem twin_of_stateRootBytes (hi : Indexed ws) (hi' : Indexed ws') (hs : Sized ws) (hs' : Sized ws')
    (h : stateRootBytes ord ws = stateRootBytes ord' ws') : Twin false {x | x ∉ onOneRecord ws ws'} ws ws' := by
  rw [stateRootBytes_eq, stateRootBytes_eq] at h
  dsimp only at h
  obtain ⟨haccounts, h⟩ := writeAccount_tells.list (length_sorted.trans_lt hs.accounts)
    (length_sorted.trans_lt hs'.accounts) h
  obtain ⟨hposts, h⟩ := writePost_tells.list (length_sorted.trans_lt hs.posts) (length_sorted.trans_lt hs'.posts) h
  obtain ⟨hstakes, h⟩ :=
    writePostStake_tells.list (length_sorted.trans_lt hs.postStakes) (length_sorted.trans_lt hs'.postStakes) h
  obtain ⟨hvalidators, h⟩ := writeValidator_tells.list hs.activeValidators hs'.activeValidators h
  obtain ⟨hqueue, h⟩ := writeUnbonding_tells.list hs.unbondingQueue hs'.unbondingQueue h
  obtain ⟨hepoch, h⟩ := putUint64_delimited _ _ _ _ h
  obtain ⟨hburned, h⟩ := putUint64_delimited _ _ _ _ h
  obtain ⟨hissued, h⟩ := putUint64_delimited _ _ _ _ h
  have hheight := putUint64_delimited.injective h
  have haccount := lookup_rel (fun x y hxy => SameAccount.address hxy) hi.keyed.account hi'.keyed.account haccounts
  have hpost := lookup_rel (fun x y hxy => congrArg Post.postID (Eq.symm hxy)) hi.keyed.post hi'.keyed.post hposts
  have hkey : ∀ {w : WorldState}, Indexed w → ∀ k s, w.postStakes.lookup k = some s → (s.postID, s.staker) = k :=
    fun hw k s hl => Prod.ext (hw.keyed.stake k.1 k.2 s hl).1 (hw.keyed.stake k.1 k.2 s hl).2
  have hstake := lookup_rel (fun x y hxy => by rw [hxy]) (hkey hi) (hkey hi') hstakes
  have heq : ∀ {K V : Type} [DecidableEq K] {m m' : GoMap K V}, (∀ k, Option.Rel Eq (m.lookup k) (m'.lookup k)) →
      m' = m := by
    intro K V _ m m' hrel
    refine Finmap.ext_lookup fun k => ?_
    have hk := hrel k
    generalize m.lookup k = o at hk
    generalize m'.lookup k = o' at hk
    cases hk with
    | none => rfl
    | some hvw => rw [hvw]
  constructor
  · exact haccount
  · exact heq hpost
  · intro n
    rw [Twin.ofAccounts_nameIndex hi hi' haccount]
    exact Twin.optionRel_refl (fun _ => .inl rfl) _
  · exact heq hstake
  · exact (List.forall₂_eq_eq_eq ▸ hvalidators : ws.activeValidators = ws'.activeValidators).symm
  · exact (List.forall₂_eq_eq_eq ▸ hqueue : ws.unbondingQueue = ws'.unbondingQueue).symm
  · intro x hx
    have hx : ¬ (x ∈ ws.slashRecord ∧ x ∉ ws'.slashRecord ∨ x ∈ ws'.slashRecord ∧ x ∉ ws.slashRecord) :=
      fun hc => hx (Finset.mem_symmDiff.mpr hc)
    tauto
  · exact hburned.symm
  · exact hissued.symm
  · exact hheight.symm
  · exact hepoch.symm

/-- An account as the root sees it. -/
def rooted (acct : Account) : Account := { acct with postStakeBalance := 0 }

theorem writeList_rooted (l : List Account) (hw : HashWriter) :
    writeList writeAccount hw (l.map rooted) = writeList writeAccount hw l := by
  rw [writeList, writeList, List.foldl_map, List.length_map]
  rfl

theorem sortSlice_rooted (l : List Account) :
    (sortSlice lessAccount l).map rooted = sortSlice lessAccount (l.map rooted) :=
  List.map_insertionSort _ _ rooted l fun _ _ _ _ => Iff.rfl

theorem Twin.accounts_perm {keep : Bool} {S : Set (Address × UInt64)} (hk : Keyed ws) (h : Twin keep S ws ws') :
    ((ws.allAccounts ord).map rooted).Perm ((ws'.allAccounts ord').map rooted) := by
  have hnodup : ∀ {w : WorldState} {f : RangeOrder}, Keyed w → ((w.allAccounts f).map rooted).Nodup := by
    intro w f hw
    have hkeys : ((w.allAccounts f).map rooted).map Account.address = (f.accounts.list w.accounts).map Prod.fst := by
      rw [WorldState.allAccounts, List.map_map, List.map_map]
      exact List.map_congr_left fun e he => hw.account e.1 e.2 (MapRange.mem_list.mp he)
    exact List.Nodup.of_map _ (hkeys ▸ MapRange.nodup_keys)
  have hmem : ∀ {w : WorldState} {f : RangeOrder} {acct : Account}, Keyed w →
      (acct ∈ (w.allAccounts f).map rooted ↔ (w.getAccount acct.address).map rooted = some acct) := by
    intro w f acct hw
    simp only [WorldState.allAccounts, List.mem_map, Option.map_eq_some_iff]
    constructor
    · intro hacct
      obtain ⟨x, ⟨e, he, rfl⟩, rfl⟩ := hacct
      have hg := MapRange.mem_list.mp he
      refine ⟨e.2, ?_, rfl⟩
      change w.getAccount e.2.address = _
      rw [hw.account _ _ hg]
      exact hg
    · intro hacct
      obtain ⟨x, hg, hx⟩ := hacct
      exact ⟨x, ⟨(acct.address, x), MapRange.mem_list.mpr hg, rfl⟩, hx⟩
  refine (List.perm_ext_iff_of_nodup (hnodup hk) (hnodup (h.keyed hk))).mpr fun acct => ?_
  rw [hmem hk, hmem (h.keyed hk)]
  rcases h.cases acct.address with ⟨h₁, h₂⟩ | ⟨x, q, h₁, h₂, -⟩
  · rw [h₁, h₂]
  · rw [h₁, h₂]
    rfl

/-- Twins are hashed from the same bytes. -/
theorem Twin.stateRootBytes {keep : Bool} {S : Set (Address × UInt64)} (hk : Keyed ws) (h : Twin keep S ws ws') :
    stateRootBytes ord' ws' = stateRootBytes ord ws := by
  have hrooted : sortSlice lessAccount ((ws'.allAccounts ord').map rooted) =
      sortSlice lessAccount ((ws.allAccounts ord).map rooted) := by
    refine sortSlice_perm lessAccount_iff (h.accounts_perm hk).symm fun x hx y hy he => ?_
    obtain ⟨a, ha, rfl⟩ := List.mem_map.mp hx
    obtain ⟨b, hb, rfl⟩ := List.mem_map.mp hy
    rw [values_injOn Account.address (h.keyed hk).account a ha b hb (ByteArr.toList_inj he)]
  have haccounts : writeList writeAccount newHashWriter (sortSlice lessAccount (ws'.allAccounts ord')) =
      writeList writeAccount newHashWriter (sortSlice lessAccount (ws.allAccounts ord)) := by
    rw [← writeList_rooted, ← writeList_rooted (sortSlice lessAccount (ws.allAccounts ord)), sortSlice_rooted,
      sortSlice_rooted, hrooted]
  rw [Drana.stateRootBytes, haccounts, sortedPosts_congr hk h.posts,
    sortedPostStakes_congr hk h.postStakes, h.activeValidators, h.unbondingQueue, h.currentEpoch, h.burnedSupply,
    h.issuedSupply, h.chainHeight]
  rfl

/-- Twins have one root. -/
theorem Twin.computeStateRoot {keep : Bool} {S : Set (Address × UInt64)} (hk : Keyed ws) (h : Twin keep S ws ws') :
    computeStateRoot E ord' ws' = computeStateRoot E ord ws :=
  congrArg (HashWriter.sum256 E) (h.stateRootBytes hk)

/-! ## Map orders -/

/-- Two states nobody can tell apart, by their contents or by their roots. -/
structure SameContents (E : Env) (ws ws' : WorldState) : Prop where
  accounts : ws'.accounts = ws.accounts
  posts : ws'.posts = ws.posts
  postStakes : ws'.postStakes = ws.postStakes
  unbondingQueue : ws'.unbondingQueue = ws.unbondingQueue
  activeValidators : ws'.activeValidators = ws.activeValidators
  slashRecord : ws'.slashRecord = ws.slashRecord
  burnedSupply : ws'.burnedSupply = ws.burnedSupply
  issuedSupply : ws'.issuedSupply = ws.issuedSupply
  chainHeight : ws'.chainHeight = ws.chainHeight
  currentEpoch : ws'.currentEpoch = ws.currentEpoch
  taken : ∀ n, (ws'.getAccountByName n).isSome = (ws.getAccountByName n).isSome
  root : ∀ ord ord', computeStateRoot E ord' ws' = computeStateRoot E ord ws

/-- Where post-staked balances are kept too, twins have one table of accounts. -/
theorem Twin.accounts_eq {S : Set (Address × UInt64)} (h : Twin true S ws ws') : ws'.accounts = ws.accounts := by
  refine Finmap.ext_lookup fun a => ?_
  rcases h.cases a with ⟨h₁, h₂⟩ | ⟨acct, q, h₁, h₂, hq⟩
  · exact h₂.trans h₁.symm
  · rw [hq rfl] at h₂
    exact h₂.trans h₁.symm

/-- What no node has lost, none has forgotten. -/
theorem noneForgotten_empty (ws : WorldState) (evs : List SlashEvidence) : NoneForgotten E params ∅ ws evs := by
  induction evs generalizing ws with
  | nil => trivial
  | cons ev evs ih =>
    refine ⟨fun _ hl => absurd hl (Finset.notMem_empty _), ?_⟩
    split
    · exact ih _
    · trivial

theorem applyBlock_ordered (hk : Keyed ws) (order order' : Nat → RangeOrder) (block : Block) :
    Both (Twin true {x | x ∉ (∅ : Finset (Address × UInt64))})
      (applyBlock E .go params order ws block) (applyBlock E .go params order' ws block) :=
  applyBlock_twin hk .refl fun w _ => noneForgotten_empty w block.evidence

/-- **Execution does not depend on map orders**: a block has one verdict and
leads to one state with one root, however two nodes range over their maps, each
time they do. That records are filed under their own keys is what the methods
of the state, which alone write its maps, see to. -/
theorem applyBlock_order_irrelevant (hk : Keyed ws) (order order' : Nat → RangeOrder) (block : Block) :
    Both (SameContents E) (applyBlock E .go params order ws block) (applyBlock E .go params order' ws block) := by
  refine (applyBlock_ordered hk order order' block).mono fun w w' hw _ htwin => ?_
  have hk' := (applyBlock_writes hw).keyed hk
  constructor
  · exact htwin.accounts_eq
  · exact htwin.posts
  · exact htwin.postStakes
  · exact htwin.unbondingQueue
  · exact htwin.activeValidators
  · ext x
    exact htwin.slashRecord x (Finset.notMem_empty x)
  · exact htwin.burnedSupply
  · exact htwin.issuedSupply
  · exact htwin.chainHeight
  · exact htwin.currentEpoch
  · exact htwin.taken_iff
  · exact fun ord ord' => htwin.computeStateRoot hk'

/-- A node that ranges over its maps the other way round. -/
def Sample.backwards : RangeOrder := ⟨order.accounts.reversed, order.posts.reversed, order.postStakes.reversed⟩

/-- A post of key 1 that key 2 has boosted. -/
def Sample.oneBoost : WorldState :=
  (applyBlocks env .go config genesis [block 1 [createPost 1 100 1, boostPost 2 firstPost 100 1]]).value

/-- Key 3 boosts it, too, and its author takes it back. -/
def Sample.takenBack : Block := (block 2 [boostPost 3 firstPost 100 1, unstakePost 1 firstPost 2]).2

theorem Sample.takenBack_run :
    (applyBlocks env .go config genesis [block 1 [createPost 1 100 1, boostPost 2 firstPost 100 1]]).isOk = true ∧
    (applyBlock env .go config (fun _ => order) oneBoost takenBack).isOk = true := by
  decide +kernel

theorem applyBlock_order_irrelevant_backwards :
    (applyBlock Sample.env .go Sample.config (fun _ => Sample.order) Sample.oneBoost Sample.takenBack).isOk = true ∧
    Both (SameContents Sample.env)
      (applyBlock Sample.env .go Sample.config (fun _ => Sample.order) Sample.oneBoost Sample.takenBack)
      (applyBlock Sample.env .go Sample.config (fun _ => Sample.backwards) Sample.oneBoost Sample.takenBack) := by
  have hrun : applyBlocks Sample.env .go Sample.config Sample.genesis
      [Sample.block 1 [Sample.createPost 1 100 1, Sample.boostPost 2 Sample.firstPost 100 1]] = .ok Sample.oneBoost :=
    Except.ok_value Sample.takenBack_run.1
  have hk : Keyed Sample.oneBoost := (keeps_writes.invariant .refl hrun).keyed
    (initializeState_fresh Sample.genesis_ok).1.keyed
  refine ⟨Sample.takenBack_run.2, ?_⟩
  generalize Sample.oneBoost = ws at hk
  exact applyBlock_order_irrelevant hk _ _ _

/-! ## The future -/

/-- The roots a node computes along a run: one after each block, none where a
block is refused. A block's last map order is the root's. -/
def rootsAlong (E : Env) (params : GenesisConfig) : WorldState → List ((Nat → RangeOrder) × Block) → List (Option Hash)
  | _, [] => []
  | ws, b :: bs =>
    match applyBlock E .go params b.1 ws b.2 with
    | .ok ws' => some (computeStateRoot E (b.1 (b.2.transactions.length + 1)) ws') :: rootsAlong E params ws' bs
    | .error _ => [none]

/-- The events of a node that applies blocks. -/
def applied (bs : List ((Nat → RangeOrder) × Block)) : List NodeEvent := bs.map fun b => .apply b.1 b.2

/-- Twins have one future. -/
theorem Twin.rootsAlong {keep : Bool} {lost : Finset (Address × UInt64)} {bs bs' : List ((Nat → RangeOrder) × Block)}
    (hk : Keyed ws) (h : Twin keep {x | x ∉ lost} ws ws') (hbs : bs'.map (·.2) = bs.map (·.2))
    (hn : NoneForgottenAlong E params lost (ws, ∅) (applied bs)) :
    rootsAlong E params ws' bs' = rootsAlong E params ws bs := by
  induction bs generalizing bs' ws ws' with
  | nil =>
    obtain rfl := List.map_eq_nil_iff.mp hbs
    rfl
  | cons b bs ih =>
    cases bs' with
    | nil => cases hbs
    | cons b' bs' =>
      obtain ⟨order, block⟩ := b
      obtain ⟨order', block'⟩ := b'
      simp only [List.map_cons, List.cons.injEq] at hbs
      obtain ⟨rfl, hbs⟩ := hbs
      obtain ⟨hhere, hthere⟩ := hn
      have hevidence : ∀ w, releaseMatured .go ws block'.header.height = .ok w →
          NoneForgotten E params lost w block'.evidence := by
        intro w hw
        simpa only [NodeEvent.NoneForgotten, hw] using hhere
      have hstep : Except.Both (Twin keep {x | x ∉ lost}) (applyBlock E .go params order ws block')
          (applyBlock E .go params order' ws' block') := applyBlock_twin hk h hevidence
      rw [Drana.rootsAlong, Drana.rootsAlong]
      cases hw : applyBlock E .go params order ws block' with
      | error e => rw [hstep.error_left hw]
      | ok w =>
        obtain ⟨w', hw', htwin⟩ := hstep.ok_left hw
        have hk' := (applyBlock_writes hw).keyed hk
        simp only [NodeEvent.run, hw, Except.ok_bind, NodeEvent.forgets, Finset.union_empty] at hthere
        simp only [hw']
        rw [htwin.computeStateRoot hk', ih hk' htwin hbs hthere]

/-- **The root binds the future**: from two states with one root, whatever
restarts they have behind them, the same blocks are accepted and lead to the
same roots, unless one of them brings evidence of an offence that only one of
the two has on record, against a validator with something at risk. -/
theorem root_binds_future (hr : Reachable E params ws) (hr' : Reachable E params ws') (hs : Sized ws) (hs' : Sized ws')
    (hfree : E.sha256 (stateRootBytes ord ws) = E.sha256 (stateRootBytes ord' ws') →
      stateRootBytes ord ws = stateRootBytes ord' ws')
    (hroot : computeStateRoot E ord ws = computeStateRoot E ord' ws') {bs bs' : List ((Nat → RangeOrder) × Block)}
    (hbs : bs'.map (·.2) = bs.map (·.2))
    (hn : NoneForgottenAlong E params (onOneRecord ws ws') (ws, ∅) (applied bs)) :
    rootsAlong E params ws' bs' = rootsAlong E params ws bs :=
  (twin_of_stateRootBytes hr.indexed hr'.indexed hs hs' (hfree hroot)).rootsAlong hr.indexed.keyed hbs hn

section

open Sample

/-- Key 1 punished for its double vote. -/
def Sample.punished : WorldState := (applyBlock env .go config (fun _ => order) genesis (accusing 1)).value

/-- The same after a restart. -/
def Sample.restarted : WorldState := (loadState (saveState order punished ∅)).value

instance (ws : WorldState) : Decidable (Sized ws) :=
  decidable_of_iff (ws.accounts.keys.card < 2 ^ 63 ∧ ws.posts.keys.card < 2 ^ 63 ∧ ws.postStakes.keys.card < 2 ^ 63 ∧
    ws.activeValidators.length < 2 ^ 63 ∧ ws.unbondingQueue.length < 2 ^ 63)
    ⟨fun ⟨h₁, h₂, h₃, h₄, h₅⟩ => ⟨h₁, h₂, h₃, h₄, h₅⟩, fun ⟨h₁, h₂, h₃, h₄, h₅⟩ => ⟨h₁, h₂, h₃, h₄, h₅⟩⟩

theorem Sample.accused_run :
    (applyBlock env .go config (fun _ => order) genesis (accusing 1)).isOk = true ∧
    (loadState (saveState order punished ∅)).isOk = true ∧
    stateRootBytes order punished = stateRootBytes order restarted ∧ Sized punished ∧ Sized restarted ∧
    NoneForgottenAlong env config (onOneRecord punished restarted) (punished, ∅) (applied [block 2 []]) ∧
    rootsAlong env config restarted [(fun _ => order, accusing 2)] ≠
      rootsAlong env config punished [(fun _ => order, accusing 2)] := by decide +kernel

theorem Sample.punished_run :
    (NodeEvent.apply (fun _ => order) (accusing 1)).run env config (genesis, ∅) = .ok (punished, ∅) := by
  have hrun : applyBlock env .go config (fun _ => order) genesis (accusing 1) = .ok punished :=
    Except.ok_value accused_run.1
  rw [NodeEvent.run, hrun]
  rfl

theorem Sample.restarted_run :
    (NodeEvent.restart order).run env config (punished, ∅) = .ok (restarted, saveState order punished ∅) := by
  have hrun : loadState (saveState order punished ∅) = .ok restarted := Except.ok_value accused_run.2.1
  rw [NodeEvent.run, hrun]
  rfl

theorem Sample.punished_reachable : Reachable env config punished :=
  ⟨genesis, [.apply (fun _ => order) (accusing 1)], ∅, genesis_ok,
    Except.foldlM_cons_ok_iff.mpr ⟨_, punished_run, Except.foldlM_nil_ok_iff.mpr rfl⟩⟩

theorem Sample.restarted_reachable : Reachable env config restarted :=
  ⟨genesis, [.apply (fun _ => order) (accusing 1), .restart order], saveState order punished ∅, genesis_ok,
    Except.foldlM_cons_ok_iff.mpr ⟨_, punished_run,
      Except.foldlM_cons_ok_iff.mpr ⟨_, restarted_run, Except.foldlM_nil_ok_iff.mpr rfl⟩⟩⟩

/-- One more block leads both to one root. -/
theorem root_binds_future_restarted : rootsAlong env config restarted [block 2 []] = rootsAlong env config punished
    [block 2 []] := by
  obtain ⟨-, -, hbytes, hsized, hsized', hnone, -⟩ := accused_run
  exact root_binds_future punished_reachable restarted_reachable hsized hsized' (fun _ => hbytes)
    (congrArg env.sha256 hbytes) rfl hnone

/-- The same evidence again splits the two. -/
theorem root_splits : Reachable env config punished ∧ Reachable env config restarted ∧
    stateRootBytes order punished = stateRootBytes order restarted ∧
    rootsAlong env config restarted [(fun _ => order, accusing 2)] ≠
      rootsAlong env config punished [(fun _ => order, accusing 2)] := by
  obtain ⟨-, -, hbytes, -, -, -, hroots⟩ := accused_run
  exact ⟨punished_reachable, restarted_reachable, hbytes, hroots⟩

end

end Drana
