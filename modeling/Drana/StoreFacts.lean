/-
What is saved is loaded: each record decodes to what was encoded, and a
database that holds the entries of a state loads as that state.
-/
import Drana.Store

namespace Drana

open Except (throwIf)

/-! ## Reading what was written -/

section

variable {n : Nat} (a : ByteArr n) (v : UInt64) (w : UInt32) (r : List UInt8)

@[simp] theorem drop_toList : (a.toList ++ r).drop n = r := List.drop_left' (by simp)
@[simp] theorem copyFrom_take_toList : ByteArr.copyFrom ((a.toList ++ r).take n) = a := by
  rw [List.take_left' (by simp), ByteArr.copyFrom_toList]

@[simp] theorem drop_putUint64 : (putUint64 v ++ r).drop 8 = r := rfl
@[simp] theorem drop_putUint32 : (putUint32 w ++ r).drop 4 = r := rfl

@[simp] theorem readUint64_put : readUint64 (putUint64 v ++ r) = .ok v := by
  rw [readUint64, getUint64_put]
  rfl

@[simp] theorem readUint64_put_nil : readUint64 (putUint64 v) = .ok v := by
  simpa using readUint64_put v []

@[simp] theorem readUint32_put : readUint32 (putUint32 w ++ r) = .ok w := by
  rw [readUint32, getUint32_put]
  rfl

end

theorem toNat_ofNat_length {k : Nat} (h : k < 2 ^ 32) : (UInt32.ofNat k).toNat = k := by
  rw [UInt32.toNat_ofNat']
  exact Nat.mod_eq_of_lt h

/-! ## Records -/

theorem decodeName_encode {s : GoString} (h : s.length < 2 ^ 32) :
    decodeName (putUint32 (UInt32.ofNat s.length) ++ s.bytes) = .ok s := by
  have hlen := toNat_ofNat_length h
  unfold decodeName
  split
  · have htake : GoString.ofTake (UInt32.ofNat s.length) s.bytes = s := by
      simpa using GoString.ofTake_append (r := []) hlen
    have hle : s.bytes.length ≥ (UInt32.ofNat s.length).toNat := by
      rw [hlen]
      exact Nat.le_refl _
    simp only [readUint32_put, drop_putUint32, Except.ok_bind, htake, if_pos hle]
    rfl
  · next hshort =>
    -- A name is left out only if it is empty.
    have h₀ : s.bytes = [] := by
      rw [List.length_append, length_putUint32] at hshort
      exact List.eq_nil_of_length_eq_zero (by omega)
    rw [Except.pure_ok_iff]
    exact GoString.ext h₀.symm

theorem decodeAccount_encode {a : Account} (h : a.name.length < 2 ^ 32) :
    decodeAccount (encodeAccount a) = .ok a := by
  have hname := decodeName_encode h
  simp only [decodeAccount, encodeAccount, List.append_assoc, drop_toList, copyFrom_take_toList, drop_putUint64,
    readUint64_put, Except.ok_bind, hname, List.length_append, Vector.length_toList, length_putUint64,
    length_putUint32]
  rw [throwIf, if_neg (by omega), if_pos (by omega), if_pos (by omega)]
  rfl

theorem decodePostEnd_encode {s : GoString} (h : s.length < 2 ^ 32) (p : PostID) :
    decodePostEnd (putUint32 (UInt32.ofNat s.length) ++ (s.bytes ++ p.toList)) = .ok (s, p) := by
  have hlen := toNat_ofNat_length h
  have htake : GoString.ofTake (UInt32.ofNat s.length) (s.bytes ++ p.toList) = s := GoString.ofTake_append hlen
  have hle : (s.bytes ++ p.toList).length ≥ (UInt32.ofNat s.length).toNat := by
    rw [hlen, List.length_append]
    exact Nat.le_add_right _ _
  have hdrop : (s.bytes ++ p.toList).drop (UInt32.ofNat s.length).toNat = p.toList :=
    List.drop_left' hlen.symm
  have hparent : ByteArr.copyFrom (p.toList.take 32) = p := by
    simpa using copyFrom_take_toList p []
  have h32 : p.toList.length ≥ 32 := by simp
  rw [decodePostEnd, if_pos (by simp)]
  simp only [drop_putUint32, readUint32_put, Except.ok_bind, htake, if_pos hle, hdrop, hparent, if_pos h32]
  rfl

theorem decodePost_encode {p : Post} (ht : p.text.length < 2 ^ 32) (hc : p.channel.length < 2 ^ 32) :
    decodePost (encodePost p) = .ok p := by
  have hlen := toNat_ofNat_length ht
  have hend := decodePostEnd_encode hc p.parentPostID
  have htake := GoString.ofTake_append (s := p.text)
    (r := putUint32 (UInt32.ofNat p.channel.length) ++ (p.channel.bytes ++ p.parentPostID.toList)) hlen
  have hdrop : (p.text.bytes ++ (putUint32 (UInt32.ofNat p.channel.length) ++
      (p.channel.bytes ++ p.parentPostID.toList))).drop (UInt32.ofNat p.text.length).toNat =
        putUint32 (UInt32.ofNat p.channel.length) ++ (p.channel.bytes ++ p.parentPostID.toList) :=
    List.drop_left' hlen.symm
  have hflag : decide ((if p.withdrawn then (1 : UInt8) else 0) = 1) = p.withdrawn := by
    cases p.withdrawn <;> rfl
  simp only [decodePost, encodePost, List.append_assoc, List.cons_append, List.nil_append, drop_toList,
    copyFrom_take_toList, drop_putUint64, drop_putUint32, readUint64_put, readUint32_put, Except.ok_bind, htake, hdrop,
    hend, List.head?_cons, List.drop_succ_cons, List.drop_zero, Option.some.injEq, hflag]
  simp only [throwIf, List.length_append, List.length_cons, Vector.length_toList, length_putUint64,
    length_putUint32]
  rw [if_neg (by omega), hlen, if_neg (by rw [GoString.length]; omega)]
  simp

theorem decodePostStake_encode (s : PostStake) : decodePostStake (encodePostStake s) = .ok s := by
  simp only [decodePostStake, encodePostStake, List.append_assoc, drop_toList, copyFrom_take_toList, drop_putUint64,
    readUint64_put, readUint64_put_nil, Except.ok_bind, List.length_append, Vector.length_toList, length_putUint64]
  rw [throwIf, if_neg (by omega)]
  rfl

/-! ## Lists of records -/

theorem decodeEntries_encode {α : Type} {entrySize : Nat} {decode : List UInt8 → α} {encode : α → List UInt8}
    (hsize : ∀ x, (encode x).length = entrySize) (hdecode : ∀ x r, decode (encode x ++ r) = x) (l : List α) :
    decodeEntries entrySize decode l.length (l.flatMap encode) = l := by
  induction l with
  | nil => rfl
  | cons x l ih =>
    have hle : entrySize ≤ (encode x ++ l.flatMap encode).length := by
      rw [List.length_append, hsize]
      exact Nat.le_add_right _ _
    rw [List.length_cons, decodeEntries, List.flatMap_cons, if_pos hle, hdecode, List.drop_left' (hsize x), ih]

theorem decodeList_encode {α : Type} {entrySize : Nat} {decode : List UInt8 → α} {encode : α → List UInt8}
    (hsize : ∀ x, (encode x).length = entrySize) (hdecode : ∀ x r, decode (encode x ++ r) = x) {l : List α}
    (h : l.length < 2 ^ 32) :
    decodeList entrySize decode (putUint32 (UInt32.ofNat l.length) ++ l.flatMap encode) = l := by
  rw [decodeList, getUint32_put]
  simp only [drop_putUint32, toNat_ofNat_length h]
  exact decodeEntries_encode hsize hdecode l

theorem decodeValidatorSet_encode {vs : List ValidatorStake} (h : vs.length < 2 ^ 32) :
    decodeValidatorSet (encodeValidatorSet vs) = vs := by
  refine decodeList_encode (fun v => ?_) (fun v r => ?_) h
  · simp [encodeValidator]
  · have h₁ : (v.address.toList ++ (v.pubKey.toList ++ (putUint64 v.stakedBalance ++ r))).drop 56 =
        putUint64 v.stakedBalance ++ r := by
      rw [← List.append_assoc]
      exact List.drop_left' (by simp)
    simp only [decodeValidator, encodeValidator, List.append_assoc, copyFrom_take_toList, drop_toList, h₁,
      getUint64_put, Option.getD_some]

theorem decodeUnbondingQueue_encode {es : List UnbondingEntry} (h : es.length < 2 ^ 32) :
    decodeUnbondingQueue (encodeUnbondingQueue es) = es := by
  refine decodeList_encode (fun e => ?_) (fun e r => ?_) h
  · simp [encodeUnbonding]
  · have h₁ : (e.address.toList ++ (putUint64 e.amount ++ (putUint64 e.releaseHeight ++ r))).drop 32 =
        putUint64 e.releaseHeight ++ r := by
      rw [← List.append_assoc]
      exact List.drop_left' (by simp)
    simp only [decodeUnbonding, encodeUnbonding, List.append_assoc, copyFrom_take_toList, drop_toList, h₁,
      getUint64_put, Option.getD_some]

/-! ## The entries of a state -/

/-- A pair that a database holding `ws` has. -/
inductive Entry (ws : WorldState) : List UInt8 → List UInt8 → Prop
  | account (a : Address) (acct : Account) (h : ws.getAccount a = some acct) :
    Entry ws (prefixAccount ++ a.toList) (encodeAccount acct)
  | post (p : PostID) (post : Post) (h : ws.getPost p = some post) :
    Entry ws (prefixPost ++ p.toList) (encodePost post)
  | burnedSupply : Entry ws keyBurnedSupply (putUint64 ws.burnedSupply)
  | issuedSupply : Entry ws keyIssuedSupply (putUint64 ws.issuedSupply)
  | chainHeight : Entry ws keyChainHeight (putUint64 ws.chainHeight)
  | currentEpoch : Entry ws keyCurrentEpoch (putUint64 ws.currentEpoch)
  | activeValidators : Entry ws keyActiveValidators (encodeValidatorSet ws.activeValidators)
  | unbondingQueue : Entry ws keyUnbondingQueue (encodeUnbondingQueue ws.unbondingQueue)
  | postStake (p : PostID) (a : Address) (s : PostStake) (h : ws.getPostStake p a = some s) :
    Entry ws (prefixPostStake ++ p.toList ++ a.toList) (encodePostStake s)

variable {ws ws' : WorldState} {ord : RangeOrder} {kv : KVStore} {k v : List UInt8}

theorem mem_savedEntries (hk : Keyed ws) : (k, v) ∈ savedEntries ord ws ↔ Entry ws k v := by
  simp only [savedEntries, List.mem_append, List.mem_map, List.mem_cons, List.not_mem_nil, or_false, Prod.mk.injEq,
    WorldState.allAccounts, WorldState.allPosts, WorldState.allPostStakes]
  constructor
  · rintro (((⟨acct, ⟨⟨a, acct'⟩, he, rfl⟩, rfl, rfl⟩ | ⟨post, ⟨⟨p, post'⟩, he, rfl⟩, rfl, rfl⟩) | h) |
      ⟨s, ⟨⟨⟨p, a⟩, s'⟩, he, rfl⟩, rfl, rfl⟩)
    · have hg := MapRange.mem_list.mp he
      rw [hk.account a acct' hg]
      exact .account a acct' hg
    · have hg := MapRange.mem_list.mp he
      rw [hk.post p post' hg]
      exact .post p post' hg
    · rcases h with ⟨rfl, rfl⟩ | ⟨rfl, rfl⟩ | ⟨rfl, rfl⟩ | ⟨rfl, rfl⟩ | ⟨rfl, rfl⟩ | ⟨rfl, rfl⟩
      · exact .burnedSupply
      · exact .issuedSupply
      · exact .chainHeight
      · exact .currentEpoch
      · exact .activeValidators
      · exact .unbondingQueue
    · have hg := MapRange.mem_list.mp he
      rw [(hk.stake p a s' hg).1, (hk.stake p a s' hg).2]
      exact .postStake p a s' hg
  · rintro (⟨a, acct, h⟩ | ⟨p, post, h⟩ | _ | _ | _ | _ | _ | _ | ⟨p, a, s, h⟩)
    · exact .inl (.inl (.inl ⟨acct, ⟨(a, acct), MapRange.mem_list.mpr h, rfl⟩, by rw [hk.account a acct h], rfl⟩))
    · exact .inl (.inl (.inr ⟨post, ⟨(p, post), MapRange.mem_list.mpr h, rfl⟩, by rw [hk.post p post h], rfl⟩))
    · exact .inl (.inr (.inl ⟨rfl, rfl⟩))
    · exact .inl (.inr (.inr (.inl ⟨rfl, rfl⟩)))
    · exact .inl (.inr (.inr (.inr (.inl ⟨rfl, rfl⟩))))
    · exact .inl (.inr (.inr (.inr (.inr (.inl ⟨rfl, rfl⟩)))))
    · exact .inl (.inr (.inr (.inr (.inr (.inr (.inl ⟨rfl, rfl⟩))))))
    · exact .inl (.inr (.inr (.inr (.inr (.inr (.inr ⟨rfl, rfl⟩))))))
    · refine .inr ⟨s, ⟨((p, a), s), MapRange.mem_list.mpr h, rfl⟩, ?_, rfl⟩
      rw [(hk.stake p a s h).1, (hk.stake p a s h).2]

namespace Entry

/-- What lies under a prefix is of that prefix's family: the first bytes of a
key tell the families apart. -/
theorem account_inv (h : Entry ws k v) (hpre : k.take 8 = prefixAccount) :
    ∃ a acct, ws.getAccount a = some acct ∧ k = prefixAccount ++ a.toList ∧ v = encodeAccount acct := by
  cases h with
  | account a acct h => exact ⟨a, acct, h, rfl, rfl⟩
  | _ => cases hpre

theorem post_inv (h : Entry ws k v) (hpre : k.take 5 = prefixPost) :
    ∃ p post, ws.getPost p = some post ∧ k = prefixPost ++ p.toList ∧ v = encodePost post := by
  cases h with
  | post p post h => exact ⟨p, post, h, rfl, rfl⟩
  | _ => cases hpre

theorem postStake_inv (h : Entry ws k v) (hpre : k.take 10 = prefixPostStake) :
    ∃ p a s, ws.getPostStake p a = some s ∧ k = prefixPostStake ++ p.toList ++ a.toList ∧
      v = encodePostStake s := by
  cases h with
  | postStake p a s h => exact ⟨p, a, s, h, rfl, rfl⟩
  | _ => cases hpre

end Entry

theorem accountKey_injective : Function.Injective fun a : Address => prefixAccount ++ a.toList :=
  fun _ _ h => ByteArr.toList_inj (List.append_cancel_left h)

theorem postKey_injective : Function.Injective fun p : PostID => prefixPost ++ p.toList :=
  fun _ _ h => ByteArr.toList_inj (List.append_cancel_left h)

theorem postStakeKey_injective :
    Function.Injective fun k : PostID × Address => prefixPostStake ++ k.1.toList ++ k.2.toList := by
  intro k k' h
  have h := List.append_inj h (by simp)
  exact Prod.ext (ByteArr.toList_inj (List.append_cancel_left h.1)) (ByteArr.toList_inj h.2)

/-- The database keys of a map's records are distinct. -/
theorem nodup_dbKeys {K V : Type} [DecidableEq K] {r : MapRange K V} {m : GoMap K V} {f : V → List UInt8}
    {dbKey : K → List UInt8} (hinj : dbKey.Injective) (h : ∀ k v, m.lookup k = some v → f v = dbKey k) :
    (((r.list m).map (·.2)).map f).Nodup := by
  have hkeys : ((r.list m).map (·.2)).map f = ((r.list m).map Prod.fst).map dbKey := by
    rw [List.map_map, List.map_map]
    exact List.map_congr_left fun e he => h e.1 e.2 (MapRange.mem_list.mp he)
  rw [hkeys]
  exact MapRange.nodup_keys.map hinj

theorem nodup_savedKeys (hk : Keyed ws) : ((savedEntries ord ws).map Prod.fst).Nodup := by
  have haccounts : ((ws.allAccounts ord).map fun a => prefixAccount ++ a.address.toList).Nodup :=
    nodup_dbKeys accountKey_injective fun a acct h => by rw [hk.account a acct h]
  have hposts : ((ws.allPosts ord).map fun p => prefixPost ++ p.postID.toList).Nodup :=
    nodup_dbKeys postKey_injective fun p post h => by rw [hk.post p post h]
  have hstakes : ((ws.allPostStakes ord).map fun s => prefixPostStake ++ s.postID.toList ++ s.staker.toList).Nodup :=
    nodup_dbKeys postStakeKey_injective fun k s h => by rw [(hk.stake k.1 k.2 s h).1, (hk.stake k.1 k.2 s h).2]
  -- The first five bytes of a key tell the families apart.
  have taccounts : ∀ k ∈ (ws.allAccounts ord).map fun a => prefixAccount ++ a.address.toList,
      k.take 5 = prefixAccount.take 5 := by
    rintro k hk
    obtain ⟨x, -, rfl⟩ := List.mem_map.mp hk
    rfl
  have tposts : ∀ k ∈ (ws.allPosts ord).map fun p => prefixPost ++ p.postID.toList, k.take 5 = prefixPost := by
    rintro k hk
    obtain ⟨x, -, rfl⟩ := List.mem_map.mp hk
    rfl
  have tmeta : ∀ k ∈ [keyBurnedSupply, keyIssuedSupply, keyChainHeight, keyCurrentEpoch, keyActiveValidators,
      keyUnbondingQueue], k.take 5 = prefixMeta := by decide
  have tstakes : ∀ k ∈ (ws.allPostStakes ord).map fun s => prefixPostStake ++ s.postID.toList ++ s.staker.toList,
      k.take 5 = prefixPostStake.take 5 := by
    rintro k hk
    obtain ⟨x, -, rfl⟩ := List.mem_map.mp hk
    rfl
  simp only [savedEntries, List.map_append, List.map_map, Function.comp_def, List.map_cons, List.map_nil]
  refine List.nodup_append.mpr ⟨List.nodup_append.mpr ⟨List.nodup_append.mpr ⟨haccounts, hposts, ?_⟩,
    by decide, ?_⟩, hstakes, ?_⟩
  · rintro k hk₁ k' hk₂ rfl
    exact absurd ((taccounts k hk₁).symm.trans (tposts k hk₂)) (by decide)
  · rintro k hk₁ k' hk₂ rfl
    rcases List.mem_append.mp hk₁ with hk₁ | hk₁
    · exact absurd ((taccounts k hk₁).symm.trans (tmeta k hk₂)) (by decide)
    · exact absurd ((tposts k hk₁).symm.trans (tmeta k hk₂)) (by decide)
  · rintro k hk₁ k' hk₂ rfl
    rcases List.mem_append.mp hk₁ with hk₁ | hk₁
    · rcases List.mem_append.mp hk₁ with hk₁ | hk₁
      · exact absurd ((taccounts k hk₁).symm.trans (tstakes k hk₂)) (by decide)
      · exact absurd ((tposts k hk₁).symm.trans (tstakes k hk₂)) (by decide)
    · exact absurd ((tmeta k hk₁).symm.trans (tstakes k hk₂)) (by decide)

/-! ## Saving -/

/-- The database holds the entries of `ws`, and nothing else. -/
def Holds (kv : KVStore) (ws : WorldState) : Prop := ∀ k v, kv.lookup k = some v ↔ Entry ws k v

/-- `ws'` with what is left of the stakes of `ws`, which saving does not delete. -/
def withOldStakes (ws ws' : WorldState) : WorldState := { ws' with postStakes := ws'.postStakes ∪ ws.postStakes }

theorem getPostStake_withOldStakes {p : PostID} {a : Address} :
    (withOldStakes ws ws').getPostStake p a = (ws'.getPostStake p a).or (ws.getPostStake p a) := by
  simp only [withOldStakes, WorldState.getPostStake]
  cases h : ws'.postStakes.lookup (p, a) with
  | none => rw [Finmap.lookup_union_right (Finmap.lookup_eq_none.mp h), Option.none_or]
  | some s =>
    rw [Finmap.lookup_union_left (Finmap.mem_of_lookup_eq_some h), h]
    rfl

/-- The key of an entry is a key that saving writes, if the state saved has the record. -/
theorem mem_savedKeys (hk : Keyed ws') (h : Entry ws' k v) : k ∈ (savedEntries ord ws').map Prod.fst :=
  List.mem_map.mpr ⟨(k, v), (mem_savedEntries hk).mpr h, rfl⟩

/-- **Saving over an older state** of which accounts and posts are still there. -/
theorem saveState_holds (hk : Keyed ws') (haccounts : ∀ a, (ws.getAccount a).isSome → (ws'.getAccount a).isSome)
    (hposts : ∀ p, (ws.getPost p).isSome → (ws'.getPost p).isSome) (h : Holds kv ws) :
    Holds (saveState ord ws' kv) (withOldStakes ws ws') := by
  intro k v
  rw [saveState, GoMap.lookup_insertAll (nodup_savedKeys hk), mem_savedEntries hk, h k v]
  constructor
  · rintro (hnew | ⟨hnot, hold⟩)
    · cases hnew with
      | account a acct hg => exact .account a acct hg
      | post p post hg => exact .post p post hg
      | burnedSupply => exact .burnedSupply
      | issuedSupply => exact .issuedSupply
      | chainHeight => exact .chainHeight
      | currentEpoch => exact .currentEpoch
      | activeValidators => exact .activeValidators
      | unbondingQueue => exact .unbondingQueue
      | postStake p a s hg => exact .postStake p a s (by rw [getPostStake_withOldStakes, hg]; rfl)
    · cases hold with
      | account a acct hg =>
        obtain ⟨acct', hg'⟩ := Option.isSome_iff_exists.mp (haccounts a (by rw [hg]; rfl))
        exact absurd (mem_savedKeys hk (.account a acct' hg')) hnot
      | post p post hg =>
        obtain ⟨post', hg'⟩ := Option.isSome_iff_exists.mp (hposts p (by rw [hg]; rfl))
        exact absurd (mem_savedKeys hk (.post p post' hg')) hnot
      | burnedSupply => exact absurd (mem_savedKeys hk .burnedSupply) hnot
      | issuedSupply => exact absurd (mem_savedKeys hk .issuedSupply) hnot
      | chainHeight => exact absurd (mem_savedKeys hk .chainHeight) hnot
      | currentEpoch => exact absurd (mem_savedKeys hk .currentEpoch) hnot
      | activeValidators => exact absurd (mem_savedKeys hk .activeValidators) hnot
      | unbondingQueue => exact absurd (mem_savedKeys hk .unbondingQueue) hnot
      | postStake p a s hg =>
        refine .postStake p a s ?_
        cases hg' : ws'.getPostStake p a with
        | none => rw [getPostStake_withOldStakes, hg', hg, Option.none_or]
        | some s' => exact absurd (mem_savedKeys hk (.postStake p a s' hg')) hnot
  · intro hentry
    cases hentry with
    | account a acct hg => exact .inl (.account a acct hg)
    | post p post hg => exact .inl (.post p post hg)
    | burnedSupply => exact .inl .burnedSupply
    | issuedSupply => exact .inl .issuedSupply
    | chainHeight => exact .inl .chainHeight
    | currentEpoch => exact .inl .currentEpoch
    | activeValidators => exact .inl .activeValidators
    | unbondingQueue => exact .inl .unbondingQueue
    | postStake p a s hg =>
      rw [getPostStake_withOldStakes] at hg
      cases hg' : ws'.getPostStake p a with
      | some s' =>
        rw [hg', Option.some_or] at hg
        cases hg
        exact .inl (.postStake p a s hg')
      | none =>
        rw [hg', Option.none_or] at hg
        refine .inr ⟨fun hm => ?_, .postStake p a s hg⟩
        -- A key the save wrote belongs to a record `ws'` has.
        obtain ⟨⟨k, v'⟩, hm, rfl⟩ := List.mem_map.mp hm
        obtain ⟨q, b, s', hg'', hkey, -⟩ := ((mem_savedEntries hk).mp hm).postStake_inv rfl
        have hpair : (p, a) = (q, b) := postStakeKey_injective hkey
        cases hpair
        rw [hg'] at hg''
        cases hg''

/-- Saving into an empty database. -/
theorem saveState_empty_holds (hk : Keyed ws) : Holds (saveState ord ws ∅) ws := by
  intro k v
  rw [saveState, GoMap.lookup_insertAll (nodup_savedKeys hk), mem_savedEntries hk, Finmap.lookup_empty]
  simp

/-- Where every stake is still there, nothing old is left over. -/
theorem withOldStakes_eq (h : ∀ p a, (ws.getPostStake p a).isSome → (ws'.getPostStake p a).isSome) :
    withOldStakes ws ws' = ws' := by
  have hstakes : ws'.postStakes ∪ ws.postStakes = ws'.postStakes := by
    refine Finmap.ext_lookup fun k => ?_
    cases hk : ws'.postStakes.lookup k with
    | some s => rw [Finmap.lookup_union_left (Finmap.mem_of_lookup_eq_some hk), hk]
    | none =>
      rw [Finmap.lookup_union_right (Finmap.lookup_eq_none.mp hk)]
      cases hk' : ws.postStakes.lookup k with
      | none => rfl
      | some s =>
        have := h k.1 k.2 (by rw [WorldState.getPostStake, hk']; rfl)
        rw [WorldState.getPostStake, hk] at this
        cases this
  rw [withOldStakes, hstakes]

/-! ## Loading -/

/-- The values under a prefix belong to records of a map that the database
holds there. -/
theorem mem_itemsOf {K V : Type} [DecidableEq K] {m : GoMap K V} {pre : List UInt8} {dbKey : K → List UInt8}
    {enc : V → List UInt8}
    (hkv : ∀ k v, pre.isPrefixOf k = true → kv.lookup k = some v → ∃ x y, m.lookup x = some y ∧ k = dbKey x ∧ v = enc y)
    (hv : v ∈ itemsOf kv pre) : ∃ x y, m.lookup x = some y ∧ v = enc y := by
  obtain ⟨⟨k, v⟩, he, rfl⟩ := List.mem_map.mp hv
  obtain ⟨he, hpre⟩ := List.mem_filter.mp he
  obtain ⟨x, y, hxy, -, hv⟩ := hkv k v hpre (MapRange.mem_list.mp he)
  exact ⟨x, y, hxy, hv⟩

/-- Decoding them one after another, each under its own key, makes that map. -/
theorem insertAll_itemsOf {K V : Type} [DecidableEq K] {m : GoMap K V} {pre : List UInt8} {dbKey : K → List UInt8}
    {enc : V → List UInt8} {key : V → K} {dec : List UInt8 → V} (hpre : ∀ x, pre.isPrefixOf (dbKey x) = true)
    (hkey : ∀ x y, m.lookup x = some y → key y = x) (hdec : ∀ x y, m.lookup x = some y → dec (enc y) = y)
    (hkv : ∀ k v, pre.isPrefixOf k = true → kv.lookup k = some v → ∃ x y, m.lookup x = some y ∧ k = dbKey x ∧ v = enc y)
    (hmem : ∀ x y, m.lookup x = some y → kv.lookup (dbKey x) = some (enc y)) :
    GoMap.insertAll ∅ ((itemsOf kv pre).map fun v => (key (dec v), dec v)) = m := by
  have hitem : ∀ e ∈ ((MapRange.ascending id Function.injective_id).list kv).filter fun e => pre.isPrefixOf e.1,
      ∃ x y, m.lookup x = some y ∧ e = (dbKey x, enc y) ∧ key (dec e.2) = x ∧ dec e.2 = y := by
    rintro ⟨k, v⟩ he
    obtain ⟨he, hp⟩ := List.mem_filter.mp he
    obtain ⟨x, y, hxy, rfl, rfl⟩ := hkv k v hp (MapRange.mem_list.mp he)
    exact ⟨x, y, hxy, rfl, by rw [hdec x y hxy, hkey x y hxy], hdec x y hxy⟩
  have hnodup : (((itemsOf kv pre).map fun v => (key (dec v), dec v)).map Prod.fst).Nodup := by
    -- Their database keys are distinct, so they are.
    refine List.Nodup.of_map dbKey ?_
    have hkeys : ((((itemsOf kv pre).map fun v => (key (dec v), dec v)).map Prod.fst).map dbKey) =
        (((MapRange.ascending id Function.injective_id).list kv).filter fun e => pre.isPrefixOf e.1).map Prod.fst := by
      rw [itemsOf, List.map_map, List.map_map, List.map_map]
      refine List.map_congr_left fun e he => ?_
      obtain ⟨x, y, -, rfl, hx, -⟩ := hitem e he
      exact congrArg dbKey hx
    rw [hkeys]
    exact (List.Sublist.map Prod.fst List.filter_sublist).nodup MapRange.nodup_keys
  refine Finmap.ext_lookup fun x => Option.ext fun y => ?_
  rw [GoMap.lookup_insertAll hnodup]
  constructor
  · rintro (h | ⟨-, h⟩)
    · obtain ⟨v, hv, hxy⟩ := List.mem_map.mp h
      obtain ⟨e, he, rfl⟩ := List.mem_map.mp hv
      obtain ⟨x', y', hm, -, rfl, rfl⟩ := hitem e he
      cases hxy
      exact hm
    · cases h
  · intro h
    refine .inl (List.mem_map.mpr ⟨enc y, List.mem_map.mpr ⟨(dbKey x, enc y), ?_, rfl⟩, ?_⟩)
    · exact List.mem_filter.mpr ⟨MapRange.mem_list.mpr (hmem x y h), hpre x⟩
    · rw [hdec x y h, hkey x y h]

theorem isPrefixOf_append {pre l : List UInt8} : pre.isPrefixOf (pre ++ l) = true :=
  List.isPrefixOf_iff_prefix.mpr (List.prefix_append pre l)

theorem take_of_isPrefixOf {l pre : List UInt8} (h : pre.isPrefixOf l = true) : l.take pre.length = pre :=
  (List.prefix_iff_eq_take.mp (List.isPrefixOf_iff_prefix.mp h)).symm

/-- Every length fits the `uint32` written for it. -/
structure Encodable (ws : WorldState) : Prop where
  name : ∀ a acct, ws.getAccount a = some acct → acct.name.length < 2 ^ 32
  text : ∀ p post, ws.getPost p = some post → post.text.length < 2 ^ 32
  channel : ∀ p post, ws.getPost p = some post → post.channel.length < 2 ^ 32
  activeValidators : ws.activeValidators.length < 2 ^ 32
  unbondingQueue : ws.unbondingQueue.length < 2 ^ 32

section

variable {l : List (List UInt8)}

deriving instance Inhabited for Account, Post, PostStake

/-- Accounts that decode are read into the account map, names into the index. -/
theorem loadAccounts (h : ∀ v ∈ l, ∃ a, decodeAccount v = .ok a) :
    ∃ ws', l.foldlM (fun ws val => do let acct ← decodeAccount val; return ws.setAccount acct) ws = .ok ws' ∧
      ws'.accounts = GoMap.insertAll ws.accounts
        (l.map fun v => ((decodeAccount v).value.address, (decodeAccount v).value)) ∧
      ws'.posts = ws.posts ∧ ws'.postStakes = ws.postStakes := by
  induction l generalizing ws with
  | nil => exact ⟨ws, rfl, rfl, rfl, rfl⟩
  | cons v l ih =>
    obtain ⟨a, ha⟩ := h v List.mem_cons_self
    obtain ⟨ws', hok, haccounts, hkept⟩ := @ih (ws.setAccount a) fun v hv => h v (List.mem_cons_of_mem _ hv)
    refine ⟨ws', ?_, ?_, hkept⟩
    · rw [List.foldlM_cons, ha, Except.ok_bind]
      exact hok
    · rw [haccounts, List.map_cons, ha]
      rfl

theorem loadPosts (h : ∀ v ∈ l, ∃ p, decodePost v = .ok p) :
    ∃ ws', l.foldlM (fun ws val => do let post ← decodePost val; return ws.setPost post) ws = .ok ws' ∧
      ws'.posts = GoMap.insertAll ws.posts (l.map fun v => ((decodePost v).value.postID, (decodePost v).value)) ∧
      ws'.accounts = ws.accounts ∧ ws'.postStakes = ws.postStakes := by
  induction l generalizing ws with
  | nil => exact ⟨ws, rfl, rfl, rfl, rfl⟩
  | cons v l ih =>
    obtain ⟨p, hp⟩ := h v List.mem_cons_self
    obtain ⟨ws', hok, hposts, hkept⟩ := @ih (ws.setPost p) fun v hv => h v (List.mem_cons_of_mem _ hv)
    refine ⟨ws', ?_, ?_, hkept⟩
    · rw [List.foldlM_cons, hp, Except.ok_bind]
      exact hok
    · rw [hposts, List.map_cons, hp]
      rfl

/-- The stakes come last, and only they are left to be read. -/
theorem loadPostStakes (h : ∀ v ∈ l, ∃ s, decodePostStake v = .ok s) :
    l.foldl (fun ws val =>
      match decodePostStake val with
      | .ok ps => WorldState.setPostStake ws ps
      | .error _ => ws) ws =
    { ws with
      postStakes := GoMap.insertAll ws.postStakes (l.map fun v =>
        (((decodePostStake v).value.postID, (decodePostStake v).value.staker), (decodePostStake v).value)) } := by
  induction l generalizing ws with
  | nil => rfl
  | cons v l ih =>
    obtain ⟨s, hs⟩ := h v List.mem_cons_self
    rw [List.foldl_cons, hs, ih fun v hv => h v (List.mem_cons_of_mem _ hv), List.map_cons, hs]
    rfl

end

theorem loadUint64_put {n fresh : UInt64} (h : kv.lookup k = some (putUint64 n)) : loadUint64 kv k fresh = .ok n := by
  rw [loadUint64, h]
  exact readUint64_put_nil n

theorem accountItems_holds (hk : Keyed ws) (he : Encodable ws) (h : Holds kv ws) {w : WorldState} (hw : w.accounts = ∅) :
    ∃ w', (itemsOf kv prefixAccount).foldlM
        (fun ws val => do let acct ← decodeAccount val; return ws.setAccount acct) w = .ok w' ∧
      w'.accounts = ws.accounts ∧ w'.posts = w.posts ∧ w'.postStakes = w.postStakes := by
  have hkv : ∀ k v, prefixAccount.isPrefixOf k = true → kv.lookup k = some v →
      ∃ a acct, ws.accounts.lookup a = some acct ∧ k = prefixAccount ++ a.toList ∧ v = encodeAccount acct :=
    fun k v hp hv => ((h k v).mp hv).account_inv (take_of_isPrefixOf hp)
  have hdec : ∀ a acct, ws.accounts.lookup a = some acct → decodeAccount (encodeAccount acct) = .ok acct :=
    fun a acct hg => decodeAccount_encode (he.name a acct hg)
  obtain ⟨w', hok, haccounts, hkept⟩ := @loadAccounts w (itemsOf kv prefixAccount) fun v hv => by
    obtain ⟨a, acct, hg, rfl⟩ := mem_itemsOf hkv hv
    exact ⟨acct, hdec a acct hg⟩
  refine ⟨w', hok, ?_, hkept⟩
  rw [haccounts, hw]
  exact insertAll_itemsOf (fun a => isPrefixOf_append) hk.account (fun a acct hg => by rw [hdec a acct hg, Except.value])
    hkv fun a acct hg => (h _ _).mpr (.account a acct hg)

theorem postItems_holds (hk : Keyed ws) (he : Encodable ws) (h : Holds kv ws) {w : WorldState} (hw : w.posts = ∅) :
    ∃ w', (itemsOf kv prefixPost).foldlM
        (fun ws val => do let post ← decodePost val; return ws.setPost post) w = .ok w' ∧
      w'.posts = ws.posts ∧ w'.accounts = w.accounts ∧ w'.postStakes = w.postStakes := by
  have hkv : ∀ k v, prefixPost.isPrefixOf k = true → kv.lookup k = some v →
      ∃ p post, ws.posts.lookup p = some post ∧ k = prefixPost ++ p.toList ∧ v = encodePost post :=
    fun k v hp hv => ((h k v).mp hv).post_inv (take_of_isPrefixOf hp)
  have hdec : ∀ p post, ws.posts.lookup p = some post → decodePost (encodePost post) = .ok post :=
    fun p post hg => decodePost_encode (he.text p post hg) (he.channel p post hg)
  obtain ⟨w', hok, hposts, hkept⟩ := @loadPosts w (itemsOf kv prefixPost) fun v hv => by
    obtain ⟨p, post, hg, rfl⟩ := mem_itemsOf hkv hv
    exact ⟨post, hdec p post hg⟩
  refine ⟨w', hok, ?_, hkept⟩
  rw [hposts, hw]
  exact insertAll_itemsOf (fun p => isPrefixOf_append) hk.post (fun p post hg => by rw [hdec p post hg, Except.value])
    hkv fun p post hg => (h _ _).mpr (.post p post hg)

theorem postStakeItems_holds (hk : Keyed ws) (h : Holds kv ws) {w : WorldState} (hw : w.postStakes = ∅) :
    (itemsOf kv prefixPostStake).foldl (fun ws val =>
      match decodePostStake val with
      | .ok ps => WorldState.setPostStake ws ps
      | .error _ => ws) w = { w with postStakes := ws.postStakes } := by
  have hkv : ∀ k v, prefixPostStake.isPrefixOf k = true → kv.lookup k = some v →
      ∃ (x : PostID × Address) (s : PostStake), ws.postStakes.lookup x = some s ∧
        k = prefixPostStake ++ x.1.toList ++ x.2.toList ∧ v = encodePostStake s := by
    intro k v hp hv
    obtain ⟨p, a, s, hs, hkey, hval⟩ := ((h k v).mp hv).postStake_inv (take_of_isPrefixOf hp)
    exact ⟨(p, a), s, hs, hkey, hval⟩
  rw [loadPostStakes fun v hv => ?_, hw]
  · refine congrArg (fun m => { w with postStakes := m }) ?_
    have hkey : ∀ (x : PostID × Address) s, ws.postStakes.lookup x = some s → (s.postID, s.staker) = x :=
      fun x s hs => Prod.ext (hk.stake x.1 x.2 s hs).1 (hk.stake x.1 x.2 s hs).2
    have hdec : ∀ (x : PostID × Address) s, ws.postStakes.lookup x = some s →
        (decodePostStake (encodePostStake s)).value = s :=
      fun x s _ => by rw [decodePostStake_encode, Except.value]
    exact insertAll_itemsOf (fun x => by rw [List.append_assoc]; exact isPrefixOf_append) hkey hdec hkv
      fun x s hs => (h _ _).mpr (.postStake x.1 x.2 s hs)
  · obtain ⟨x, s, -, rfl⟩ := mem_itemsOf hkv hv
    exact ⟨s, decodePostStake_encode s⟩

/-- **A database that holds a state loads as that state**, but for its name
index and slashing record. -/
theorem loadState_holds (hk : Keyed ws) (he : Encodable ws) (h : Holds kv ws) :
    ∃ loaded, loadState kv = .ok loaded ∧ SameRooted ws loaded := by
  obtain ⟨w₁, h₁, haccounts₁, hposts₁, hstakes₁⟩ := accountItems_holds hk he h (w := {}) rfl
  obtain ⟨w₂, h₂, hposts₂, haccounts₂, hstakes₂⟩ := postItems_holds hk he h hposts₁
  have hburned : loadUint64 kv keyBurnedSupply 0 = _ := loadUint64_put ((h _ _).mpr .burnedSupply)
  have hissued : loadUint64 kv keyIssuedSupply 0 = _ := loadUint64_put ((h _ _).mpr .issuedSupply)
  have hheight : loadUint64 kv keyChainHeight 0 = _ := loadUint64_put ((h _ _).mpr .chainHeight)
  have hepoch : loadUint64 kv keyCurrentEpoch 0 = _ := loadUint64_put ((h _ _).mpr .currentEpoch)
  have hload : loadState kv = .ok { w₂ with
      postStakes := ws.postStakes, burnedSupply := ws.burnedSupply, issuedSupply := ws.issuedSupply
      chainHeight := ws.chainHeight, currentEpoch := ws.currentEpoch
      activeValidators := ws.activeValidators, unbondingQueue := ws.unbondingQueue } := by
    rw [loadState, h₁, Except.ok_bind, h₂, Except.ok_bind, hburned, Except.ok_bind, hissued, Except.ok_bind, hheight,
      Except.ok_bind, hepoch, Except.ok_bind, (h _ _).mpr .activeValidators, (h _ _).mpr .unbondingQueue,
      Option.elim_some, Option.elim_some, decodeValidatorSet_encode he.activeValidators,
      decodeUnbondingQueue_encode he.unbondingQueue]
    exact congrArg Except.ok (postStakeItems_holds hk h (hstakes₂.trans hstakes₁))
  exact ⟨_, hload, haccounts₂.trans haccounts₁, hposts₂, rfl, rfl, rfl, rfl, rfl, rfl, rfl⟩

end Drana
