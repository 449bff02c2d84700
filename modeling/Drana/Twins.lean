/-
Two states that differ where execution does not look, and changes of accounts
that may be made in any order.
-/
import Drana.Lib.Both
import Drana.Writes

namespace Drana

open Except (Both)

variable {E : Env} {ar : Arith} {params : GenesisConfig} {ws ws' : WorldState} {tx : Transaction}
  {keep : Bool} {S : Set (Address × UInt64)} {a b : Address} {acct acct' : Account}

/-! ## Twins -/

/-- Two records of an account, alike but for the post-staked balance; and in that too, if `keep` says so. -/
def SameAccount (keep : Bool) (acct acct' : Account) : Prop :=
  ∃ q, acct' = { acct with postStakeBalance := q } ∧ (keep = true → q = acct.postStakeBalance)

/-- A name found in two states: one account, or two that exist. -/
def SameName (ws ws' : WorldState) (b b' : Address) : Prop :=
  b' = b ∨ (ws.getAccount b).isSome ∧ (ws'.getAccount b').isSome

/-- Two states alike but for post-staked balances, unless `keep` says so,
slashing records of offences outside `S`, and which account has a name that
several have. -/
structure Twin (keep : Bool) (S : Set (Address × UInt64)) (ws ws' : WorldState) : Prop where
  account : ∀ a, Option.Rel (SameAccount keep) (ws.getAccount a) (ws'.getAccount a)
  posts : ws'.posts = ws.posts
  name : ∀ n, Option.Rel (SameName ws ws') (ws.nameIndex.lookup n) (ws'.nameIndex.lookup n)
  postStakes : ws'.postStakes = ws.postStakes
  activeValidators : ws'.activeValidators = ws.activeValidators
  unbondingQueue : ws'.unbondingQueue = ws.unbondingQueue
  slashRecord : ∀ x ∈ S, x ∈ ws'.slashRecord ↔ x ∈ ws.slashRecord
  burnedSupply : ws'.burnedSupply = ws.burnedSupply
  issuedSupply : ws'.issuedSupply = ws.issuedSupply
  chainHeight : ws'.chainHeight = ws.chainHeight
  currentEpoch : ws'.currentEpoch = ws.currentEpoch

namespace SameAccount

protected theorem refl : SameAccount keep acct acct := ⟨acct.postStakeBalance, rfl, fun _ => rfl⟩

theorem address (h : SameAccount keep acct acct') : acct'.address = acct.address := by
  obtain ⟨q, rfl, -⟩ := h
  rfl

theorem name (h : SameAccount keep acct acct') : acct'.name = acct.name := by
  obtain ⟨q, rfl, -⟩ := h
  rfl

end SameAccount

namespace Twin

theorem optionRel_refl {α : Type} {R : α → α → Prop} (hR : ∀ a, R a a) (o : Option α) : Option.Rel R o o := by
  cases o with
  | none => exact .none
  | some a => exact .some (hR a)

/-- States that differ in accounts and names alone. -/
theorem ofMaps (haccount : ∀ a, ws'.getAccount a = ws.getAccount a)
    (hname : ∀ n, Option.Rel (SameName ws ws') (ws.nameIndex.lookup n) (ws'.nameIndex.lookup n))
    (h : ∀ m n, { ws' with accounts := m, nameIndex := n } = { ws with accounts := m, nameIndex := n }) :
    Twin keep S ws ws' := by
  have hrest := h ∅ ∅
  simp only [WorldState.mk.injEq, true_and] at hrest
  obtain ⟨hposts, hstakes, hvalidators, hqueue, hrecord, hburned, hissued, hheight, hepoch⟩ := hrest
  constructor
  · intro a
    rw [haccount]
    exact optionRel_refl (fun _ => .refl) _
  · exact hposts
  · exact hname
  · exact hstakes
  · exact hvalidators
  · exact hqueue
  · intro x _
    rw [hrecord]
  · exact hburned
  · exact hissued
  · exact hheight
  · exact hepoch

protected theorem refl : Twin keep S ws ws :=
  ofMaps (fun _ => rfl) (fun _ => optionRel_refl (fun _ => .inl rfl) _) fun _ _ => rfl

/-- An account is in both states or in neither. -/
theorem cases (h : Twin keep S ws ws') (a : Address) :
    (ws.getAccount a = none ∧ ws'.getAccount a = none) ∨
      ∃ acct q, ws.getAccount a = some acct ∧ ws'.getAccount a = some { acct with postStakeBalance := q } ∧
        (keep = true → q = acct.postStakeBalance) := by
  have hrel := h.account a
  generalize ws.getAccount a = o at hrel
  generalize ws'.getAccount a = o' at hrel
  cases hrel with
  | none => exact .inl ⟨rfl, rfl⟩
  | some hsame =>
    obtain ⟨q, rfl, hq⟩ := hsame
    exact .inr ⟨_, q, rfl, rfl, hq⟩

/-- One of them exists if the other does. -/
theorem isSome_iff (h : Twin keep S ws ws') (a : Address) : (ws'.getAccount a).isSome ↔ (ws.getAccount a).isSome := by
  rcases h.cases a with ⟨h₁, h₂⟩ | ⟨acct, q, h₁, h₂, -⟩
  · rw [h₁, h₂]
  · simp [h₁, h₂]

/-- A name is taken in both states or in neither. -/
theorem taken_iff (h : Twin keep S ws ws') (n : GoString) :
    (ws'.getAccountByName n).isSome = (ws.getAccountByName n).isSome := by
  have hrel := h.name n
  unfold WorldState.getAccountByName
  generalize ws.nameIndex.lookup n = o at hrel
  generalize ws'.nameIndex.lookup n = o' at hrel
  cases hrel with
  | none => rfl
  | some hsame =>
    rcases hsame with rfl | ⟨hb, hb'⟩
    · exact Bool.eq_iff_iff.mpr (h.isSome_iff _)
    · exact hb'.trans hb.symm

/-- What differs in the order of writing alone may come before any pair of twins. -/
theorem trans {w : WorldState} (h : Twin true Set.univ ws w) (h' : Twin keep S w ws') : Twin keep S ws ws' where
  account a := by
    rcases h.cases a with ⟨h₁, h₂⟩ | ⟨acct, q, h₁, h₂, hq⟩
    · have hrel := h'.account a
      rw [h₂] at hrel
      rw [h₁]
      exact hrel
    · have hrel := h'.account a
      rw [h₂, hq rfl] at hrel
      rw [h₁]
      exact hrel
  posts := h'.posts.trans h.posts
  name n := by
    have hrel := h.name n
    have hrel' := h'.name n
    generalize ws.nameIndex.lookup n = o at hrel
    generalize w.nameIndex.lookup n = o' at hrel hrel'
    generalize ws'.nameIndex.lookup n = o'' at hrel'
    cases hrel with
    | none =>
      cases hrel'
      exact .none
    | some hsame =>
      cases hrel' with
      | some hsame' =>
        refine .some ?_
        rcases hsame with rfl | ⟨hb, hb'⟩
        · rcases hsame' with hc | ⟨hc, hc'⟩
          · exact .inl hc
          · exact .inr ⟨(h.isSome_iff _).mp hc, hc'⟩
        · rcases hsame' with rfl | ⟨hc, hc'⟩
          · exact .inr ⟨hb, (h'.isSome_iff _).mpr hb'⟩
          · exact .inr ⟨hb, hc'⟩
  postStakes := h'.postStakes.trans h.postStakes
  activeValidators := h'.activeValidators.trans h.activeValidators
  unbondingQueue := h'.unbondingQueue.trans h.unbondingQueue
  slashRecord x hx := (h'.slashRecord x hx).trans (h.slashRecord x trivial)
  burnedSupply := h'.burnedSupply.trans h.burnedSupply
  issuedSupply := h'.issuedSupply.trans h.issuedSupply
  chainHeight := h'.chainHeight.trans h.chainHeight
  currentEpoch := h'.currentEpoch.trans h.currentEpoch

theorem getPost (h : Twin keep S ws ws') (p : PostID) : ws'.getPost p = ws.getPost p := by
  rw [WorldState.getPost, h.posts, WorldState.getPost]

theorem getPostStake (h : Twin keep S ws ws') (p : PostID) (a : Address) :
    ws'.getPostStake p a = ws.getPostStake p a := by
  rw [WorldState.getPostStake, h.postStakes, WorldState.getPostStake]

theorem setAccount (h : Twin keep S ws ws') (hacct : SameAccount keep acct acct') :
    Twin keep S (ws.setAccount acct) (ws'.setAccount acct') where
  account b := by
    rw [WorldState.getAccount_setAccount, WorldState.getAccount_setAccount, hacct.address]
    split
    · exact .some hacct
    · exact h.account b
  posts := h.posts
  name n := by
    have hgrow : ∀ b b', SameName ws ws' b b' → SameName (ws.setAccount acct) (ws'.setAccount acct') b b' := by
      intro b b' hsame
      rcases hsame with hb | ⟨hb, hb'⟩
      · exact .inl hb
      · refine .inr ⟨?_, ?_⟩
        · rw [WorldState.getAccount_setAccount]
          split
          · rfl
          · exact hb
        · rw [WorldState.getAccount_setAccount]
          split
          · rfl
          · exact hb'
    have hold : Option.Rel (SameName (ws.setAccount acct) (ws'.setAccount acct')) (ws.nameIndex.lookup n)
        (ws'.nameIndex.lookup n) := by
      have hrel := h.name n
      generalize ws.nameIndex.lookup n = o at hrel ⊢
      generalize ws'.nameIndex.lookup n = o' at hrel ⊢
      cases hrel with
      | none => exact .none
      | some hsame => exact .some (hgrow _ _ hsame)
    rw [WorldState.setAccount_nameIndex, WorldState.setAccount_nameIndex, hacct.name, hacct.address]
    split
    · by_cases hn : n = acct.name
      · rw [hn, Finmap.lookup_insert, Finmap.lookup_insert]
        exact .some (.inl rfl)
      · rw [Finmap.lookup_insert_of_ne _ hn, Finmap.lookup_insert_of_ne _ hn]
        exact hold
    · exact hold
  postStakes := h.postStakes
  activeValidators := h.activeValidators
  unbondingQueue := h.unbondingQueue
  slashRecord := h.slashRecord
  burnedSupply := h.burnedSupply
  issuedSupply := h.issuedSupply
  chainHeight := h.chainHeight
  currentEpoch := h.currentEpoch

/-- A record written on one side, and its twin on the other. -/
theorem write (h : Twin keep S ws ws') (acct : Account) {q : UInt64} (hq : keep = true → q = acct.postStakeBalance) :
    Twin keep S (ws.setAccount acct) (ws'.setAccount { acct with postStakeBalance := q }) := h.setAccount ⟨q, rfl, hq⟩

theorem setPost (h : Twin keep S ws ws') (post : Post) : Twin keep S (ws.setPost post) (ws'.setPost post) :=
  { h with posts := by rw [WorldState.setPost_posts, WorldState.setPost_posts, h.posts] }

theorem setPostStake (h : Twin keep S ws ws') (s : PostStake) : Twin keep S (ws.setPostStake s) (ws'.setPostStake s) :=
  { h with postStakes := by rw [WorldState.setPostStake_postStakes, WorldState.setPostStake_postStakes, h.postStakes] }

theorem removePostStake (h : Twin keep S ws ws') (p : PostID) (a : Address) :
    Twin keep S (ws.removePostStake p a) (ws'.removePostStake p a) :=
  { h with
    postStakes := by
      rw [WorldState.removePostStake_postStakes, WorldState.removePostStake_postStakes, h.postStakes] }

theorem registerName (h : Twin keep S ws ws') (a : Address) (n : GoString) :
    Twin keep S (ws.registerName a n) (ws'.registerName a n) :=
  { h with
    name := by
      intro n'
      rw [WorldState.registerName_nameIndex, WorldState.registerName_nameIndex]
      by_cases hn : n' = n
      · rw [hn, Finmap.lookup_insert, Finmap.lookup_insert]
        exact .some (.inl rfl)
      · rw [Finmap.lookup_insert_of_ne _ hn, Finmap.lookup_insert_of_ne _ hn]
        exact h.name n' }

theorem setValidatorPubKey (h : Twin keep S ws ws') (a : Address) (k : PublicKey) :
    Twin keep S (ws.setValidatorPubKey a k) (ws'.setValidatorPubKey a k) :=
  { h with
    activeValidators := by
      rw [WorldState.setValidatorPubKey_activeValidators, WorldState.setValidatorPubKey_activeValidators,
        h.activeValidators] }

theorem setQueue (h : Twin keep S ws ws') (q : List UnbondingEntry) :
    Twin keep S { ws with unbondingQueue := q } { ws' with unbondingQueue := q } :=
  { h with unbondingQueue := rfl }

theorem addUnbondingEntry (h : Twin keep S ws ws') (e : UnbondingEntry) :
    Twin keep S (ws.addUnbondingEntry e) (ws'.addUnbondingEntry e) := by
  unfold WorldState.addUnbondingEntry
  rw [h.unbondingQueue]
  exact h.setQueue _

theorem setBurned (h : Twin keep S ws ws') (n : UInt64) :
    Twin keep S { ws with burnedSupply := n } { ws' with burnedSupply := n } :=
  { h with burnedSupply := rfl }

end Twin

/-! ## Credits -/

theorem depositAccount_twin (h : Twin keep S ws ws') (n : UInt64) :
    Both (Twin keep S) (depositAccount ar ws a n) (depositAccount ar ws' a n) := by
  unfold depositAccount
  rcases h.cases a with ⟨h₁, h₂⟩ | ⟨acct, q, h₁, h₂, hq⟩
  · simp only [h₁, h₂, Option.getD_none]
    refine .bind (.eq _) fun x y _ _ hxy => ?_
    subst hxy
    exact h.setAccount .refl
  · simp only [h₁, h₂, Option.getD_some]
    refine .bind (.eq _) fun x y _ _ hxy => ?_
    subst hxy
    exact h.setAccount ⟨q, rfl, hq⟩

theorem creditAccount_twin (h : Twin keep S ws ws') (n : UInt64) :
    Both (Twin keep S) (creditAccount ar ws a n) (creditAccount ar ws' a n) := by
  unfold creditAccount
  rcases h.cases a with ⟨h₁, h₂⟩ | ⟨acct, q, h₁, h₂, hq⟩
  · simp only [h₁, h₂]
    exact h
  · simp only [h₁, h₂]
    refine .bind (.eq _) fun x y _ _ hxy => ?_
    subst hxy
    exact h.setAccount ⟨q, rfl, hq⟩

theorem payAuthor_twin (h : Twin keep S ws ws') (n : UInt64) :
    Both (Twin keep S) (payAuthor ar ws a n) (payAuthor ar ws' a n) := by
  unfold payAuthor
  split
  · exact creditAccount_twin h n
  · exact h

theorem payStaker_twin (h : Twin keep S ws ws') (r t : UInt64) (s : PostStake) :
    Both (Twin keep S) (payStaker ar r t ws s) (payStaker ar r t ws' s) := payAuthor_twin h _

/-! ## Orders -/

/-- An account changed where it lies. -/
def modify (ws : WorldState) (a : Address) (f : Account → Account) : WorldState :=
  match ws.getAccount a with
  | some acct => ws.setAccount (f acct)
  | none => ws

/-- A change of balances: address and name stay. -/
def KeepsIdentity (f : Account → Account) : Prop := ∀ acct, (f acct).address = acct.address ∧ (f acct).name = acct.name

variable {f g : Account → Account}

theorem getAccount_modify (hk : Keyed ws) (hf : KeepsIdentity f) :
    (modify ws a f).getAccount b = if b = a then (ws.getAccount a).map f else ws.getAccount b := by
  unfold modify
  split
  · next acct hg =>
    rw [WorldState.getAccount_setAccount, (hf acct).1, hk.account a acct hg]
    simp [hg]
  · next hg =>
    by_cases hb : b = a
    · simp [hb, hg]
    · simp [hb]

/-- The index finds the account under its name, if it has one. -/
theorem nameIndex_modify (hk : Keyed ws) (hf : KeepsIdentity f) (n : GoString) : (modify ws a f).nameIndex.lookup n =
    if n ≠ .empty ∧ (ws.getAccount a).map (·.name) = some n then some a else ws.nameIndex.lookup n := by
  unfold modify
  split
  · next acct hg =>
    rw [WorldState.setAccount_nameIndex, (hf acct).1, (hf acct).2, hk.account a acct hg]
    simp only [hg, Option.map_some, Option.some.injEq]
    by_cases hn : acct.name = n
    · subst hn
      by_cases hne : acct.name = .empty
      · simp [hne]
      · simp [hne, Finmap.lookup_insert]
    · split
      · rw [Finmap.lookup_insert_of_ne _ (Ne.symm hn)]
        simp [hn]
      · simp [hn]
  · next hg => simp [hg]

theorem keyed_modify (hk : Keyed ws) : Keyed (modify ws a f) := by
  unfold modify
  split
  · exact hk.setAccount
  · exact hk

theorem name_modify (hk : Keyed ws) (hf : KeepsIdentity f) :
    ((modify ws a f).getAccount b).map (·.name) = (ws.getAccount b).map (·.name) := by
  rw [getAccount_modify hk hf]
  split
  · next hb =>
    subst hb
    cases ws.getAccount b with
    | none => rfl
    | some acct => exact congrArg some (hf acct).2
  · rfl

/-- Nothing but accounts and names is written. -/
theorem modify_frame (m : GoMap Address Account) (n : GoMap GoString Address) :
    { modify ws a f with accounts := m, nameIndex := n } = { ws with accounts := m, nameIndex := n } := by
  unfold modify
  split <;> rfl

/-- Changes of accounts commute: those of one account if the changes do. -/
theorem modify_comm (hk : Keyed ws) (hf : KeepsIdentity f) (hg : KeepsIdentity g)
    (hfg : ∀ acct, f (g acct) = g (f acct)) :
    Twin keep S (modify (modify ws a f) b g) (modify (modify ws b g) a f) := by
  have hka := keyed_modify (a := a) (f := f) hk
  have hkb := keyed_modify (a := b) (f := g) hk
  refine .ofMaps (fun c => ?_) (fun n => ?_) fun m n => ?_
  · rw [getAccount_modify hka hg, getAccount_modify hk hf, getAccount_modify hk hf, getAccount_modify hkb hf,
      getAccount_modify hk hg, getAccount_modify hk hg]
    by_cases hab : a = b
    · subst hab
      by_cases hc : c = a
      · simp [hc, Function.comp_def, hfg]
      · simp [hc]
    · by_cases hc : c = a
      · subst hc
        simp [hab]
      · by_cases hc' : c = b
        · subst hc'
          simp [Ne.symm hab]
        · simp [hc, hc']
  · rw [nameIndex_modify hka hg, nameIndex_modify hk hf, nameIndex_modify hkb hf, nameIndex_modify hk hg,
      name_modify hk hf, name_modify hk hg]
    by_cases hna : n ≠ .empty ∧ (ws.getAccount a).map (·.name) = some n
    · by_cases hnb : n ≠ .empty ∧ (ws.getAccount b).map (·.name) = some n
      · -- Both have the name: whichever is written last is found.
        rw [if_pos hnb, if_pos hna]
        refine .some (.inr ⟨?_, ?_⟩)
        · rw [← Option.isSome_map, name_modify hka hg, name_modify hk hf, hnb.2]
          rfl
        · rw [← Option.isSome_map, name_modify hkb hf, name_modify hk hg, hna.2]
          rfl
      · rw [if_neg hnb, if_pos hna, if_pos hna]
        exact Twin.optionRel_refl (fun _ => .inl rfl) _
    · rw [if_neg hna, if_neg hna]
      exact Twin.optionRel_refl (fun _ => .inl rfl) _
  · rw [modify_frame, modify_frame, modify_frame, modify_frame]

/-- A credit. -/
def credit (n : UInt64) (acct : Account) : Account := { acct with balance := acct.balance + n }

/-- A stake given back. -/
def giveBack (n : UInt64) (acct : Account) : Account :=
  { acct with balance := acct.balance + n, postStakeBalance := acct.postStakeBalance - n }

theorem credit_keeps (n : UInt64) : KeepsIdentity (credit n) := fun _ => ⟨rfl, rfl⟩

theorem giveBack_keeps (n : UInt64) : KeepsIdentity (giveBack n) := fun _ => ⟨rfl, rfl⟩

theorem credit_comm (m n : UInt64) (acct : Account) : credit m (credit n acct) = credit n (credit m acct) := by
  simp only [credit, UInt64.add_assoc, UInt64.add_comm m n]

theorem sub_sub_comm (x m n : UInt64) : x - m - n = x - n - m := by
  apply UInt64.toNat_inj.mp
  simp only [UInt64.toNat_sub]
  have := m.toNat_lt
  have := n.toNat_lt
  omega

theorem giveBack_comm (m n : UInt64) (acct : Account) : giveBack m (giveBack n acct) = giveBack n (giveBack m acct) := by
  simp only [giveBack, UInt64.add_assoc, UInt64.add_comm m n, sub_sub_comm acct.postStakeBalance m n]

theorem creditAccount_go {n : UInt64} : creditAccount .go ws a n = .ok (modify ws a (credit n)) := by
  cases hg : ws.getAccount a with
  | none =>
    simp only [creditAccount, modify, hg]
    rfl
  | some acct =>
    simp only [creditAccount, modify, hg]
    rfl

theorem returnStake_go {s : PostStake} : returnStake .go ws s = .ok (modify ws s.staker (giveBack s.amount)) := by
  cases hg : ws.getAccount s.staker with
  | none =>
    simp only [returnStake, modify, hg]
    rfl
  | some acct =>
    simp only [returnStake, modify, hg]
    rfl

theorem payStaker_go {r t : UInt64} {s : PostStake} : payStaker .go r t ws s =
    .ok (if stakerShare r t s > 0 then modify ws s.staker (credit (stakerShare r t s)) else ws) := by
  unfold payStaker
  split
  · exact creditAccount_go
  · rfl

theorem payStaker_comm (hk : Keyed ws) (r t : UInt64) (s s' : PostStake) :
    Both (Twin keep S) (payStaker .go r t ws s >>= (payStaker .go r t · s'))
      (payStaker .go r t ws s' >>= (payStaker .go r t · s)) := by
  simp only [payStaker_go, Except.ok_bind]
  by_cases h : stakerShare r t s > 0 <;> by_cases h' : stakerShare r t s' > 0
  · simp only [h, h', if_true]
    exact modify_comm hk (credit_keeps _) (credit_keeps _) (credit_comm _ _)
  all_goals
    simp only [h, h', if_true, if_false]
    exact Twin.refl

/-- Two orders of the stakers of a post. -/
theorem getPostStakers_perm (h : Twin keep S ws ws') (ord ord' : RangeOrder) (p : PostID) :
    (ws.getPostStakers ord p).Perm (ws'.getPostStakers ord' p) := by
  unfold WorldState.getPostStakers
  rw [h.postStakes]
  exact ((MapRange.perm _ _ _).filter _).map _

theorem payStakers_twin (hk : Keyed ws) (h : Twin keep S ws ws') (ord ord' : RangeOrder) (post : Post) (p : PostID)
    (n : UInt64) : Both (Twin keep S) (payStakers .go ord ws post p n) (payStakers .go ord' ws' post p n) := by
  unfold payStakers
  split
  · have horders : Both (Twin true Set.univ) ((ws.getPostStakers ord p).foldlM (payStaker .go n post.totalStaked) ws)
        ((ws'.getPostStakers ord' p).foldlM (payStaker .go n post.totalStaked) ws) :=
      Except.foldlM_perm Keyed (fun w s w' hw hs => (payAuthor_writes hs).keyed hw) (fun _ => .refl) (fun _ _ _ => .trans)
        (fun s w w' hw => payStaker_twin hw n post.totalStaked s) (fun w hw => payStaker_comm hw n post.totalStaked)
        (getPostStakers_perm h ord ord' p) hk
    exact horders.comp (.foldlM (fun s _ w w' hw => payStaker_twin hw n post.totalStaked s) h) fun _ _ _ => .trans
  · exact h

/-- One staker unstaked. -/
theorem forceUnstake_eq {p : PostID} {acc : WorldState × Post} {s : PostStake} : forceUnstake .go p acc s =
    .ok ((modify acc.1 s.staker (giveBack s.amount)).removePostStake p s.staker,
      { acc.2 with totalStaked := acc.2.totalStaked - s.amount, stakerCount := acc.2.stakerCount - 1 }) := by
  simp only [forceUnstake, returnStake_go]
  rfl

theorem modify_removePostStake {p : PostID} :
    modify (ws.removePostStake p b) a f = (modify ws a f).removePostStake p b := by
  unfold modify
  change (match ws.getAccount a with | some acct => _ | none => _) = _
  split <;> rfl

theorem removePostStake_comm {p : PostID} :
    (ws.removePostStake p a).removePostStake p b = (ws.removePostStake p b).removePostStake p a := by
  simp only [WorldState.removePostStake, Finmap.erase_erase]

/-- Twins, and one post besides. -/
def TwinWith (keep : Bool) (S : Set (Address × UInt64)) (acc acc' : WorldState × Post) : Prop :=
  Twin keep S acc.1 acc'.1 ∧ acc'.2 = acc.2

theorem forceUnstake_comm {p : PostID} {acc : WorldState × Post} (hk : Keyed acc.1) (s s' : PostStake) :
    Both (TwinWith keep S) (forceUnstake .go p acc s >>= (forceUnstake .go p · s'))
      (forceUnstake .go p acc s' >>= (forceUnstake .go p · s)) := by
  simp only [forceUnstake_eq, Except.ok_bind, modify_removePostStake]
  have hcomm : Twin keep S (modify (modify acc.1 s.staker (giveBack s.amount)) s'.staker (giveBack s'.amount))
      (modify (modify acc.1 s'.staker (giveBack s'.amount)) s.staker (giveBack s.amount)) :=
    modify_comm hk (giveBack_keeps _) (giveBack_keeps _) (giveBack_comm _ _)
  refine ⟨?_, ?_⟩
  · dsimp only
    rw [removePostStake_comm]
    exact (hcomm.removePostStake p s'.staker).removePostStake p s.staker
  · dsimp only
    rw [sub_sub_comm acc.2.totalStaked s.amount s'.amount]

theorem forceUnstake_twin (h : Twin keep S ws ws') (p : PostID) (post : Post) (s : PostStake) :
    Both (TwinWith keep S) (forceUnstake .go p (ws, post) s)
      (forceUnstake .go p (ws', post) s) := by
  simp only [forceUnstake_eq]
  refine ⟨Twin.removePostStake ?_ p s.staker, rfl⟩
  unfold modify
  rcases h.cases s.staker with ⟨h₁, h₂⟩ | ⟨acct, q, h₁, h₂, hq⟩
  · simp only [h₁, h₂]
    exact h
  · simp only [h₁, h₂]
    exact h.setAccount ⟨q - s.amount, rfl, fun hk => by rw [hq hk]; rfl⟩

/-- All of them, in two orders. -/
theorem forceUnstakes_twin (hk : Keyed ws) (h : Twin keep S ws ws') {l l' : List PostStake} (hp : l.Perm l')
    (p : PostID) (post : Post) : Both (TwinWith keep S) (l.foldlM (forceUnstake .go p) (ws, post))
      (l'.foldlM (forceUnstake .go p) (ws', post)) := by
  have hstep : ∀ {keep S} s acc acc', TwinWith keep S acc acc' →
      Both (TwinWith keep S) (forceUnstake .go p acc s) (forceUnstake .go p acc' s) := by
    intro keep S s acc acc' hacc
    obtain ⟨w, post₁⟩ := acc
    obtain ⟨w', post₂⟩ := acc'
    obtain ⟨htwin, hpost⟩ := hacc
    have hpost : post₂ = post₁ := hpost
    subst hpost
    exact forceUnstake_twin htwin p post₂ s
  have horders : Both (TwinWith true Set.univ) (l.foldlM (forceUnstake .go p) (ws, post))
      (l'.foldlM (forceUnstake .go p) (ws, post)) :=
    Except.foldlM_perm (fun acc => Keyed acc.1) (fun acc s acc' hacc hs => (forceUnstake_writes hs).keyed hacc)
      (fun _ => ⟨.refl, rfl⟩) (fun _ _ _ h₁ h₂ => ⟨h₁.1.trans h₂.1, h₂.2.trans h₁.2⟩) hstep
      (fun acc hacc => forceUnstake_comm hacc) hp hk
  have hsides : Both (TwinWith keep S) (l'.foldlM (forceUnstake .go p) (ws, post))
      (l'.foldlM (forceUnstake .go p) (ws', post)) := .foldlM (fun s _ => hstep s) ⟨h, rfl⟩
  exact horders.comp hsides fun _ _ _ h₁ h₂ => ⟨h₁.1.trans h₂.1, h₂.2.trans h₁.2⟩

end Drana
