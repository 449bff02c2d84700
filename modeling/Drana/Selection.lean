/-
A proposer's own selection (`ReapForBlock` of `internal/mempool/mempool.go`) in
the block it is for. The speculative state moves balances and nonces only, so
what names, posts and stakes come to in the block is not seen by its checks.
-/
import Drana.Turns
import Drana.Acceptance
import Drana.Exactness
import Drana.Unbonding

namespace Drana

open Except (orThrow throwIf)
open Mempool

variable {E : Env} {params : GenesisConfig} {ws w w' : WorldState} {tx : Transaction} {ord : RangeOrder}
  {names : MapRange Address Account} {r : Reaped} {a : Address} {p : PostID} {height : UInt64} {time : Int64}

/-! ## What the speculative state leaves out -/

/-- What `a` has staked as a validator, after `taken`. -/
def stakedBefore (ws : WorldState) (taken : List Transaction) (a : Address) : UInt64 :=
  taken.foldl (fun staked e => if e.sender = a then stakedAfter staked e else staked) (ownStakeOf ws a)

/-- Whether `a` holds a stake on the post `p`, after `taken`. -/
def heldBefore (E : Env) (ws : WorldState) (taken : List Transaction) (p : PostID) (a : Address) : Bool :=
  taken.foldl (fun held e => holdsAfter E ws e p a held) (ws.getPostStake p a).isSome

/-- What matures for `a` in a block at `height`. -/
def maturing (ws : WorldState) (height : UInt64) (a : Address) : Nat :=
  (((ws.removeMaturedUnbonding height).1.filter (·.address = a)).map (·.amount.toNat)).sum

/-- What a transaction sends to `a`. -/
def received (tx : Transaction) (a : Address) : Nat :=
  if tx.kind = some .transfer ∧ tx.recipient = a then tx.amount.toNat else 0

/-- What `a` has to spend after `taken`: what it had and what matures for it, with what
was sent to it and without what it spent. -/
def spendable (ws : WorldState) (height : UInt64) (taken : List Transaction) (a : Address) : Int :=
  taken.foldl (fun n e => n + received e a - if e.sender = a then spent e else 0) (balanceOf ws a + maturing ws height a)

/-- Nothing taken before stands against `tx`, of what the speculative state does not tell. -/
def Clear (E : Env) (params : GenesisConfig) (ws : WorldState) (taken : List Transaction) (tx : Transaction) : Prop :=
  match tx.kind with
  | some .boostPost => ∀ post, ws.getPost tx.postID = some post → heldBefore E ws taken tx.postID post.author = true
  | some .unstakePost => heldBefore E ws taken tx.postID tx.sender = true
  | some .registerName => ∀ e ∈ taken, e.kind = some .registerName → e.sender ≠ tx.sender ∧ e.text ≠ tx.text
  | some .stake =>
    ¬ (stakedBefore ws taken tx.sender = 0 ∧ params.minStake > 0 ∧ tx.amount < params.minStake)
  | some .unstake =>
    ¬ stakedBefore ws taken tx.sender < tx.amount ∧
      ¬ (stakedBefore ws taken tx.sender - tx.amount > 0 ∧ params.minStake > 0 ∧
        stakedBefore ws taken tx.sender - tx.amount < params.minStake)
  | _ => True

/-- The state a block comes to, beside the speculative one. -/
structure Beside (E : Env) (names : MapRange Address Account) (ws : WorldState) (height : UInt64) (r : Reaped)
    (w : WorldState) : Prop where
  bounded : Bounded E 0 w
  indexed : Indexed w
  base : r.spec.base = ws.reader
  account : ∀ a acct, r.spec.getAccount a = some acct → (w.getAccount a).isSome = true ∧ acct.name = nameOf ws a
  balance : ∀ a, spendable ws height r.result a ≤ balanceOf w a
  nonce : ∀ a, nonceOf w a = (r.spec.reader names).nonceOf a
  unnamed : ∀ a, nameOf w a = .empty ↔ nameOf ws a = .empty ∧ ∀ e ∈ r.result, e.kind = some .registerName → e.sender ≠ a
  free : ∀ n, w.nameIndex.lookup n = none ↔
    ws.nameIndex.lookup n = none ∧ ∀ e ∈ r.result, e.kind = some .registerName → e.text ≠ n
  posts : PostsLast ws w
  created : ∀ p, (w.getPost p).isSome = true → (ws.getPost p).isSome = true ∨
    ∃ e ∈ r.result, e.kind = some .createPost ∧ p = derivePostID E e.sender e.nonce
  held : ∀ p a, (ws.getPost p).isSome = true → (w.getPostStake p a).isSome = heldBefore E ws r.result p a
  stakers : ∀ p, stakersOn w p ≤ stakersOn ws p + r.result.length
  staked : ∀ a, ownStakeOf w a = stakedBefore ws r.result a

theorem nonceOf_reader : ws.reader.nonceOf a = nonceOf ws a := by
  change ((ws.getAccount a).map (·.nonce)).getD 0 = (ws.getAccount a).elim 0 (·.nonce)
  cases ws.getAccount a <;> rfl

/-- What matures arrives. -/
theorem releaseMatured_arrives (hb : Bounded E 0 ws) (h : releaseMatured .go ws height = .ok w) :
    balanceOf w a = balanceOf ws a + maturing ws height a := by
  have hk : Keyed (ws.removeMaturedUnbonding height).2 := hb.books.books.keyed.congr rfl rfl rfl
  rw [depositAll_balance hk h]
  refine Nat.mod_eq_of_lt ?_
  have hroom := hb.room
  have hbalance : balanceOf ws a ≤ ws.accounts.total fun _ acct => acct.value := by
    cases hg : ws.getAccount a with
    | none =>
      rw [balanceOf, hg]
      exact Nat.zero_le _
    | some acct =>
      have hat := GoMap.at_le_total (f := fun (_ : Address) (acct : Account) => acct.value) (m := ws.accounts) (k := a)
      rw [GoMap.at_of_lookup hg] at hat
      rw [balanceOf_of hg]
      unfold Account.value at hat ⊢
      omega
  have hmatures : (((ws.removeMaturedUnbonding height).1.filter (·.address = a)).map (·.amount.toNat)).sum ≤
      (ws.unbondingQueue.map (·.amount.toNat)).sum :=
    ((List.filter_sublist.trans List.filter_sublist).map _).sum_le_sum fun _ _ => Nat.zero_le _
  unfold supply at hroom
  change balanceOf ws a + maturing ws height a < _
  unfold maturing
  omega

theorem Beside.start (hb : Bounded E 0 ws) (hi : Indexed ws) (h : releaseMatured .go ws height = .ok w) :
    Beside E names ws height ⟨{ base := ws.reader }, []⟩ w := by
  have hkeyed := hb.books.books.keyed
  have hnames := (releaseMatured_registries h).names
  have hframe := releaseMatured_frame h
  refine ⟨(hb.released h).2, hnames.indexed hi, rfl, fun a acct hg => ?_, fun a => ?_, fun a => ?_, fun a => ?_,
    fun n => ?_,
    .of_eq hframe.posts, fun p hp => ?_, fun p a _ => ?_, fun p => ?_, (releaseMatured_enriched h).staked hkeyed⟩
  · change ws.getAccount a = some acct at hg
    obtain ⟨acct', hg', -⟩ := hnames.name hi a acct hg
    exact ⟨by rw [hg']; rfl, (nameOf_of hg).symm⟩
  · rw [releaseMatured_arrives hb h]
    exact Int.le_of_eq (Int.natCast_add _ _).symm
  · rw [(releaseMatured_numbers h).nonce hkeyed a, ← nonceOf_reader]
    rfl
  · rw [hnames.nameOf hi]
    simp
  · rw [hnames.nameIndex hi]
    simp
  · rw [hframe.getPost] at hp
    exact .inl hp
  · rw [hframe.getPostStake]
    rfl
  · rw [stakersOn, hframe.postStakes]
    exact Nat.le_refl _

/-! ## The checks -/

theorem Beside.common (hf : Beside E names ws height r w) {acct : Account}
    (hc : validateCommonNoBalanceCheck E tx (r.spec.reader names) = .ok acct) :
    ∃ real, validateCommonNoBalanceCheck E tx w.reader = .ok real ∧ w.getAccount tx.sender = some real ∧
      acct.name = nameOf ws tx.sender := by
  obtain ⟨hkey, hsig, hacct, hnonce⟩ := validateCommonNoBalanceCheck_ok hc
  change r.spec.getAccount tx.sender = some acct at hacct
  obtain ⟨hsome, hname⟩ := hf.account _ _ hacct
  obtain ⟨real, hreal⟩ := Option.isSome_iff_exists.mp hsome
  have hsame : real.nonce = acct.nonce := by
    rw [← nonceOf_of hreal, hf.nonce]
    change ((r.spec.getAccount tx.sender).map (·.nonce)).getD 0 = acct.nonce
    rw [hacct]
    rfl
  refine ⟨real, ?_, hreal, hname⟩
  have hreal' : w.reader.getAccount tx.sender = some real := hreal
  simp only [validateCommonNoBalanceCheck, hkey, hsig, hreal', orThrow, throwIf, hsame, hnonce, ne_eq, not_true, if_false,
    Bool.not_true, Bool.false_eq_true, Except.ok_bind]
  rfl

theorem validateCommon_ok_iff {sr : StateReader} {acct : Account} : validateCommon E tx sr = .ok acct ↔
    validateCommonNoBalanceCheck E tx sr = .ok acct ∧ tx.amount ≤ acct.balance := by
  simp only [validateCommon, Except.bind_ok_iff, Except.throwIf_ok_iff, Except.pure_ok_iff, UInt64.not_lt]
  constructor
  · rintro ⟨_, hc, -, hle, rfl⟩
    exact ⟨hc, hle⟩
  · rintro ⟨hc, hle⟩
    exact ⟨acct, hc, (), hle, rfl⟩

section

variable (hf : Beside E names ws height r w)
include hf

/-- A sender that has what it spends can pay. -/
theorem Beside.paid (hcovered : spent tx ≤ (spendable ws height r.result tx.sender).toNat) {kind : TxKind}
    (hk : tx.kind = some kind)
    (hkind : kind ≠ .unstake ∧ kind ≠ .unstakePost) {acct : Account}
    (hc : validateCommon E tx (r.spec.reader names) = .ok acct) :
    ∃ real, validateCommon E tx w.reader = .ok real ∧ w.getAccount tx.sender = some real ∧
    acct.name = nameOf ws tx.sender := by
  obtain ⟨real, hreal, hg, hname⟩ := hf.common (validateCommon_ok hc)
  refine ⟨real, validateCommon_ok_iff.mpr ⟨hreal, UInt64.le_iff_toNat_le.mpr ?_⟩, hg, hname⟩
  have hbalance := hf.balance tx.sender
  have hspend : ¬ SpendsNothing tx := by
    rw [spendsNothing_iff hk]
    exact not_or.mpr hkind
  rw [balanceOf_of hg] at hbalance
  rw [spent, if_neg hspend] at hcovered
  omega

theorem Beside.validateParent (hv : validateParent tx (r.spec.reader names) = .ok ()) :
    validateParent tx w.reader = .ok () := by
  unfold Drana.validateParent at hv ⊢
  split
  · next hreply =>
    simp only [if_pos hreply, Except.bind_ok_iff, Except.orThrow_ok_iff, Except.throwIf_ok_iff] at hv ⊢
    obtain ⟨parent, hparent, hroot⟩ := hv
    change r.spec.base.getPost tx.postID = some parent at hparent
    rw [hf.base] at hparent
    obtain ⟨new, hnew, hlasts⟩ := hf.posts _ _ hparent
    exact ⟨new, hnew, hlasts.parent ▸ hroot⟩
  · rfl

section

variable (hcovered : spent tx ≤ (spendable ws height r.result tx.sender).toNat)
include hcovered

theorem Beside.validateTransfer (hk : tx.kind = some .transfer)
    (hv : validateTransfer E tx (r.spec.reader names) = .ok ()) :
    validateTransfer E tx w.reader = .ok () := by
  simp only [Drana.validateTransfer, Except.bind_ok_iff] at hv ⊢
  obtain ⟨u₁, h₁, u₂, h₂, u₃, h₃, acct, hc, -⟩ := hv
  obtain ⟨real, hreal, -⟩ := hf.paid hcovered hk (by simp) hc
  exact ⟨u₁, h₁, u₂, h₂, u₃, h₃, real, hreal, rfl⟩

theorem Beside.validateCreatePost (hk : tx.kind = some .createPost)
    (hv : validateCreatePost E tx (r.spec.reader names) params = .ok ()) :
    validateCreatePost E tx w.reader params = .ok () := by
  simp only [Drana.validateCreatePost, Except.bind_ok_iff] at hv ⊢
  obtain ⟨u₁, h₁, u₂, h₂, u₃, h₃, u₄, h₄, acct, hc, -⟩ := hv
  obtain ⟨real, hreal, -⟩ := hf.paid hcovered hk (by simp) hc
  exact ⟨u₁, h₁, u₂, h₂, u₃, h₃, u₄, hf.validateParent h₄, real, hreal, rfl⟩

theorem Beside.validateBoostPost (hk : tx.kind = some .boostPost)
    (hv : validateBoostPost E tx (r.spec.reader names) params = .ok ()) :
    validateBoostPost E tx w.reader params = .ok () ↔
      ∀ post, ws.getPost tx.postID = some post → heldBefore E ws r.result tx.postID post.author = true := by
  simp only [Drana.validateBoostPost, Except.bind_ok_iff, Except.orThrow_ok_iff, Except.throwIf_ok_iff,
    Bool.not_eq_true] at hv ⊢
  obtain ⟨u₁, h₁, post, hpost, u₂, h₂, acct, hc, -⟩ := hv
  change r.spec.base.getPost tx.postID = some post at hpost
  rw [hf.base] at hpost
  change ws.getPost tx.postID = some post at hpost
  obtain ⟨new, hnew, hlasts⟩ := hf.posts _ _ hpost
  obtain ⟨real, hreal, -⟩ := hf.paid hcovered hk (by simp) hc
  have hopen : new.withdrawn = false ↔ heldBefore E ws r.result tx.postID post.author = true := by
    rw [hf.bounded.books.open_iff hnew, hlasts.author, hf.held _ _ (by rw [hpost]; rfl)]
  constructor
  · rintro ⟨-, -, new', hnew', -, hnot, -⟩ post' hpost'
    cases hpost.symm.trans hpost'
    cases hnew.symm.trans hnew'
    exact hopen.mp hnot
  · intro h
    exact ⟨u₁, h₁, new, hnew, u₂, hopen.mpr (h post hpost), real, hreal, rfl⟩

theorem Beside.validateRegisterName (hi : Indexed ws) (hk : tx.kind = some .registerName)
    (hv : validateRegisterName E tx (r.spec.reader names) = .ok ()) :
    validateRegisterName E tx w.reader = .ok () ↔
      ∀ e ∈ r.result, e.kind = some .registerName → e.sender ≠ tx.sender ∧ e.text ≠ tx.text := by
  simp only [Drana.validateRegisterName, Except.bind_ok_iff, Except.throwIf_ok_iff, ne_eq, Decidable.not_not,
    Bool.not_eq_true, Option.isSome_eq_false_iff, Option.isNone_iff_eq_none] at hv ⊢
  obtain ⟨u₁, h₁, u₂, h₂, acct, hc, u₃, hempty, hfree⟩ := hv
  obtain ⟨real, hreal, hg, hname⟩ := hf.paid hcovered hk (by simp) hc
  have hbase : ws.getAccountByName tx.text = none := by
    change (match _ with | some a => some a | none => r.spec.base.getAccountByName tx.text) = none at hfree
    split at hfree
    · cases hfree
    · rw [hf.base] at hfree
      exact hfree
  have hunnamed : real.name = .empty ↔ ∀ e ∈ r.result, e.kind = some .registerName → e.sender ≠ tx.sender := by
    rw [← nameOf_of hg, hf.unnamed, ← hname, hempty]
    simp
  have hunused : w.getAccountByName tx.text = none ↔ ∀ e ∈ r.result, e.kind = some .registerName → e.text ≠ tx.text := by
    rw [hf.indexed.getAccountByName_eq_none, hf.free, hi.getAccountByName_eq_none.mp hbase]
    simp
  constructor
  · rintro ⟨-, -, -, -, real', hreal', -, hnone, hnot⟩ e he hk
    cases hreal.symm.trans hreal'
    exact ⟨hunnamed.mp hnone e he hk, hunused.mp hnot e he hk⟩
  · intro h
    exact ⟨u₁, h₁, u₂, h₂, real, hreal, u₃, hunnamed.mpr fun e he hk => (h e he hk).1,
      hunused.mpr fun e he hk => (h e he hk).2⟩

theorem Beside.validateStake (hk : tx.kind = some .stake)
    (hv : validateStake E tx (r.spec.reader names) params = .ok ()) :
    validateStake E tx w.reader params = .ok () ↔
      ¬ (stakedBefore ws r.result tx.sender = 0 ∧ params.minStake > 0 ∧ tx.amount < params.minStake) := by
  simp only [Drana.validateStake, Except.bind_ok_iff, Except.throwIf_ok_iff] at hv ⊢
  obtain ⟨u, h₁, acct, hc, -⟩ := hv
  obtain ⟨real, hreal, hg, -⟩ := hf.paid hcovered hk (by simp) hc
  rw [← hf.staked, ownStakeOf_of hg]
  constructor
  · rintro ⟨-, -, real', hreal', hnot⟩
    cases hreal.symm.trans hreal'
    exact hnot
  · intro h
    exact ⟨u, h₁, real, hreal, h⟩

end

theorem Beside.validateUnstakePost (hv : validateUnstakePost E tx (r.spec.reader names) = .ok ()) :
    validateUnstakePost E tx w.reader = .ok () ↔ heldBefore E ws r.result tx.postID tx.sender = true := by
  simp only [Drana.validateUnstakePost, Except.bind_ok_iff, Except.orThrow_ok_iff] at hv ⊢
  obtain ⟨acct, hc, stake, -, post, hpost, -⟩ := hv
  change r.spec.base.getPost tx.postID = some post at hpost
  rw [hf.base] at hpost
  change ws.getPost tx.postID = some post at hpost
  obtain ⟨new, hnew, -⟩ := hf.posts _ _ hpost
  obtain ⟨real, hreal, -⟩ := hf.common hc
  rw [← hf.held _ _ (by rw [hpost]; rfl), Option.isSome_iff_exists]
  constructor
  · rintro ⟨-, -, s, hs, -⟩
    exact ⟨s, hs⟩
  · rintro ⟨s, hs⟩
    exact ⟨real, hreal, s, hs, new, hnew, rfl⟩

theorem Beside.validateUnstake (hv : validateUnstake E tx (r.spec.reader names) params = .ok ()) :
    validateUnstake E tx w.reader params = .ok () ↔
      ¬ stakedBefore ws r.result tx.sender < tx.amount ∧
        ¬ (stakedBefore ws r.result tx.sender - tx.amount > 0 ∧ params.minStake > 0 ∧
          stakedBefore ws r.result tx.sender - tx.amount < params.minStake) := by
  simp only [Drana.validateUnstake, Except.bind_ok_iff, Except.throwIf_ok_iff] at hv ⊢
  obtain ⟨u, h₁, acct, hc, -⟩ := hv
  obtain ⟨real, hreal, hg, -⟩ := hf.common hc
  rw [← hf.staked, ownStakeOf_of hg]
  constructor
  · rintro ⟨-, -, real', hreal', -, hle, hnot⟩
    cases hreal.symm.trans hreal'
    exact ⟨hle, hnot⟩
  · rintro ⟨hle, hnot⟩
    exact ⟨u, h₁, real, hreal, (), hle, hnot⟩

/-- **What is valid in the speculative state is valid in the real one** where it is clear of what was taken before. -/
theorem Beside.valid_iff (hi : Indexed ws) (hcovered : spent tx ≤ (spendable ws height r.result tx.sender).toNat)
    (hv : validateTransaction E tx (r.spec.reader names) params = .ok ()) :
    validateTransaction E tx w.reader params = .ok () ↔ Clear E params ws r.result tx := by
  unfold validateTransaction at hv ⊢
  unfold Clear
  cases hk : tx.kind with
  | none =>
    rw [hk] at hv
    cases hv
  | some kind =>
    rw [hk] at hv
    cases kind with
    | transfer => exact iff_of_true (hf.validateTransfer hcovered hk hv) trivial
    | createPost => exact iff_of_true (hf.validateCreatePost hcovered hk hv) trivial
    | boostPost => exact hf.validateBoostPost hcovered hk hv
    | unstakePost => exact hf.validateUnstakePost hv
    | registerName => exact hf.validateRegisterName hcovered hi hk hv
    | stake => exact hf.validateStake hcovered hk hv
    | unstake => exact hf.validateUnstake hv

/-- One transaction executes where it is clear. -/
theorem Beside.executes_iff (hi : Indexed ws) (hcovered : spent tx ≤ (spendable ws height r.result tx.sender).toNat)
    (hv : validateTransaction E tx (r.spec.reader names) params = .ok ()) {header : BlockHeader} {i : Nat} :
    (∃ w', executeTransaction E .go params ord header i w tx = .ok w') ↔ Clear E params ws r.result tx := by
  rw [← hf.valid_iff hi hcovered hv]
  simp only [executeTransaction, Except.bind_ok_iff, Except.wrapErr_ok_iff]
  constructor
  · rintro ⟨w', u, hreal, -⟩
    exact hreal
  · intro hreal
    obtain ⟨w', hw'⟩ := applyTransaction_total hreal
    exact ⟨w', (), hreal, hw'⟩

end

/-! ## One transaction after the other -/

/-- What a turn needs for the arithmetic of the block to be exact, as it is known before
the block: what `TxFits` says of the state
in it, and that the sender has what it spends. -/
structure StepFits (E : Env) (params : GenesisConfig) (ws : WorldState) (height : UInt64) (taken : List Transaction)
    (tx : Transaction) : Prop where
  covered : spent tx ≤ (spendable ws height taken tx.sender).toNat
  fees : FeesFit params tx
  nonce : tx.nonce ≠ 0
  fresh : tx.kind = some .createPost → ws.getPost (derivePostID E tx.sender tx.nonce) = none
  apart : tx.kind = some .createPost → ∀ e ∈ taken, e.kind = some .createPost →
    derivePostID E e.sender e.nonce ≠ derivePostID E tx.sender tx.nonce
  staker : tx.kind = some .boostPost → stakersOn ws tx.postID + taken.length + 1 < 2 ^ 64
  release : tx.kind = some .unstake → height.toNat + params.unbondingPeriod.toNat < 2 ^ 64

theorem heldBefore_concat {taken : List Transaction} :
    heldBefore E ws (taken ++ [tx]) p a = holdsAfter E ws tx p a (heldBefore E ws taken p a) := List.foldl_concat _ _ _ _

theorem stakedBefore_concat {taken : List Transaction} : stakedBefore ws (taken ++ [tx]) a =
    if tx.sender = a then stakedAfter (stakedBefore ws taken a) tx else stakedBefore ws taken a :=
  List.foldl_concat _ _ _ _

theorem spendable_concat {taken : List Transaction} : spendable ws height (taken ++ [tx]) a =
    spendable ws height taken a + received tx a - if tx.sender = a then spent tx else 0 := List.foldl_concat _ _ _ _

/-- Posts keep their authors, so a transaction takes back the same stakes later. -/
theorem PostsLast.holdsAfter_eq (h : PostsLast ws w) (hp : (ws.getPost p).isSome = true) {held : Bool} :
    holdsAfter E w tx p a held = holdsAfter E ws tx p a held := by
  obtain ⟨old, hold⟩ := Option.isSome_iff_exists.mp hp
  obtain ⟨new, hnew, hlasts⟩ := h p old hold
  simp only [holdsAfter, takesBack, hold, hnew, Option.any_some, hlasts.author]

theorem getAccount_applyTx {s : SpeculativeState} {acct : Account} (hg : s.getAccount tx.sender = some acct)
    (hne : tx.kind = some .transfer → tx.recipient ≠ tx.sender) : (s.applyTx tx).getAccount a =
      if a = tx.sender then some { acct with nonce := acct.nonce + 1, balance := acct.balance - tx.amount }
      else if tx.kind = some .transfer ∧ a = tx.recipient then
        some { (s.getAccount a).getD { address := a } with
          balance := ((s.getAccount a).getD { address := a }).balance + tx.amount }
      else s.getAccount a := by
  rw [SpeculativeState.applyTx, hg]
  dsimp only
  by_cases hk : tx.kind = some .transfer
  · rw [if_pos hk, getAccount_setSpeculative, getAccount_setSpeculative, getAccount_setSpeculative, if_neg (hne hk)]
    by_cases ha : a = tx.recipient
    · subst ha
      rw [if_pos rfl, if_neg (hne hk), if_pos ⟨hk, rfl⟩]
    · rw [if_neg ha]
      simp only [ha, and_false, if_false]
  · rw [if_neg hk, getAccount_setSpeculative]
    simp only [hk, false_and, if_false]

/-- What a transfer sends arrives. -/
theorem executeTransaction_arrives {header : BlockHeader} {i : Nat} (hkeyed : Keyed w) (hk : tx.kind = some .transfer)
    (hne : tx.recipient ≠ tx.sender) (h : executeTransaction E .strict params ord header i w tx = .ok w') :
    balanceOf w' tx.recipient = balanceOf w tx.recipient + tx.amount.toNat ∧
    (w'.getAccount tx.recipient).isSome = true := by
  obtain ⟨-, h⟩ := executeTransaction_ok_iff.mp h
  rw [applyTransaction, hk] at h
  exact applyTransfer_arrives hkeyed rfl h hne

/-- A transfer is to someone else. -/
theorem recipient_ne_sender {sr : StateReader} (hk : tx.kind = some .transfer)
    (hv : validateTransaction E tx sr params = .ok ()) :
    tx.recipient ≠ tx.sender := by
  rw [validateTransaction, hk] at hv
  simp only [validateTransfer, Except.bind_ok_iff, Except.throwIf_ok_iff] at hv
  obtain ⟨-, -, -, hne, -⟩ := hv
  exact Ne.symm hne

theorem applyTx_base {s : SpeculativeState} : (s.applyTx tx).base = s.base := by
  unfold SpeculativeState.applyTx
  split
  · rfl
  · dsimp only
    split <;> rfl

section

variable {header : BlockHeader} {i : Nat} (hf : Beside E names ws header.height r w)
include hf

/-- What fits beside the speculative state fits in the real one. -/
theorem Beside.txFits (hfits : StepFits E params ws header.height r.result tx) :
    TxFits E params header.height ⟨w, tx, w'⟩ := by
  refine ⟨hfits.fees, hfits.nonce, fun hk => ?_, fun hk post hp hnone => ?_, hfits.release⟩
  · change w.getPost (derivePostID E tx.sender tx.nonce) = none
    by_contra hsome
    rcases hf.created _ (Option.ne_none_iff_isSome.mp hsome) with hold | ⟨e, he, hcreate, hid⟩
    · rw [hfits.fresh hk] at hold
      cases hold
    · exact hfits.apart hk e he hcreate hid.symm
  · change w.getPost tx.postID = some post at hp
    have hcount := (hf.bounded.books.tally _ post hp).2
    rw [hf.bounded.books.books.keyed.post _ post hp] at hcount
    have hle := hf.stakers tx.postID
    have hroom := hfits.staker hk
    rw [hcount]
    omega

/-- An account known in the speculative state is there in the real one. -/
theorem Beside.nextAccount (hv : validateTransaction E tx (r.spec.reader names) params = .ok ())
    (hx : executeTransaction E .strict params ord header i w tx = .ok w') {acct : Account}
    (hg : (r.take tx).spec.getAccount a = some acct) : (w'.getAccount a).isSome = true ∧ acct.name = nameOf ws a := by
  obtain ⟨sender, hc, -⟩ := validateTransaction_sender hv
  obtain ⟨-, -, hsender, -⟩ := validateCommonNoBalanceCheck_ok hc
  change r.spec.getAccount tx.sender = some sender at hsender
  have hgrow := fun b => (executeTransaction_writes hx).accounts_grow b
  change (r.spec.applyTx tx).getAccount a = some acct at hg
  rw [getAccount_applyTx hsender fun hk => recipient_ne_sender hk hv] at hg
  split at hg
  · next ha =>
    subst ha
    cases hg
    obtain ⟨hsome, hname⟩ := hf.account _ _ hsender
    exact ⟨hgrow _ hsome, hname⟩
  · next ha =>
    split at hg
    · next hrecipient =>
      obtain ⟨hk, rfl⟩ := hrecipient
      cases hg
      refine ⟨(executeTransaction_arrives hf.indexed.keyed hk ha hx).2, ?_⟩
      cases hr : r.spec.getAccount tx.recipient with
      | some recip => exact (hf.account _ _ hr).2
      | none =>
        have hbase : ws.getAccount tx.recipient = none := by
          unfold SpeculativeState.getAccount at hr
          split at hr
          · cases hr
          · rw [hf.base] at hr
            exact hr
        rw [nameOf, hbase]
        rfl
    · obtain ⟨hsome, hname⟩ := hf.account _ _ hg
      exact ⟨hgrow _ hsome, hname⟩

/-- What an account had to spend, it has: nothing a transaction does takes from it but what its sender spends. -/
theorem Beside.nextBalance (hv : validateTransaction E tx (r.spec.reader names) params = .ok ())
    (hx : executeTransaction E .strict params ord header i w tx = .ok w') :
    spendable ws header.height (r.take tx).result a ≤ balanceOf w' a := by
  have hkeyed := hf.indexed.keyed
  have hbalance := (executeTransaction_moved hkeyed hx).balance rfl a
  have hold := hf.balance a
  change spendable ws header.height (r.result ++ [tx]) a ≤ _
  rw [spendable_concat, received]
  by_cases hto : tx.kind = some .transfer ∧ tx.recipient = a
  · obtain ⟨hk, rfl⟩ := hto
    have hne := recipient_ne_sender hk hv
    rw [if_pos ⟨hk, rfl⟩, if_neg hne.symm, (executeTransaction_arrives hkeyed hk hne hx).1]
    omega
  · rw [if_neg hto]
    split
    · next ha =>
      rw [if_pos ha.symm] at hbalance
      omega
    · next ha =>
      rw [if_neg (Ne.symm ha)] at hbalance
      omega

/-- **The two go on beside each other** when both have taken the transaction. -/
theorem Beside.next (hv : validateTransaction E tx (r.spec.reader names) params = .ok ())
    (hfits : StepFits E params ws header.height r.result tx)
    (hx : executeTransaction E .go params ord header i w tx = .ok w') :
    Beside E names ws header.height (r.take tx) w' := by
  have htx : TxFits E params header.height ⟨w, tx, w'⟩ := hf.txFits hfits
  obtain ⟨hstrict, hbounded⟩ := hf.bounded.executed htx hx
  have hkeyed := hf.indexed.keyed
  obtain ⟨sender, hsender, hnonce⟩ := executeTransaction_sender hx
  have hnext : tx.nonce = nonceOf w tx.sender + 1 := by rw [nonceOf_of hsender, hnonce]
  have hnumbers := executeTransaction_numbers hkeyed hx
  have hmem : ∀ {P : Transaction → Prop}, (∀ e ∈ (r.take tx).result, P e) ↔ (∀ e ∈ r.result, P e) ∧ P tx := by
    intro P
    change (∀ e ∈ r.result ++ [tx], P e) ↔ _
    simp [or_imp, forall_and]
  refine ⟨hbounded, executeTransaction_indexed hf.indexed hx, applyTx_base.trans hf.base,
    fun a acct hg => hf.nextAccount hv hstrict hg, fun a => hf.nextBalance hv hstrict, fun a => ?_, fun a => ?_,
      fun n => ?_, ?_,
    fun p hp => ?_, fun p a hp => ?_, fun p => ?_, fun a => ?_⟩
  · obtain ⟨hsome, -⟩ := valid_nonce hv
    rw [hnumbers.bumped a, hf.nonce]
    refine Eq.trans ?_ (nonceOf_applyTx hsome a).symm
    by_cases ha : a = tx.sender
    · rw [if_pos ha, if_pos ha.symm]
    · rw [if_neg ha, if_neg (Ne.symm ha), UInt64.add_zero]
  · rw [hmem, ← and_assoc, ← hf.unnamed]
    by_cases hself : tx.kind = some .registerName ∧ tx.sender = a
    · obtain ⟨hk, rfl⟩ := hself
      exact iff_of_false (executeTransaction_registers hf.indexed hx hk).1 fun h => h.2 hk rfl
    · rw [executeTransaction_nameOf hf.indexed hx fun hk ha => hself ⟨hk, ha.symm⟩]
      exact ⟨fun h => ⟨h, fun hk ha => hself ⟨hk, ha⟩⟩, fun h => h.1⟩
  · rw [hmem, ← and_assoc, ← hf.free]
    by_cases hself : tx.kind = some .registerName ∧ tx.text = n
    · obtain ⟨hk, rfl⟩ := hself
      exact iff_of_false (executeTransaction_registers hf.indexed hx hk).2 fun h => h.2 hk rfl
    · rw [executeTransaction_nameIndex hf.indexed hx fun hk hn => hself ⟨hk, hn⟩]
      exact ⟨fun h => ⟨h, fun hk ha => hself ⟨hk, ha⟩⟩, fun h => h.1⟩
  · have hfree : tx.kind = some .createPost → w.getPost (derivePostID E tx.sender (nonceOf w tx.sender + 1)) = none := by
      rw [← hnext]
      exact htx.post
    refine hf.posts.trans fun p old hp => ?_
    obtain ⟨new, hnew, hstays⟩ := (executeTransaction_posts hkeyed rfl hfree hstrict).stays p old hp
    exact ⟨new, hnew, hstays.toLasts⟩
  · have hlast : ∀ {e}, e ∈ r.result → e ∈ (r.take tx).result := fun he => List.mem_append_left _ he
    rcases hnumbers.posts p hp with hold | ⟨hk, hid⟩
    · rcases hf.created p hold with hold | ⟨e, he, hk, hid⟩
      · exact .inl hold
      · exact .inr ⟨e, hlast he, hk, hid⟩
    · exact .inr ⟨tx, List.mem_append_right _ (List.mem_singleton_self tx), hk, by rw [hid, hnext]⟩
  · rw [executeTransaction_stakes hkeyed hx, hf.posts.holdsAfter_eq hp, hf.held p a hp]
    exact heldBefore_concat.symm
  · have hle : stakersOn w' p ≤ stakersOn w p + 1 := by
      refine stakersOn_le_succ (b := tx.sender) fun a hst => ?_
      rw [executeTransaction_stakes hkeyed hx] at hst
      simp only [holdsAfter, Bool.and_eq_true, Bool.or_eq_true, decide_eq_true_eq] at hst
      exact hst.2.imp id fun h => h.2.symm
    refine hle.trans ?_
    have hold := hf.stakers p
    change _ ≤ stakersOn ws p + (r.result ++ [tx]).length
    rw [List.length_append, List.length_singleton]
    omega
  · rw [(executeTransaction_moved hkeyed hx).staked a, hf.staked]
    refine Eq.trans ?_ stakedBefore_concat.symm
    by_cases ha : a = tx.sender
    · rw [if_pos ha, if_pos ha.symm]
    · rw [if_neg ha, if_neg (Ne.symm ha)]

end

/-! ## The block -/

section

variable {o : ReapOrder} {order : Nat → RangeOrder} {m : Mempool} {maxTx : Int64} {header : BlockHeader}
  (hb : Bounded E 0 ws) (hi : Indexed ws) (hw : releaseMatured .go ws header.height = .ok w)
  (hfits : ∀ r tx, Takes E params ws.reader o m maxTx r tx → StepFits E params ws header.height r.result tx)
include hb hi hw hfits

/-- Where a call stands, the block made of what it has taken comes to a state beside the speculative one. -/
theorem Mempool.Takes.beside (ht : Takes E params ws.reader o m maxTx r tx)
    (hx : executeTransactions E .go params order header 0 w r.result = .ok w') :
    Beside E o.names ws header.height r w' := by
  refine ht.induct
    (fun r => ∀ w', executeTransactions E .go params order header 0 w r.result = .ok w' →
      Beside E o.names ws header.height r w')
    (fun w' hx => ?_) (fun r tx ht ih w' hx => ?_) w' hx
  · cases hx
    exact .start hb hi hw
  · obtain ⟨w₁, hw₁, hx⟩ := executeTransactions_concat.mp hx
    exact (ih w₁ hw₁).next ht.valid (hfits r tx ht) hx

end

/-- **A proposer's own selection executes** exactly where at no turn something is taken
that is not clear of what was taken before:
from any reachable state whose sums do not wrap, in any orders of the maps, where the arithmetic of each turn fits. -/
theorem selection_executes_iff {o : ReapOrder} {order : Nat → RangeOrder} {m : Mempool} {maxTx : Int64} {block : Block}
    (hr : Reachable E params ws) (hb : Bounded E 0 ws) (hevidence : block.evidence = [])
    (htxs : block.transactions = m.reapForBlock E o ws.reader params maxTx)
    (hfits : ∀ r tx, Takes E params ws.reader o m maxTx r tx → StepFits E params ws block.header.height r.result tx) :
    (∃ ws', applyBlock E .go params order ws block = .ok ws') ↔
      ∀ r tx, Takes E params ws.reader o m maxTx r tx → Clear E params ws r.result tx := by
  obtain ⟨w, hw⟩ : ∃ w, releaseMatured .go ws block.header.height = .ok w :=
    Except.foldlM_total (fun _ _ => depositAccount_total) _ _
  have hi := hr.indexed
  rw [applyBlock_total_iff hevidence hw, htxs]
  constructor
  · rintro ⟨w', hx⟩ r tx ht
    obtain ⟨rest, hrest⟩ := ht.returned
    rw [← hrest, executeTransactions_append] at hx
    obtain ⟨w₂, hx, -⟩ := hx
    obtain ⟨w₁, hw₁, hx⟩ := executeTransactions_concat.mp hx
    exact ((ht.beside hb hi hw hfits hw₁).executes_iff hi (hfits r tx ht).covered ht.valid).mp ⟨w₂, hx⟩
  · intro hclear
    refine reap_induct (fun r => ∃ w', executeTransactions E .go params order block.header 0 w r.result = .ok w') ⟨w, rfl⟩
      fun r tx ht hx => ?_
    obtain ⟨w₁, hw₁⟩ := hx
    obtain ⟨w₂, hx⟩ := ((ht.beside hb hi hw hfits hw₁).executes_iff hi (hfits r tx ht).covered ht.valid).mpr
      (hclear r tx ht)
    exact ⟨w₂, executeTransactions_concat.mpr ⟨w₁, hw₁, hx⟩⟩

section

open Drana.Sample
open Mempool.Sample (mixing)

instance {taken : List Transaction} : Decidable (StepFits E params ws height taken tx) :=
  decidable_of_iff (_ ∧ _ ∧ _ ∧ _ ∧ _ ∧ _ ∧ _)
    ⟨fun ⟨h₁, h₂, h₃, h₄, h₅, h₆, h₇⟩ => ⟨h₁, h₂, h₃, h₄, h₅, h₆, h₇⟩,
      fun ⟨h₁, h₂, h₃, h₄, h₅, h₆, h₇⟩ => ⟨h₁, h₂, h₃, h₄, h₅, h₆, h₇⟩⟩

/-- Key `n` wants to be "bob". -/
def Sample.callBob (n : UInt8) : Transaction :=
  signed n { type := 4, sender := address n, pubKey := (key n).publicKey, text := bob, nonce := 1 }

/-- What two keys send comes in. -/
def Sample.addTwo (tx tx' : Transaction) : Except String Mempool := do
  let m ← Mempool.Sample.pool.add mixing tx
  m.add mixing tx'

/-- One key calls itself "bob", another posts. -/
def Sample.apart : List Transaction := [callBob 1, createPost 2 100 1]

theorem Sample.apart_run : initializeState mixing config = .ok genesis ∧ supply genesis + 0 < 2 ^ 64 ∧
    (addTwo (callBob 1) (createPost 2 100 1)).value.reapForBlock mixing Mempool.Sample.reapOrder genesis.reader config
    10 = apart ∧
    ∀ i (hi : i < apart.length), StepFits mixing config genesis 1 (apart.take i) apart[i] := by
  decide +kernel

theorem Sample.apart_clear (i : Nat) (hi : i < apart.length) : Clear mixing config genesis (apart.take i) apart[i] := by
  match i, hi with
  | 0, _ => exact fun _ he => absurd he List.not_mem_nil
  | 1, _ => trivial

/-- Both are in the block, and it is accepted. -/
theorem selection_executes_iff_apart : ∃ ws', applyBlock mixing .go config (fun _ => order) genesis (block 1 apart).2 =
      .ok ws' := by
  obtain ⟨hinit, hroom, hreaped, hfits⟩ := apart_run
  exact (selection_executes_iff ⟨genesis, [], ∅, hinit, rfl⟩ (.genesis hinit hroom) rfl hreaped.symm
    (forall_takes hreaped hfits)).mpr (forall_takes hreaped apart_clear)

/-- Two keys want to be "bob": both are taken for one block, which is refused. -/
theorem two_bobs_refused : initializeState mixing config = .ok genesis ∧
    (addTwo (callBob 1) (callBob 2)).isOk = true ∧
    (block 1 [callBob 1, callBob 2]).2.header.height = genesis.chainHeight + 1 ∧
    (block 1 [callBob 1, callBob 2]).2.evidence = [] ∧
    (addTwo (callBob 1) (callBob 2)).value.reapForBlock mixing Mempool.Sample.reapOrder genesis.reader config 10 =
      [callBob 1, callBob 2] ∧
    (applyBlock mixing .go config (fun _ => order) genesis (block 1 [callBob 1, callBob 2]).2).isOk = false := by
  decide +kernel

end

end Drana
