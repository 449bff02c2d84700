/-
Each account's principal on each post: what it staked there is what it holds
there or was paid back, and whoever holds a stake can take it back.
-/
import Drana.PostBooks
import Drana.Acceptance

namespace Drana

variable {E : Env} {ar : Arith} {cfg : GenesisConfig} {ws ws' : WorldState} {a : Address} {p : PostID}
  {tx : Transaction} {ord : RangeOrder}

/-! ## The ledger -/

def balanceOf (ws : WorldState) (a : Address) : Nat := (ws.getAccount a).elim 0 (·.balance.toNat)

/-- What an unstake from `p` adds to the balance of `a`. -/
def credited (p : PostID) (a : Address) (e : Applied) : Int :=
  if e.tx.kind = some .unstakePost ∧ e.tx.postID = p then balanceOf e.after a - balanceOf e.before a else 0

/-- The post a transaction stakes on: the one it creates, or boosts. -/
def stakesOn (E : Env) (tx : Transaction) : Option PostID :=
  match tx.kind with
  | some .createPost => some (derivePostID E tx.sender tx.nonce)
  | some .boostPost => some tx.postID
  | _ => none

/-- What a transaction of `a` stakes on `p`. -/
def stakedPrincipal (E : Env) (cfg : GenesisConfig) (p : PostID) (a : Address) (e : Applied) : Int :=
  if stakesOn E e.tx = some p ∧ e.tx.sender = a then (stakedPortion cfg e.tx).toNat else 0

/-- What was staked was credited back or is held. -/
def Settled (E : Env) (cfg : GenesisConfig) (log : List Applied) (ws : WorldState) : Prop :=
  ∀ p a, (log.map (credited p a)).sum + heldOn ws p a = (log.map (stakedPrincipal E cfg p a)).sum

theorem Settled.step {log : List Applied} {e : Applied} (h : Settled E cfg log ws)
    (hstep : ∀ p a, credited p a e + heldOn ws' p a = stakedPrincipal E cfg p a e + heldOn ws p a) :
    Settled E cfg (log ++ [e]) ws' := by
  intro p a
  have h := h p a
  have hstep := hstep p a
  simp only [List.map_append, List.sum_append, List.map_cons, List.map_nil, List.sum_cons, List.sum_nil]
  omega

/-- A record written raises what is held by what was paid in. -/
theorem heldOn_stakeAdded {n : Nat} {post : Post} {s : PostStake} (h : StakeAdded n post s ws ws')
    (hs : s.amount.toNat = heldOn ws s.postID s.staker + n) :
    heldOn ws' p a = heldOn ws p a + if s.postID = p ∧ s.staker = a then n else 0 := by
  rw [heldOn, h.getPostStake]
  split
  · next hk =>
    obtain ⟨rfl, rfl⟩ := Prod.mk.inj hk
    rw [Option.elim_some, hs, if_pos ⟨rfl, rfl⟩]
  · next hk =>
    rw [if_neg, heldOn, Nat.add_zero]
    rintro ⟨rfl, rfl⟩
    exact hk rfl

theorem next_nonce_toNat {n m : UInt64} (h : m.toNat = n.toNat + 1) : m = n + 1 := by
  have := m.toNat_lt
  apply UInt64.toNat_inj.mp
  rw [UInt64.toNat_add, h, UInt64.toNat_one]
  exact (Nat.mod_eq_of_lt (by omega)).symm

/-- Who sends a transaction that is executed has an account, and the nonce is its next. -/
theorem executeTransaction_sender {header : BlockHeader} {i : Nat}
    (h : executeTransaction E ar cfg ord header i ws tx = .ok ws') :
    ∃ acct, ws.getAccount tx.sender = some acct ∧ tx.nonce = acct.nonce + 1 := by
  obtain ⟨hv, -⟩ := executeTransaction_ok_iff.mp h
  obtain ⟨acct, hc⟩ := validateTransaction_ok hv
  obtain ⟨-, -, hg, hnonce⟩ := validateCommonNoBalanceCheck_ok hc
  exact ⟨acct, hg, hnonce⟩

theorem executeTransaction_nonce {header : BlockHeader} {i : Nat} {sender : Account}
    (h : executeTransaction E ar cfg ord header i ws tx = .ok ws') (hg : ws.getAccount tx.sender = some sender) :
    tx.nonce = sender.nonce + 1 := by
  obtain ⟨acct, hacct, hnonce⟩ := executeTransaction_sender h
  rw [hg] at hacct
  cases hacct
  exact hnonce

/-- One transaction. -/
theorem settled_step (htrap : ar.trapAdd = true) (hp : PercentagesOk cfg) (hinj : PostIDsDistinct E)
    (hb : PostBooks E ws) {header : BlockHeader} {i : Nat}
    (h : executeTransaction E ar cfg ord header i ws tx = .ok ws') (p : PostID) (a : Address) :
    credited p a ⟨ws, tx, ws'⟩ + heldOn ws' p a = stakedPrincipal E cfg p a ⟨ws, tx, ws'⟩ + heldOn ws p a := by
  cases executeTransaction_effect htrap hp hb.books h with
  | plain moved kind kept =>
    have hheld : heldOn ws' p a = heldOn ws p a := by rw [heldOn, kept.getPostStake, heldOn]
    have hnone : stakesOn E tx ≠ some p := by
      unfold stakesOn
      split <;> simp_all
    simp [credited, stakedPrincipal, kind.2.2, hnone, hheld]
  | create sender post s kind effect =>
    obtain ⟨sender', -, hnonce, hid⟩ := effect.next
    have hnext := executeTransaction_nonce h effect.found
    have hsender' : sender'.nonce = tx.nonce := by rw [hnext, next_nonce_toNat hnonce]
    have hnew : ws.getPost post.postID = none := hid ▸ hb.fresh_id hinj effect.found (by omega)
    have hs : s.amount.toNat = heldOn ws s.postID s.staker + (tx.amount - postFee cfg tx.amount).toNat := by
      rw [effect.postID, heldOn_none (hb.noStakes hnew _), Nat.zero_add, effect.amount]
    have hon : stakesOn E tx = some post.postID := by rw [stakesOn, kind, hid, hsender']
    have hportion : stakedPortion cfg tx = tx.amount - postFee cfg tx.amount := by rw [stakedPortion, kind]
    rw [heldOn_stakeAdded effect.added hs, effect.postID, effect.staker]
    simp only [credited, stakedPrincipal, kind, hon, hportion, Option.some.injEq, reduceCtorEq, false_and, if_false]
    split
    · rw [Int.natCast_add]
      omega
    · rw [Nat.add_zero, Int.zero_add]
  | boost old new s staked kind effect =>
    have hs : s.amount.toNat = heldOn ws s.postID s.staker + staked.toNat := by
      rw [effect.amount, effect.stake.1, effect.stake.2]
    have hon : stakesOn E tx = some tx.postID := by rw [stakesOn, kind]
    have hportion : stakedPortion cfg tx = staked := by rw [stakedPortion, kind, effect.portion]
    rw [heldOn_stakeAdded effect.added hs, effect.stake.1, effect.stake.2]
    simp only [credited, stakedPrincipal, kind, hon, hportion, Option.some.injEq, reduceCtorEq, false_and, if_false]
    split
    · rw [Int.natCast_add]
      omega
    · rw [Nat.add_zero, Int.zero_add]
  | unstake w old new kind effect =>
    have hheld : heldOn ws' p a = heldOn w p a := by rw [effect.result]; rfl
    have hbal : balanceOf ws' a = balanceOf w a := by rw [effect.result]; rfl
    have hon : stakesOn E tx = none := by rw [stakesOn, kind]
    simp only [credited, stakedPrincipal, kind, hon, reduceCtorEq, false_and, if_false, true_and, hheld, hbal]
    split
    · next hq =>
      subst hq
      cases hg : ws.getAccount a with
      | none =>
        have hnone : ws.getPostStake tx.postID a = none := by
          cases hs : ws.getPostStake tx.postID a with
          | none => rfl
          | some s =>
            obtain ⟨acct, hacct⟩ := hb.books.staker _ a s hs
            rw [hg] at hacct
            cases hacct
        have hnone' : w.getPostStake tx.postID a = none := by
          cases hs : w.getPostStake tx.postID a with
          | none => rfl
          | some s =>
            rw [effect.unstaked.fewer a s hs] at hnone
            cases hnone
        simp [balanceOf, hg, effect.unstaked.fresh a hg, heldOn_none hnone, heldOn_none hnone']
      | some acct =>
        obtain ⟨acct', hg', -, hpaid⟩ := effect.unstaked.kept a acct hg
        have := (hpaid htrap).1
        simp only [balanceOf, hg, hg', Option.elim_some]
        omega
    · next hq =>
      have : heldOn w p a = heldOn ws p a := by
        rw [heldOn, effect.unstaked.others p a fun h => hq h.symm, heldOn]
      rw [this]

theorem keeps_settled (htrap : ar.trapAdd = true) (hp : PercentagesOk cfg) (hinj : PostIDsDistinct E) :
    Keeps E ar cfg fun log ws => PostBooks E ws ∧ Settled E cfg log ws := by
  refine .of_kept htrap (fun hP => hP.1.books.keyed) (fun hP hk => ⟨hP.1.kept hk, fun p a => ?_⟩) ?_
  · rw [heldOn, hk.getPostStake]
    exact hP.2 p a
  · intro log ws tx ws' ord header i hP h
    exact ⟨executeTransaction_postBooks htrap hp hinj hP.1 h,
      hP.2.step (settled_step htrap hp hinj hP.1 h)⟩

/-! ## Unstaking is always open -/

/-- An UnstakePost of a holder is executed. -/
theorem executeTransaction_unstakePost_ok (hb : PostBooks E ws) (hkind : tx.kind = some .unstakePost) {s : PostStake}
    (hs : ws.getPostStake tx.postID tx.sender = some s) (hkey : addressFromPublicKey E tx.pubKey = tx.sender)
    (hsig : verify E tx.pubKey tx.signableBytes tx.signature = true) {acct : Account}
    (hg : ws.getAccount tx.sender = some acct) (hnonce : tx.nonce = acct.nonce + 1) (ord : RangeOrder)
    (header : BlockHeader) (i : Nat) : ∃ ws', executeTransaction E .go cfg ord header i ws tx = .ok ws' := by
  obtain ⟨post, hpost⟩ := hb.post _ _ _ hs
  have hvalid : validateTransaction E tx ws.reader cfg = .ok () := by
    simp only [validateTransaction, hkind, validateUnstakePost, validateCommonNoBalanceCheck, Except.bind_ok_iff,
      Except.throwIf_ok_iff, Except.orThrow_ok_iff, Except.pure_ok_iff, WorldState.reader]
    exact ⟨acct, ⟨(), by simp [hkey], (), by simp [hsig], acct, hg, (), by simp [hnonce], rfl⟩, s, hs, post, hpost,
      trivial⟩
  obtain ⟨ws', happly⟩ := applyTransaction_total hvalid
  exact ⟨ws', executeTransaction_ok_iff.mpr ⟨hvalid, happly⟩⟩

/-- **Principal comes back exactly**: along a run, what unstakes from a post
credited to an account is what the account staked there less what it holds
there; and a holder's next UnstakePost is executed, whatever its balance. -/
theorem principal_returned (hp : PercentagesOk cfg) (hinj : PostIDsDistinct E) {ws₀ : WorldState}
    (h₀ : initializeState E cfg = .ok ws₀) {bs : List ((Nat → RangeOrder) × Block)}
    (hrun : applyBlocks E .go cfg ws₀ bs = .ok ws) (hw : NoSumWraps E cfg ws₀ bs) :
    (∀ p a, ((appliedInRun E .go cfg ws₀ bs).map (credited p a)).sum =
      ((appliedInRun E .go cfg ws₀ bs).map (stakedPrincipal E cfg p a)).sum - heldOn ws p a) ∧
    ∀ tx : Transaction, tx.kind = some .unstakePost → (∃ s, ws.getPostStake tx.postID tx.sender = some s) →
      addressFromPublicKey E tx.pubKey = tx.sender → verify E tx.pubKey tx.signableBytes tx.signature = true →
      (∀ acct, ws.getAccount tx.sender = some acct → tx.nonce = acct.nonce + 1) →
      ∀ ord header i, ∃ ws', executeTransaction E .go cfg ord header i ws tx = .ok ws' := by
  obtain ⟨hsums, hlog⟩ := run_of_noSumWraps hrun hw
  have hinit : PostBooks E ws₀ ∧ Settled E cfg [] ws₀ := by
    have hfresh := (initializeState_fresh h₀).1
    refine ⟨hfresh.postBooks, fun p a => ?_⟩
    have hnone : ws₀.getPostStake p a = none := by simp [WorldState.getPostStake, hfresh.postStakes]
    simp [heldOn_none hnone]
  obtain ⟨hb, hsettled⟩ := (keeps_settled rfl hp hinj).fromStart hinit hsums
  refine ⟨fun p a => ?_, ?_⟩
  · have := hsettled p a
    rw [hlog]
    omega
  · rintro tx hkind ⟨s, hs⟩ hkey hsig hnonce ord header i
    obtain ⟨acct, hg⟩ := hb.books.staker _ _ s hs
    exact executeTransaction_unstakePost_ok hb hkind hs hkey hsig hg (hnonce acct hg) ord header i

section

open Sample

/-- The author's withdrawal pays key 2 its two stakes of 94. -/
theorem principal_returned_withdrawal :
    ((appliedInRun env .go config genesis withdrawal).map (credited firstPost (address 2))).sum = 188 := by
  obtain ⟨hrun, hw⟩ := run_of_isOk withdrawal_isOk
  rw [(principal_returned config_percentages env_postIDsDistinct genesis_ok hrun hw).1]
  decide +kernel

end

end Drana
