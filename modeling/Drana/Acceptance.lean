/-
When `ApplyBlock` accepts a block: with Go's arithmetic nothing but a check can
fail, and behind the validator's checks none does.
-/
import Drana.Conservation

namespace Drana

open Except (orThrow throwIf)

variable {E : Env} {params : GenesisConfig} {ws w w' : WorldState} {tx : Transaction} {ord : RangeOrder}
  {a : Address} {p : PostID} {height : UInt64} {time : Int64}

/-! ## What is valid can be applied -/

theorem creditAccount_total {n : UInt64} : ∃ ws', creditAccount .go ws a n = .ok ws' := by
  unfold creditAccount
  split
  · simp only [Arith.go_add, Except.ok_bind]
    exact ⟨_, rfl⟩
  · exact ⟨_, rfl⟩

theorem payAuthor_total {n : UInt64} : ∃ ws', payAuthor .go ws a n = .ok ws' := by
  unfold payAuthor
  split
  · exact creditAccount_total
  · exact ⟨_, rfl⟩

theorem payStakers_total {post : Post} {n : UInt64} : ∃ ws', payStakers .go ord ws post p n = .ok ws' := by
  unfold payStakers
  split
  · exact Except.foldlM_total (fun _ _ => payAuthor_total) _ _
  · exact ⟨_, rfl⟩

theorem addBoostStake_total {post : Post} {n : UInt64} : ∃ ws', addBoostStake .go ws post tx n height = .ok ws' := by
  unfold addBoostStake
  split
  · simp only [Arith.go_add, Except.ok_bind]
    exact ⟨_, rfl⟩
  · simp only [Arith.go_add, Except.ok_bind]
    exact ⟨_, rfl⟩

theorem returnStake_total {s : PostStake} : ∃ ws', returnStake .go ws s = .ok ws' := by
  unfold returnStake
  split
  · simp only [Arith.go_add, Arith.go_sub, Except.ok_bind]
    exact ⟨_, rfl⟩
  · exact ⟨_, rfl⟩

theorem forceUnstake_total {acc : WorldState × Post} {s : PostStake} : ∃ acc', forceUnstake .go p acc s = .ok acc' := by
  refine Except.bind_total returnStake_total fun w => ?_
  simp only [Arith.go_sub, Except.ok_bind]
  exact ⟨_, rfl⟩

/-- **What is valid can be applied**: none of the checks behind the validator's fails. -/
theorem applyTransaction_total (hv : validateTransaction E tx ws.reader params = .ok ()) :
    ∃ ws', applyTransaction E .go params ord ws tx height time = .ok ws' := by
  obtain ⟨acct, hc, hbalance⟩ := validateTransaction_sender hv
  obtain ⟨-, -, hg, -⟩ := validateCommonNoBalanceCheck_ok hc
  change ws.getAccount tx.sender = some acct at hg
  cases hk : tx.kind with
  | none =>
    rw [validateTransaction, hk] at hv
    cases hv
  | some kind =>
    have hpaid (hkind : kind ≠ .unstake ∧ kind ≠ .unstakePost) : ¬ acct.balance < tx.amount := by
      refine UInt64.not_lt.mpr (hbalance ?_)
      rw [spendsNothing_iff hk]
      exact not_or.mpr hkind
    rw [validateTransaction, hk] at hv
    rw [applyTransaction, hk]
    cases kind with
    | transfer =>
      simp only [applyTransfer, hg, orThrow, throwIf, hpaid (by simp), depositAccount, Arith.go_add, Arith.go_sub,
        Except.ok_bind, if_false]
      exact ⟨_, rfl⟩
    | createPost =>
      simp only [applyCreatePost, hg, orThrow, throwIf, hpaid (by simp), Arith.go_add, Arith.go_sub, Except.ok_bind,
        if_false]
      exact ⟨_, rfl⟩
    | boostPost =>
      simp only [validateBoostPost, Except.bind_ok_iff, Except.orThrow_ok_iff] at hv
      obtain ⟨-, -, post, hpost, -⟩ := hv
      change ws.getPost tx.postID = some post at hpost
      simp only [applyBoostPost, boostStaked, hg, hpost, orThrow, throwIf, hpaid (by simp), Arith.go_add, Arith.go_sub,
        Except.ok_bind, if_false]
      exact Except.bind_total payAuthor_total fun w₁ => Except.bind_total payStakers_total fun w₂ => addBoostStake_total
    | unstakePost =>
      simp only [validateUnstakePost, Except.bind_ok_iff, Except.orThrow_ok_iff] at hv
      obtain ⟨-, -, stake, hstake, post, hpost, -⟩ := hv
      change ws.getPostStake tx.postID tx.sender = some stake at hstake
      change ws.getPost tx.postID = some post at hpost
      simp only [applyUnstakePost, hg, hstake, hpost, orThrow, Arith.go_add, Arith.go_sub, Except.ok_bind]
      split
      · exact Except.bind_total (Except.foldlM_total (fun _ _ => forceUnstake_total) _ _) fun acc => ⟨_, rfl⟩
      · exact ⟨_, rfl⟩
    | registerName =>
      simp only [applyRegisterName, hg, orThrow, Arith.go_add, Except.ok_bind]
      exact ⟨_, rfl⟩
    | stake =>
      simp only [applyStake, hg, orThrow, throwIf, hpaid (by simp), Arith.go_add, Arith.go_sub, Except.ok_bind, if_false]
      exact ⟨_, rfl⟩
    | unstake =>
      simp only [validateUnstake, hc, Except.ok_bind, Except.bind_ok_iff, Except.throwIf_ok_iff] at hv
      obtain ⟨-, -, -, hstaked, -⟩ := hv
      simp only [applyUnstake, hg, orThrow, throwIf, hstaked, Arith.go_add, Arith.go_sub, Except.ok_bind, if_false]
      exact ⟨_, rfl⟩

/-! ## Blocks -/

theorem depositAccount_total {n : UInt64} : ∃ ws', depositAccount .go ws a n = .ok ws' := by
  simp only [depositAccount, Arith.go_add, Except.ok_bind]
  exact ⟨_, rfl⟩

theorem issueReward_total : ∃ ws', issueReward .go params ws a = .ok ws' := by
  unfold issueReward
  split
  · refine Except.bind_total depositAccount_total fun w => ?_
    simp only [Arith.go_add, Except.ok_bind]
    exact ⟨_, rfl⟩
  · exact ⟨_, rfl⟩

/-- A block without evidence is accepted where its transactions execute on what its releases leave. -/
theorem applyBlock_total_iff {order : Nat → RangeOrder} {block : Block} (hevidence : block.evidence = [])
    (hw : releaseMatured .go ws block.header.height = .ok w) : (∃ ws', applyBlock E .go params order ws block = .ok ws') ↔
      ∃ w', executeTransactions E .go params order block.header 0 w block.transactions = .ok w' := by
  have hnone : processEvidence E .go params w block.evidence = .ok w := by
    rw [hevidence]
    rfl
  simp only [applyBlock, hw, hnone, Except.ok_bind]
  constructor
  · rintro ⟨ws', h⟩
    obtain ⟨w', hx, -⟩ := Except.bind_ok_iff.mp h
    exact ⟨w', hx⟩
  · rintro ⟨w', hx⟩
    rw [hx, Except.ok_bind]
    exact Except.bind_total issueReward_total fun _ => ⟨_, rfl⟩

theorem executeTransactions_append {order : Nat → RangeOrder} {header : BlockHeader} {txs txs' : List Transaction}
    {i : Nat} :
    executeTransactions E .go params order header i ws (txs ++ txs') = .ok w' ↔
      ∃ w, executeTransactions E .go params order header i ws txs = .ok w ∧
        executeTransactions E .go params order header (i + txs.length) w txs' = .ok w' := by
  induction txs generalizing i ws with
  | nil => simp [executeTransactions]
  | cons tx txs ih =>
    simp only [List.cons_append, executeTransactions, Except.bind_ok_iff, ih, List.length_cons, Nat.add_assoc,
      Nat.add_comm 1]
    constructor
    · rintro ⟨w₁, h₁, w, hw, hrest⟩
      exact ⟨w, ⟨w₁, h₁, hw⟩, hrest⟩
    · rintro ⟨w, ⟨w₁, h₁, hw⟩, hrest⟩
      exact ⟨w₁, h₁, w, hw, hrest⟩

theorem executeTransactions_concat {order : Nat → RangeOrder} {header : BlockHeader} {txs : List Transaction} :
    executeTransactions E .go params order header 0 ws (txs ++ [tx]) = .ok w' ↔
      ∃ w, executeTransactions E .go params order header 0 ws txs = .ok w ∧
        executeTransaction E .go params (order txs.length) header txs.length w tx = .ok w' := by
  simp only [executeTransactions_append, executeTransactions, Except.bind_ok_iff, Except.pure_ok_iff, exists_eq_right,
    Nat.zero_add]

end Drana
