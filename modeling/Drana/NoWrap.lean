/-
A run that stops at no sum (or difference) that would wrap is Go's run, step
by step: the stops change nothing but whether the end is reached.
-/
import Drana.Run
import Drana.Inversion

namespace Drana

open Except (Extends)

variable {E : Env} {ar ar' : Arith} {params : GenesisConfig} {ws : WorldState} {tx : Transaction}
  {ord : RangeOrder}

section

variable (hs : ar.Stops ar')
include hs

theorem depositAccount_extends {a n} : Extends (depositAccount ar ws a n) (depositAccount ar' ws a n) :=
  .bind hs.add_extends fun _ => .refl

theorem applyTransfer_extends : Extends (applyTransfer ar ws tx) (applyTransfer ar' ws tx) := by
  unfold applyTransfer
  repeat' first
    | exact .refl | exact hs.add_extends | exact hs.sub_extends | exact depositAccount_extends hs
    | refine .bind ?_ fun _ => ?_

theorem applyCreatePost_extends {h t} :
    Extends (applyCreatePost E ar params ws tx h t) (applyCreatePost E ar' params ws tx h t) := by
  unfold applyCreatePost
  repeat' first
    | exact .refl | exact hs.add_extends | exact hs.sub_extends | refine .bind ?_ fun _ => ?_

theorem creditAccount_extends {a n} : Extends (creditAccount ar ws a n) (creditAccount ar' ws a n) := by
  unfold creditAccount
  split
  · exact .bind hs.add_extends fun _ => .refl
  · exact .refl

theorem payAuthor_extends {a n} : Extends (payAuthor ar ws a n) (payAuthor ar' ws a n) :=
  .ite (creditAccount_extends hs) .refl

theorem payStakers_extends {post p n} : Extends (payStakers ar ord ws post p n) (payStakers ar' ord ws post p n) :=
  .ite (.foldlM (fun _ _ => .ite (creditAccount_extends hs) .refl) _ _) .refl

theorem addBoostStake_extends {post n h} :
    Extends (addBoostStake ar ws post tx n h) (addBoostStake ar' ws post tx n h) := by
  unfold addBoostStake
  split
  · exact .bind hs.add_extends fun _ => .refl
  · exact .bind hs.add_extends fun _ => .refl

theorem boostStaked_extends {n} : Extends (boostStaked ar params n) (boostStaked ar' params n) :=
  .bind hs.sub_extends fun _ => .bind hs.sub_extends fun _ => hs.sub_extends

theorem applyBoostPost_extends {h} :
    Extends (applyBoostPost ar params ord ws tx h) (applyBoostPost ar' params ord ws tx h) := by
  unfold applyBoostPost
  repeat' first
    | exact .refl | exact hs.add_extends | exact hs.sub_extends | exact boostStaked_extends hs
    | exact payAuthor_extends hs | exact payStakers_extends hs | exact addBoostStake_extends hs
    | refine .bind ?_ fun _ => ?_

theorem returnStake_extends {s} : Extends (returnStake ar ws s) (returnStake ar' ws s) := by
  unfold returnStake
  split
  · exact .bind hs.add_extends fun _ => .bind hs.sub_extends fun _ => .refl
  · exact .refl

theorem forceUnstake_extends {p acc s} : Extends (forceUnstake ar p acc s) (forceUnstake ar' p acc s) :=
  .bind (returnStake_extends hs) fun _ => .bind hs.sub_extends fun _ => .bind hs.sub_extends fun _ => .refl

theorem applyUnstakePost_extends :
    Extends (applyUnstakePost ar ord ws tx) (applyUnstakePost ar' ord ws tx) := by
  unfold applyUnstakePost
  repeat' first
    | exact .refl | exact hs.add_extends | exact hs.sub_extends
    | exact .foldlM (fun _ _ => forceUnstake_extends hs) _ _
    | refine .ite ?_ ?_ | refine .bind ?_ fun _ => ?_

theorem applyStake_extends : Extends (applyStake ar ws tx) (applyStake ar' ws tx) := by
  unfold applyStake
  repeat' first
    | exact .refl | exact hs.add_extends | exact hs.sub_extends | refine .bind ?_ fun _ => ?_

theorem applyUnstake_extends {h} : Extends (applyUnstake ar params ws tx h) (applyUnstake ar' params ws tx h) := by
  unfold applyUnstake
  repeat' first
    | exact .refl | exact hs.add_extends | exact hs.sub_extends | refine .bind ?_ fun _ => ?_

theorem applyRegisterName_extends : Extends (applyRegisterName ar ws tx) (applyRegisterName ar' ws tx) := by
  unfold applyRegisterName
  repeat' first
    | exact .refl | exact hs.add_extends | refine .bind ?_ fun _ => ?_

theorem applyTransaction_extends {h t} :
    Extends (applyTransaction E ar params ord ws tx h t) (applyTransaction E ar' params ord ws tx h t) := by
  unfold applyTransaction
  split
  · exact applyTransfer_extends hs
  · exact applyCreatePost_extends hs
  · exact applyBoostPost_extends hs
  · exact applyUnstakePost_extends hs
  · exact applyRegisterName_extends hs
  · exact applyStake_extends hs
  · exact applyUnstake_extends hs
  · exact .refl

theorem slashEntries_extends {a : Address} : ∀ {n : UInt64} {es : List UnbondingEntry},
    Extends (WorldState.slashEntries ar a n es) (WorldState.slashEntries ar' a n es)
  | _, [] => .refl
  | _, _ :: _ =>
    .ite .refl (.ite
      (.ite (.bind hs.sub_extends fun _ => .bind slashEntries_extends fun _ => .refl)
        (.bind hs.sub_extends fun _ => .refl))
      (.bind slashEntries_extends fun _ => .refl))

theorem slashRest_extends {a n} : Extends (slashRest ar ws a n) (slashRest ar' ws a n) :=
  .ite (.bind (slashEntries_extends hs) fun _ => .refl) .refl

theorem slashAccount_extends {a h acct n} :
    Extends (slashAccount ar params ws a h acct n) (slashAccount ar' params ws a h acct n) := by
  unfold slashAccount
  repeat' first
    | exact .refl | exact hs.add_extends | exact hs.sub_extends | exact slashRest_extends hs
    | refine .bind ?_ fun _ => ?_

theorem applySlashEvidence_extends {ev} :
    Extends (applySlashEvidence E ar params ws ev) (applySlashEvidence E ar' params ws ev) := by
  unfold applySlashEvidence
  refine .ite .refl (.ite .refl ?_)
  split
  · exact .refl
  · exact .bind (.foldlM (fun _ _ => .ite hs.add_extends .refl) _ _) fun _ =>
      .bind hs.add_extends fun _ => .ite .refl (slashAccount_extends hs)

theorem beforeTransactions_extends {block} :
    Extends (beforeTransactions E ar params ws block) (beforeTransactions E ar' params ws block) :=
  .bind (.foldlM (fun _ _ => depositAccount_extends hs) _ _) fun _ =>
    .foldlM (fun _ _ => applySlashEvidence_extends hs) _ _

theorem executeTransaction_extends {header i} :
    Extends (executeTransaction E ar params ord header i ws tx) (executeTransaction E ar' params ord header i ws tx) :=
  .bind .refl fun _ => (applyTransaction_extends hs).wrapErr

theorem executeTransactions_extends {ord : Nat → RangeOrder} {header : BlockHeader} :
    ∀ {i : Nat} {ws : WorldState} {txs : List Transaction},
      Extends (executeTransactions E ar params ord header i ws txs)
        (executeTransactions E ar' params ord header i ws txs)
  | _, _, [] => .refl
  | _, _, _ :: _ => .bind (executeTransaction_extends hs) fun _ => executeTransactions_extends

theorem issueReward_extends {a} : Extends (issueReward ar params ws a) (issueReward ar' params ws a) :=
  .ite (.bind (depositAccount_extends hs) fun _ => .bind hs.add_extends fun _ => .refl) .refl

theorem applyBlock_extends {ord : Nat → RangeOrder} {block : Block} :
    Extends (applyBlock E ar params ord ws block) (applyBlock E ar' params ord ws block) := by
  rw [applyBlock_eq, applyBlock_eq]
  exact .bind (beforeTransactions_extends hs) fun _ => .bind (executeTransactions_extends hs) fun _ =>
    .bind (issueReward_extends hs) fun _ => .refl

theorem appliedTransactions_eq {ord : Nat → RangeOrder} {header : BlockHeader} {txs : List Transaction} {i : Nat}
    {ws ws' : WorldState} (h : executeTransactions E ar params ord header i ws txs = .ok ws') :
    appliedTransactions E ar' params ord header i ws txs = appliedTransactions E ar params ord header i ws txs := by
  induction txs generalizing i ws with
  | nil => rfl
  | cons tx txs ih =>
    simp only [executeTransactions, Except.bind_ok_iff] at h
    obtain ⟨w, hw, hrest⟩ := h
    simp only [appliedTransactions, hw, executeTransaction_extends hs w hw, ih hrest]

theorem appliedInBlock_eq {ord : Nat → RangeOrder} {block : Block} {ws' : WorldState}
    (h : applyBlock E ar params ord ws block = .ok ws') :
    appliedInBlock E ar' params ord ws block = appliedInBlock E ar params ord ws block := by
  rw [applyBlock_eq] at h
  simp only [Except.bind_ok_iff] at h
  obtain ⟨w, hw, w', hw', -⟩ := h
  simp only [appliedInBlock, hw, beforeTransactions_extends hs w hw, appliedTransactions_eq hs hw']

theorem applyBlocks_extends {bs : List ((Nat → RangeOrder) × Block)} :
    Extends (applyBlocks E ar params ws bs) (applyBlocks E ar' params ws bs) :=
  .foldlM (fun _ _ => applyBlock_extends hs) _ _

theorem appliedInRun_eq {bs : List ((Nat → RangeOrder) × Block)} {ws' : WorldState}
    (h : applyBlocks E ar params ws bs = .ok ws') :
    appliedInRun E ar' params ws bs = appliedInRun E ar params ws bs := by
  induction bs generalizing ws with
  | nil => rfl
  | cons b bs ih =>
    obtain ⟨w, hw, hrest⟩ := applyBlocks_cons_ok_iff.mp h
    simp only [appliedInRun, hw, applyBlock_extends hs w hw, appliedInBlock_eq hs hw, ih hrest]

end

/-- No `uint64` sum wraps in the run: stopping at those changes nothing. -/
def NoSumWraps (E : Env) (params : GenesisConfig) (ws : WorldState) (bs : List ((Nat → RangeOrder) × Block)) :
    Prop :=
  applyBlocks E .sums params ws bs = applyBlocks E .go params ws bs

/-- A run with no wrapping sum, seen with the stops in. -/
theorem run_of_noSumWraps {ws' : WorldState} {bs : List ((Nat → RangeOrder) × Block)}
    (hrun : applyBlocks E .go params ws bs = .ok ws') (hw : NoSumWraps E params ws bs) :
    applyBlocks E .sums params ws bs = .ok ws' ∧
      appliedInRun E .go params ws bs = appliedInRun E .sums params ws bs := by
  have hsums : applyBlocks E .sums params ws bs = .ok ws' := hw.trans hrun
  exact ⟨hsums, appliedInRun_eq (Arith.stops_go _) hsums⟩

/-- A run and one more block. -/
theorem run_block_of_noSumWraps {ws₀ ws' : WorldState} {bs : List ((Nat → RangeOrder) × Block)}
    {ord : Nat → RangeOrder} {block : Block} (hrun : applyBlocks E .go params ws₀ bs = .ok ws)
    (hblock : applyBlock E .go params ord ws block = .ok ws') (hw : NoSumWraps E params ws₀ (bs ++ [(ord, block)])) :
    applyBlocks E .sums params ws₀ bs = .ok ws ∧ applyBlock E .sums params ord ws block = .ok ws' := by
  have hgo : applyBlocks E .go params ws₀ (bs ++ [(ord, block)]) = .ok ws' :=
    applyBlocks_append_ok_iff.mpr ⟨ws, hrun, hblock⟩
  obtain ⟨w, hsums, hlast⟩ := applyBlocks_append_ok_iff.mp (hw.trans hgo)
  have hsame := applyBlocks_extends (Arith.stops_go _) w hsums
  rw [hrun] at hsame
  cases hsame
  exact ⟨hsums, hlast⟩

end Drana
