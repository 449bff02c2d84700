/-
A block as the list of what it does to the state, one operation after the
other, so that a statement can be about each of them and the states around it.
-/
import Drana.NoWrap

namespace Drana

open Except (Extends)

/-- What `ApplyBlock` does to the state in one step. -/
inductive Operation
  | release (height : UInt64)
  | slash (ev : SlashEvidence)
  | transaction (ord : RangeOrder) (header : BlockHeader) (i : Nat) (tx : Transaction)
  | reward (proposerAddr : Address)
  | finish (ord : RangeOrder) (height : UInt64)

def Operation.apply (E : Env) (ar : Arith) (params : GenesisConfig) (ws : WorldState) :
    Operation → Except String WorldState
  | .release height => releaseMatured ar ws height
  | .slash ev => applySlashEvidence E ar params ws ev
  | .transaction ord header i tx => executeTransaction E ar params ord header i ws tx
  | .reward proposerAddr => issueReward ar params ws proposerAddr
  | .finish ord height => return { epochTransition params ord ws height with chainHeight := height }

/-- The transactions of a block from number `i` on. -/
def transactionsFrom (ord : Nat → RangeOrder) (header : BlockHeader) : Nat → List Transaction → List Operation
  | _, [] => []
  | i, tx :: txs => .transaction (ord i) header i tx :: transactionsFrom ord header (i + 1) txs

def operationsOfBlock (b : (Nat → RangeOrder) × Block) : List Operation :=
  [.release b.2.header.height] ++ b.2.evidence.map .slash ++ transactionsFrom b.1 b.2.header 0 b.2.transactions ++
    [.reward b.2.header.proposerAddr, .finish (b.1 b.2.transactions.length) b.2.header.height]

def operationsOfRun (bs : List ((Nat → RangeOrder) × Block)) : List Operation := bs.flatMap operationsOfBlock

/-- One operation after the other. -/
def perform (E : Env) (ar : Arith) (params : GenesisConfig) (ws : WorldState) (ops : List Operation) :
    Except String WorldState :=
  ops.foldlM (Operation.apply E ar params) ws

/-- An operation that was performed, with the states around it. -/
structure Performed where
  before : WorldState
  op : Operation
  after : WorldState

/-- What is performed of a list of operations, up to the first that fails. -/
def performed (E : Env) (ar : Arith) (params : GenesisConfig) : WorldState → List Operation → List Performed
  | _, [] => []
  | ws, op :: ops =>
    match op.apply E ar params ws with
    | .ok ws' => ⟨ws, op, ws'⟩ :: performed E ar params ws' ops
    | .error _ => []

variable {E : Env} {ar ar' : Arith} {params : GenesisConfig} {ws ws' : WorldState} {ops : List Operation}

/-! ## A block is its operations -/

theorem perform_transactions {ord : Nat → RangeOrder} {header : BlockHeader} {txs : List Transaction} {i : Nat} :
    perform E ar params ws (transactionsFrom ord header i txs) =
      executeTransactions E ar params ord header i ws txs := by
  induction txs generalizing i ws with
  | nil => rfl
  | cons tx txs ih =>
    simp only [perform] at ih
    simp [perform, transactionsFrom, executeTransactions, Operation.apply, ih]

theorem perform_block {b : (Nat → RangeOrder) × Block} :
    perform E ar params ws (operationsOfBlock b) = applyBlock E ar params b.1 ws b.2 := by
  have htxs := @perform_transactions E ar params
  simp only [perform] at htxs
  simp [perform, operationsOfBlock, applyBlock, Operation.apply, List.foldlM_map, htxs, processEvidence]

theorem perform_run {bs : List ((Nat → RangeOrder) × Block)} :
    perform E ar params ws (operationsOfRun bs) = applyBlocks E ar params ws bs := by
  induction bs generalizing ws with
  | nil => rfl
  | cons b bs ih =>
    have hblock := @perform_block E ar params ws b
    simp only [perform, operationsOfRun, applyBlocks] at ih hblock ⊢
    simp [hblock, ih]

/-! ## What holds of each operation -/

theorem perform_cons_ok_iff {op : Operation} : perform E ar params ws (op :: ops) = .ok ws' ↔
    ∃ w, op.apply E ar params ws = .ok w ∧ perform E ar params w ops = .ok ws' :=
  Except.foldlM_cons_ok_iff

theorem performed_cons {op : Operation} (h : op.apply E ar params ws = .ok ws') :
    performed E ar params ws (op :: ops) = ⟨ws, op, ws'⟩ :: performed E ar params ws' ops := by
  simp only [performed, h]

/-- What every step of a block keeps, an operation keeps. -/
theorem Keeps.operation {I : WorldState → Prop} (hk : Keeps E ar params fun _ ws => I ws) {op : Operation}
    (hI : I ws) (h : op.apply E ar params ws = .ok ws') : I ws' := by
  cases op with
  | release height => exact @Keeps.release E ar params _ hk [] _ _ _ hI h
  | slash ev => exact @Keeps.slash E ar params _ hk [] _ _ _ hI h
  | transaction ord header i tx => exact @Keeps.tx E ar params _ hk [] _ _ _ _ _ _ hI h
  | reward addr => exact @Keeps.reward E ar params _ hk [] _ _ _ hI h
  | finish ord height =>
    cases h
    exact @Keeps.height E ar params _ hk [] _ _ (@Keeps.epoch E ar params _ hk [] _ _ _ hI)

/-- Each operation performed starts where the invariant holds and succeeds. -/
theorem Keeps.performed {I : WorldState → Prop} (hk : Keeps E ar params fun _ ws => I ws) (hI : I ws)
    {e : Performed} (he : e ∈ Drana.performed E ar params ws ops) :
    I e.before ∧ e.op.apply E ar params e.before = .ok e.after := by
  induction ops generalizing ws with
  | nil => simp [Drana.performed] at he
  | cons op ops ih =>
    cases h : op.apply E ar params ws with
    | error msg => simp [Drana.performed, h] at he
    | ok w =>
      rw [performed_cons h] at he
      rcases List.mem_cons.mp he with rfl | he
      · exact ⟨hI, h⟩
      · exact ih (hk.operation hI h) he

/-- What the operations add up to, where each adds `d` to the quantity `q`. -/
theorem sum_performed {q : WorldState → Int} {d : Performed → Int} (h : perform E ar params ws ops = .ok ws')
    (hstep : ∀ e ∈ performed E ar params ws ops, q e.after = q e.before + d e) :
    q ws' = q ws + ((performed E ar params ws ops).map d).sum := by
  induction ops generalizing ws with
  | nil =>
    cases h
    simp [performed]
  | cons op ops ih =>
    obtain ⟨w, hw, hrest⟩ := perform_cons_ok_iff.mp h
    rw [performed_cons hw] at hstep ⊢
    have hfirst : q w = q ws + d ⟨ws, op, w⟩ := hstep _ List.mem_cons_self
    have hsum := ih hrest fun e he => hstep e (List.mem_cons_of_mem _ he)
    simp only [List.map_cons, List.sum_cons]
    omega

/-! ## Without wrapping sums -/

theorem Operation.apply_extends (hs : ar.Stops ar') {op : Operation} :
    Extends (op.apply E ar params ws) (op.apply E ar' params ws) := by
  cases op with
  | release height => exact .foldlM (fun _ _ => depositAccount_extends hs) _ _
  | slash ev => exact applySlashEvidence_extends hs
  | transaction ord header i tx => exact executeTransaction_extends hs
  | reward addr => exact issueReward_extends hs
  | finish ord height => exact .refl

theorem performed_eq (hs : ar.Stops ar') (h : perform E ar params ws ops = .ok ws') :
    performed E ar' params ws ops = performed E ar params ws ops := by
  induction ops generalizing ws with
  | nil => rfl
  | cons op ops ih =>
    obtain ⟨w, hw, hrest⟩ := perform_cons_ok_iff.mp h
    rw [performed_cons hw, performed_cons (Operation.apply_extends hs w hw), ih hrest]

end Drana
