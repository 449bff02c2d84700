/-
The pool of pending transactions (`internal/mempool/mempool.go`): what it
admits, and what it offers for a block. Admission checks the spendable balance
of every sender, also of one that spends something else.
-/
import Drana.Conservation

namespace Drana

open Except (orThrow throwIf)

structure Mempool where
  txs : GoMap Hash Transaction := ∅
  maxSize : Int64
  stateChecker : Option (Address → Option Account) := none

namespace Mempool

def setStateChecker (m : Mempool) (sc : Address → Option Account) : Mempool := { m with stateChecker := some sc }

/-! ## Admission -/

/-- The sender's balance and nonce, where there is a state to ask. -/
def checkSender (tx : Transaction) : Option (Address → Option Account) → Except String Unit
  | none => return ()
  | some getAccount => do
    let acct ← orThrow (getAccount tx.sender) "sender account does not exist"
    throwIf (tx.amount > 0 ∧ acct.balance < tx.amount) s!"insufficient balance: have {acct.balance}, need {tx.amount}"
    throwIf (tx.nonce ≤ acct.nonce) s!"nonce too low: account nonce is {acct.nonce}, tx nonce is {tx.nonce}"

def has (m : Mempool) (txHash : Hash) : Bool := (m.txs.lookup txHash).isSome

def size (m : Mempool) : Nat := m.txs.keys.card

def add (E : Env) (m : Mempool) (tx : Transaction) : Except String Mempool := do
  throwIf (addressFromPublicKey E tx.pubKey ≠ tx.sender) "pubkey does not match sender"
  throwIf (!verify E tx.pubKey tx.signableBytes tx.signature) "invalid signature"
  checkSender tx m.stateChecker
  throwIf (m.has (tx.hash E) = true) "duplicate transaction"
  throwIf ((m.size : Int) ≥ m.maxSize.toInt) "mempool full"
  return { m with txs := m.txs.insert (tx.hash E) tx }

/-- The sender can have its transaction admitted: an unstake needs the balance
it does not spend, and there must be a next nonce. -/
def Admissible (ws : WorldState) (tx : Transaction) : Prop :=
  ∀ acct, ws.getAccount tx.sender = some acct →
    (SpendsNothing tx → tx.amount ≤ acct.balance) ∧ acct.nonce.toNat + 1 < 2 ^ 64

/-- **What the next block could have is admitted**, into a pool that has room
and does not have it, exactly when the sender's balance covers its amount also
where it spends no balance. -/
theorem add_isOk_iff {E : Env} {m : Mempool} {ws : WorldState} {tx : Transaction} {params : GenesisConfig}
    (hv : validateTransaction E tx ws.reader params = .ok ()) (hroom : (m.size : Int) < m.maxSize.toInt)
    (hnew : m.has (tx.hash E) = false) : ((m.setStateChecker ws.getAccount).add E tx).isOk = true ↔ Admissible ws tx := by
  obtain ⟨acct, hc, hbalance⟩ := validateTransaction_sender hv
  obtain ⟨hkey, hsig, hacct, hnonce⟩ := validateCommonNoBalanceCheck_ok hc
  change ws.getAccount tx.sender = some acct at hacct
  have hok : ((m.setStateChecker ws.getAccount).add E tx).isOk = true ↔
      ∃ u, checkSender tx (some ws.getAccount) = .ok u := by
    have hnew' : (m.setStateChecker ws.getAccount).has (tx.hash E) = false := hnew
    have hroom' : ¬ (((m.setStateChecker ws.getAccount).size : Int) ≥ m.maxSize.toInt) := by
      rw [ge_iff_le, Int.not_le]
      exact hroom
    constructor
    · intro h
      obtain ⟨m', hm⟩ := Except.exists_ok h
      simp only [add, Except.bind_ok_iff] at hm
      obtain ⟨-, -, -, -, u, hu, -⟩ := hm
      exact ⟨u, hu⟩
    · rintro ⟨u, hu⟩
      have hadd : (m.setStateChecker ws.getAccount).add E tx =
          .ok { m.setStateChecker ws.getAccount with txs := m.txs.insert (tx.hash E) tx } := by
        simp only [add, Except.bind_ok_iff, Except.throwIf_ok_iff, Except.pure_ok_iff]
        exact ⟨(), by simp [hkey], (), by simp [hsig], u, hu, (), by simp [hnew'], (), hroom', rfl⟩
      rw [hadd]
      rfl
  have hnext : acct.nonce < tx.nonce ↔ acct.nonce.toNat + 1 < 2 ^ 64 := by
    rw [hnonce, UInt64.lt_iff_toNat_lt, UInt64.toNat_add]
    have hlt := acct.nonce.toNat_lt
    simp only [UInt64.toNat_one]
    omega
  have hspend : ¬ (tx.amount > 0 ∧ acct.balance < tx.amount) ↔ (SpendsNothing tx → tx.amount ≤ acct.balance) := by
    constructor
    · intro h _
      by_contra hlt
      have hlt := UInt64.not_le.mp hlt
      exact h ⟨UInt64.lt_of_le_of_lt (UInt64.zero_le) hlt, hlt⟩
    · rintro h ⟨-, hlt⟩
      refine UInt64.not_le.mpr hlt ?_
      by_cases hs : SpendsNothing tx
      · exact h hs
      · exact hbalance hs
  have hcheck : (∃ u, checkSender tx (some ws.getAccount) = .ok u) ↔
      ¬ (tx.amount > 0 ∧ acct.balance < tx.amount) ∧ acct.nonce < tx.nonce := by
    simp only [checkSender, Except.bind_ok_iff, Except.throwIf_ok_iff, Except.orThrow_ok_iff, UInt64.not_le, hacct]
    constructor
    · rintro ⟨u, acct', hg, -, hpaid, hlt⟩
      cases hg
      exact ⟨hpaid, hlt⟩
    · rintro ⟨hpaid, hlt⟩
      exact ⟨(), acct, rfl, (), hpaid, hlt⟩
  rw [hok, hcheck, hspend, hnext]
  constructor
  · intro h acct' hg
    rw [hacct] at hg
    cases hg
    exact h
  · exact fun h => h acct hacct

section

open Sample

/-- An empty pool. -/
def empty : Mempool := { maxSize := 10 }

/-- A post of the first block. -/
theorem add_isOk_iff_post :
    ((empty.setStateChecker genesis.getAccount).add env (createPost 1 100 1)).isOk = true ↔
      Admissible genesis (createPost 1 100 1) := by
  have hv : (validateTransaction env (createPost 1 100 1) genesis.reader config).isOk = true := by decide +kernel
  obtain ⟨u, hu⟩ := Except.exists_ok hv
  have hroom : (empty.size : Int) < empty.maxSize.toInt := by decide +kernel
  exact add_isOk_iff hu hroom (by decide +kernel)

/-- Key 1 has staked most of what it has. -/
def stakedConfig : GenesisConfig := { config with validators := [⟨address 1, (key 1).publicKey, 600⟩] }

def stakedGenesis : WorldState := (initializeState env stakedConfig).value

/-- It takes all of its stake back. -/
def unstakeAll : Transaction :=
  signed 1 { type := 6, sender := address 1, pubKey := (key 1).publicKey, amount := 600, nonce := 1 }

/-- The validator takes it, the pool does not. -/
theorem unstake_not_added : (initializeState env stakedConfig).isOk = true ∧
    (validateTransaction env unstakeAll stakedGenesis.reader stakedConfig).isOk = true ∧
    (empty.size : Int) < empty.maxSize.toInt ∧ empty.has (unstakeAll.hash env) = false ∧
    ((empty.setStateChecker stakedGenesis.getAccount).add env unstakeAll).isOk = false := by
  decide +kernel

end

/-! ## Reaping -/

/-- The state a block is assembled on: accounts as the transactions taken so
far leave them, over the state they are read from. An account that is only read
is kept as it is read, which no later read can tell. -/
structure SpeculativeState where
  base : StateReader
  accounts : GoMap Address Account := ∅

namespace SpeculativeState

def getAccount (s : SpeculativeState) (addr : Address) : Option Account :=
  match s.accounts.lookup addr with
  | some a => some a
  | none => s.base.getAccount addr

def getAccountByName (ord : MapRange Address Account) (s : SpeculativeState) (name : GoString) : Option Account :=
  match ((ord.list s.accounts).map (·.2)).find? (·.name = name) with
  | some a => some a
  | none => s.base.getAccountByName name

def reader (ord : MapRange Address Account) (s : SpeculativeState) : StateReader where
  getAccount := s.getAccount
  getPost := s.base.getPost
  getAccountByName := s.getAccountByName ord
  getPostStake := s.base.getPostStake

def setAccount (s : SpeculativeState) (addr : Address) (acct : Account) : SpeculativeState :=
  { s with accounts := s.accounts.insert addr acct }

/-- The account of the sender is there: the transaction has been validated. -/
def applyTx (s : SpeculativeState) (tx : Transaction) : SpeculativeState :=
  match s.getAccount tx.sender with
  | none => s
  | some acct =>
    let s := s.setAccount tx.sender { acct with nonce := acct.nonce + 1, balance := acct.balance - tx.amount }
    if tx.kind = some .transfer then
      let recip := (s.getAccount tx.recipient).getD { address := tx.recipient }
      s.setAccount tx.recipient { recip with balance := recip.balance + tx.amount }
    else s

end SpeculativeState

/-- The orders of one call of `ReapForBlock`. -/
structure ReapOrder where
  pending : MapRange Hash Transaction
  senders : MapRange Address (List Transaction)
  names : MapRange Address Account

/-- The pending transactions of each sender. -/
def bySender (pending : List Transaction) : GoMap Address (List Transaction) :=
  pending.foldl (fun m tx => m.insert tx.sender ((m.lookup tx.sender).getD [] ++ [tx])) ∅

/-- One queue for each sender, sorted by nonce. Of two transactions with one
nonce the first in the order of the pool comes first. -/
def senderQueues (o : ReapOrder) (pending : List Transaction) : List (List Transaction) :=
  (o.senders.list (bySender pending)).map fun e => e.2.insertionSort fun a b => a.nonce ≤ b.nonce

/-- What is taken so far, and the state it leaves. -/
structure Reaped where
  spec : SpeculativeState
  result : List Transaction := []

def Reaped.take (r : Reaped) (tx : Transaction) : Reaped := ⟨r.spec.applyTx tx, r.result ++ [tx]⟩

/-- One pass over the queues, up to `maxTx` transactions, and whether it took one. -/
def reapPass (E : Env) (params : GenesisConfig) (ord : MapRange Address Account) (maxTx : Int) :
    Reaped → List (List Transaction) → Reaped × List (List Transaction) × Bool
  | r, [] => (r, [], false)
  | r, [] :: qs =>
    let (r, qs, changed) := reapPass E params ord maxTx r qs
    (r, [] :: qs, changed)
  | r, (tx :: txs) :: qs =>
    if (validateTransaction E tx (r.spec.reader ord) params).isOk then
      if ((r.take tx).result.length : Int) ≥ maxTx then (r.take tx, txs :: qs, true)
      else
        let (r, qs, _) := reapPass E params ord maxTx (r.take tx) qs
        (r, txs :: qs, true)
    else
      let (r, qs, changed) := reapPass E params ord maxTx r qs
      (r, (tx :: txs) :: qs, changed)

/-- Passes until one takes nothing. -/
def reapLoop (E : Env) (params : GenesisConfig) (ord : MapRange Address Account) (maxTx : Int) :
    Nat → Reaped → List (List Transaction) → Reaped
  | 0, r, _ => r
  | fuel + 1, r, qs =>
    if (r.result.length : Int) < maxTx then
      let (r, qs, changed) := reapPass E params ord maxTx r qs
      if changed then reapLoop E params ord maxTx fuel r qs else r
    else r

/-- `ReapForBlock`, and the speculative state it ends with. A pass that goes on
has taken a transaction, so one pass for each and one more are all there are. -/
def reap (E : Env) (o : ReapOrder) (m : Mempool) (sr : StateReader) (params : GenesisConfig) (maxTx : Int64) : Reaped :=
  let pending := (o.pending.list m.txs).map (·.2)
  reapLoop E params o.names maxTx.toInt (pending.length + 1) ⟨{ base := sr }, []⟩ (senderQueues o pending)

def reapForBlock (E : Env) (o : ReapOrder) (m : Mempool) (sr : StateReader) (params : GenesisConfig) (maxTx : Int64) :
    List Transaction := (m.reap E o sr params maxTx).result

end Mempool

end Drana
