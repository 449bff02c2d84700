/-
Runs of `ApplyBlock`: what was applied along the way, and what it takes for a
property to hold all along.
-/
import Drana.Genesis

namespace Drana

variable {E : Env} {ar ar' : Arith} {params : GenesisConfig}

/-! ## What a run applies -/

/-- A transaction a block executed, with the states around it. -/
structure Applied where
  before : WorldState
  tx : Transaction
  after : WorldState

def appliedTransactions (E : Env) (ar : Arith) (params : GenesisConfig) (ord : Nat → RangeOrder)
    (header : BlockHeader) : Nat → WorldState → List Transaction → List Applied
  | _, _, [] => []
  | i, ws, tx :: txs =>
    match executeTransaction E ar params (ord i) header i ws tx with
    | .ok ws' => ⟨ws, tx, ws'⟩ :: appliedTransactions E ar params ord header (i + 1) ws' txs
    | .error _ => []

/-- The state a block's transactions start from. -/
def beforeTransactions (E : Env) (ar : Arith) (params : GenesisConfig) (ws : WorldState) (block : Block) :
    Except String WorldState := do
  let ws ← releaseMatured ar ws block.header.height
  processEvidence E ar params ws block.evidence

def appliedInBlock (E : Env) (ar : Arith) (params : GenesisConfig) (ord : Nat → RangeOrder) (ws : WorldState)
    (block : Block) : List Applied :=
  match beforeTransactions E ar params ws block with
  | .ok ws => appliedTransactions E ar params ord block.header 0 ws block.transactions
  | .error _ => []

def appliedInRun (E : Env) (ar : Arith) (params : GenesisConfig) :
    WorldState → List ((Nat → RangeOrder) × Block) → List Applied
  | _, [] => []
  | ws, b :: bs =>
    match applyBlock E ar params b.1 ws b.2 with
    | .ok ws' => appliedInBlock E ar params b.1 ws b.2 ++ appliedInRun E ar params ws' bs
    | .error _ => []

theorem applyBlock_eq {ord : Nat → RangeOrder} {ws : WorldState} {block : Block} :
    applyBlock E ar params ord ws block = (do
      let ws ← beforeTransactions E ar params ws block
      let ws ← executeTransactions E ar params ord block.header 0 ws block.transactions
      let ws ← issueReward ar params ws block.header.proposerAddr
      let ws := epochTransition params (ord block.transactions.length) ws block.header.height
      return { ws with chainHeight := block.header.height }) := by
  simp only [applyBlock, beforeTransactions, bind_assoc]

theorem applyBlocks_cons_ok_iff {ws ws' : WorldState} {b : (Nat → RangeOrder) × Block}
    {bs : List ((Nat → RangeOrder) × Block)} :
    applyBlocks E ar params ws (b :: bs) = .ok ws' ↔
      ∃ w, applyBlock E ar params b.1 ws b.2 = .ok w ∧ applyBlocks E ar params w bs = .ok ws' :=
  Except.foldlM_cons_ok_iff

theorem applyBlocks_append_ok_iff {ws ws' : WorldState} {b : (Nat → RangeOrder) × Block}
    {bs : List ((Nat → RangeOrder) × Block)} :
    applyBlocks E ar params ws (bs ++ [b]) = .ok ws' ↔
      ∃ w, applyBlocks E ar params ws bs = .ok w ∧ applyBlock E ar params b.1 w b.2 = .ok ws' := by
  simp [applyBlocks]

theorem applyBlock_height {ord : Nat → RangeOrder} {ws ws' : WorldState} {block : Block}
    (h : applyBlock E ar params ord ws block = .ok ws') : ws'.chainHeight = block.header.height := by
  simp only [applyBlock, Except.bind_ok_iff, Except.pure_ok_iff] at h
  obtain ⟨-, -, -, -, -, -, -, -, rfl⟩ := h
  rfl

/-! ## What a run keeps -/

/-- `P`, of what was applied so far and the state reached, is kept by each
step of a block. -/
structure Keeps (E : Env) (ar : Arith) (params : GenesisConfig) (P : List Applied → WorldState → Prop) :
    Prop where
  release : ∀ {log ws h ws'}, P log ws → releaseMatured ar ws h = .ok ws' → P log ws'
  slash : ∀ {log ws ev ws'}, P log ws → applySlashEvidence E ar params ws ev = .ok ws' → P log ws'
  tx : ∀ {log ws tx ws' ord header i}, P log ws →
    executeTransaction E ar params ord header i ws tx = .ok ws' → P (log ++ [⟨ws, tx, ws'⟩]) ws'
  reward : ∀ {log ws addr ws'}, P log ws → issueReward ar params ws addr = .ok ws' → P log ws'
  epoch : ∀ {log ws ord h}, P log ws → P log (epochTransition params ord ws h)
  height : ∀ {log ws h}, P log ws → P log { ws with chainHeight := h }

namespace Keeps

variable {P : List Applied → WorldState → Prop} {log : List Applied} {ws ws' : WorldState}

theorem transactions (hk : Keeps E ar params P) {ord : Nat → RangeOrder} {header : BlockHeader}
    {txs : List Transaction} {i : Nat} (hP : P log ws)
    (h : executeTransactions E ar params ord header i ws txs = .ok ws') :
    P (log ++ appliedTransactions E ar params ord header i ws txs) ws' := by
  induction txs generalizing i ws log with
  | nil =>
    simp only [executeTransactions, Except.pure_ok_iff] at h
    subst h
    simpa [appliedTransactions] using hP
  | cons tx txs ih =>
    simp only [executeTransactions, Except.bind_ok_iff] at h
    obtain ⟨w, hw, hrest⟩ := h
    have := ih (hk.tx hP hw) hrest
    simpa [appliedTransactions, hw] using this

theorem before (hk : Keeps E ar params P) {block : Block} (hP : P log ws)
    (h : beforeTransactions E ar params ws block = .ok ws') : P log ws' := by
  simp only [beforeTransactions, Except.bind_ok_iff] at h
  obtain ⟨w, hw, he⟩ := h
  exact Except.foldlM_inv (P log) (fun _ _ _ _ hb hs => hk.slash hb hs) (hk.release hP hw) he

theorem block (hk : Keeps E ar params P) {ord : Nat → RangeOrder} {block : Block} (hP : P log ws)
    (h : applyBlock E ar params ord ws block = .ok ws') :
    P (log ++ appliedInBlock E ar params ord ws block) ws' := by
  rw [applyBlock_eq] at h
  simp only [Except.bind_ok_iff, Except.pure_ok_iff] at h
  obtain ⟨w₁, h₁, w₂, h₂, w₃, h₃, rfl⟩ := h
  have h₄ := hk.reward (hk.transactions (hk.before hP h₁) h₂) h₃
  simp only [appliedInBlock, h₁]
  exact hk.height (hk.epoch h₄)

theorem run (hk : Keeps E ar params P) {bs : List ((Nat → RangeOrder) × Block)} (hP : P log ws)
    (h : applyBlocks E ar params ws bs = .ok ws') : P (log ++ appliedInRun E ar params ws bs) ws' := by
  induction bs generalizing ws log with
  | nil =>
    simp only [applyBlocks, Except.foldlM_nil_ok_iff] at h
    subst h
    simpa [appliedInRun] using hP
  | cons b bs ih =>
    obtain ⟨w, hw, hrest⟩ := applyBlocks_cons_ok_iff.mp h
    have := ih (hk.block hP hw) hrest
    simpa [appliedInRun, hw] using this

/-- A run from its start. -/
theorem fromStart (hk : Keeps E ar params P) {bs : List ((Nat → RangeOrder) × Block)} (hP : P [] ws)
    (h : applyBlocks E ar params ws bs = .ok ws') : P (appliedInRun E ar params ws bs) ws' :=
  hk.run hP h

end Keeps

theorem Keeps.invariant_block {I : WorldState → Prop} (hk : Keeps E ar params fun _ ws => I ws)
    {ord : Nat → RangeOrder} {block : Block} {ws ws' : WorldState} (hI : I ws)
    (h : applyBlock E ar params ord ws block = .ok ws') : I ws' :=
  @Keeps.block E ar params (fun _ ws => I ws) [] ws ws' hk ord block hI h

/-- The same for a property of the state alone. -/
theorem Keeps.invariant {I : WorldState → Prop} (hk : Keeps E ar params fun _ ws => I ws) {ws ws' : WorldState}
    {bs : List ((Nat → RangeOrder) × Block)} (hI : I ws) (h : applyBlocks E ar params ws bs = .ok ws') :
    I ws' :=
  hk.fromStart hI h

/-! ## Conditions on a run -/

/-- Each block, from the state before it, is as `P` says. -/
def Throughout (E : Env) (ar : Arith) (params : GenesisConfig) (P : WorldState → (Nat → RangeOrder) × Block → Prop) :
    WorldState → List ((Nat → RangeOrder) × Block) → Prop
  | _, [] => True
  | ws, b :: bs =>
    P ws b ∧
    match applyBlock E ar params b.1 ws b.2 with
    | .ok ws' => Throughout E ar params P ws' bs
    | .error _ => True

/-- The blocks of a run are at heights one, two, and so on. -/
def Consecutive (bs : List ((Nat → RangeOrder) × Block)) : Prop :=
  ∀ i b, bs[i]? = some b → b.2.header.height.toNat = i + 1

theorem Consecutive.init {bs : List ((Nat → RangeOrder) × Block)} {b : (Nat → RangeOrder) × Block}
    (h : Consecutive (bs ++ [b])) : Consecutive bs :=
  fun i b' hi => h i b' (by rw [List.getElem?_append_left (List.getElem?_eq_some_iff.mp hi).1, hi])

theorem Consecutive.last {bs : List ((Nat → RangeOrder) × Block)} {b : (Nat → RangeOrder) × Block}
    (h : Consecutive (bs ++ [b])) : b.2.header.height.toNat = bs.length + 1 := h _ b (by simp)

/-- From a state at height zero, the height counts the blocks. -/
theorem applyBlocks_height {ws₀ ws : WorldState} {bs : List ((Nat → RangeOrder) × Block)} (h₀ : ws₀.chainHeight = 0)
    (hc : Consecutive bs) (h : applyBlocks E ar params ws₀ bs = .ok ws) : ws.chainHeight.toNat = bs.length := by
  rcases List.eq_nil_or_concat' bs with rfl | ⟨bs, b, rfl⟩
  · cases h
    rw [h₀]
    rfl
  · obtain ⟨w, -, hb⟩ := applyBlocks_append_ok_iff.mp h
    rw [applyBlock_height hb, hc.last]
    simp

/-! ## A chain to compute with -/

namespace Sample

/-- Keys hash to themselves, a signature names the key and the message's hash. -/
def env : Env where
  sha256 b := ByteArr.copyFrom (b.drop (b.length - 32))
  ed25519Sign k m := ByteArr.copyFrom (k.publicKey.toList ++ m.drop (m.length - 32))
  ed25519Verify k m sig := sig == (ByteArr.copyFrom (k.toList ++ m.drop (m.length - 32)) : ByteArr 64).toList
  isNormalString _ := true

def key (n : UInt8) : PrivateKey := Vector.replicate 64 n

def address (n : UInt8) : Address := addressFromPublicKey env (key n).publicKey

def bob : GoString := ⟨[98, 111, 98], by decide⟩

/-- Ascending order of keys that are bytes. -/
def byBytes {n : Nat} {V : Type} : MapRange (ByteArr n) V := .ascending (·.toList) fun _ _ => ByteArr.toList_inj

/-- Maps ranged over in ascending order of their keys. -/
def order : RangeOrder where
  accounts := byBytes
  posts := byBytes
  postStakes := .ascending (fun k => (k.1.toList ++ k.2.toList)) fun k k' h => by
    have h := List.append_inj h (by simp)
    exact Prod.ext (ByteArr.toList_inj h.1) (ByteArr.toList_inj h.2)

/-- A transaction of key `n`, signed. -/
def signed (n : UInt8) (tx : Transaction) : Transaction :=
  { tx with signature := sign env (key n) tx.signableBytes }

def createPost (n : UInt8) (amount nonce : UInt64) : Transaction :=
  signed n { type := 2, sender := address n, pubKey := (key n).publicKey, text := ⟨[104, 105], by decide⟩, amount, nonce }

def boostPost (n : UInt8) (postID : PostID) (amount nonce : UInt64) : Transaction :=
  signed n { type := 3, sender := address n, pubKey := (key n).publicKey, postID, amount, nonce }

def unstakePost (n : UInt8) (postID : PostID) (nonce : UInt64) : Transaction :=
  signed n { type := 7, sender := address n, pubKey := (key n).publicKey, postID, nonce }

/-- Three accounts with a thousand each; key 1 validates. -/
def config : GenesisConfig where
  accounts := [⟨address 1, 1000⟩, ⟨address 2, 1000⟩, ⟨address 3, 1000⟩]
  validators := [⟨address 1, (key 1).publicKey, 100⟩]
  maxPostLength := 280
  maxPostBytes := 1024
  maxTxPerBlock := 10
  blockReward := 5
  slashFractionDoubleSign := 5
  postFeePercent := 6
  boostBurnPercent := 3
  boostAuthorPercent := 2
  boostStakerPercent := 1

/-- A block proposed by key 1. -/
def block (height : UInt64) (transactions : List Transaction) : (Nat → RangeOrder) × Block :=
  (fun _ => order, { header := ⟨height, .zero, address 1, 0, .zero, .zero⟩, transactions })

def genesis : WorldState := (initializeState env config).value

theorem genesis_ok : initializeState env config = .ok genesis := Except.ok_value (by decide +kernel)

/-- The post key 1 creates with its first transaction. -/
def firstPost : PostID := derivePostID env (address 1) 1

end Sample

end Drana
