/-
What a malformed message does to a node. Each function between the network and
the state is run here for its panics: the pointers it follows, the slices it
indexes, the numbers it divides by. Only pointers to submessages fail: none of
the conversions looks before it follows one.

In a decoded message a submessage may be missing; an element of a list is
there. Bytes are of any length.
-/
import Drana.Lib.Panic
import Drana.Sync
import Drana.Mempool

namespace Drana

open Except (orThrow)

/-! ## Messages -/

namespace Pb

structure BlockProposal where
  block : Option Block

structure TxSubmission where
  tx : Option Transaction

structure TxSubmissionResponse where
  accepted : Bool
  error : String := ""

end Pb

namespace Checked

/-! ## Arithmetic -/

def mulDiv (a b c : UInt64) : Go UInt64 :=
  match mulDiv? a b c with
  | some q => pure q
  | none => Go.panic .divideByZero

/-- `a % b`, where a slice's length is `b` too. -/
def mod (a : UInt64) (b : Nat) : Go Nat := if b = 0 then Go.panic .divideByZero else pure (a.toNat % b)

theorem mulDiv_returns {a b c : UInt64} (hc : 0 < c.toNat) : (mulDiv a b c).Returns := by
  obtain ⟨q, hq, -⟩ := mulDiv?_eq (a := a) (b := b) hc
  rw [mulDiv, hq]
  exact Go.pure_returns

theorem mod_eq {a : UInt64} {b : Nat} (hb : b ≠ 0) : mod a b = pure (a.toNat % b) := if_neg hb

/-! ## Validation -/

/-- `name[0]` and `name[len(name)-1]`, which a name that is too short does not get to. -/
def validateName (name : GoString) : Go Unit :=
  if minNameLength ≤ name.length then do
    let _ ← Go.index name.bytes 0
    let _ ← Go.index name.bytes (name.length - 1)
  else return ()

def validateTransaction (tx : Transaction) : Go Unit :=
  match tx.kind with
  | some .createPost => if tx.channel ≠ .empty then validateName tx.channel else return ()
  | some .registerName => validateName tx.text
  | _ => return ()

theorem validateName_returns (name : GoString) : (validateName name).Returns := by
  unfold validateName
  split
  · next hlen =>
    have hlen : 3 ≤ name.bytes.length := hlen
    exact (Go.index_returns (by omega)).bind fun _ =>
      (Go.index_returns (show name.bytes.length - 1 < _ by omega)).bind fun _ => Go.pure_returns
  · exact Go.pure_returns

theorem validateTransaction_returns (tx : Transaction) : (validateTransaction tx).Returns := by
  unfold validateTransaction
  split
  · split
    · exact validateName_returns _
    · exact Go.pure_returns
  · exact validateName_returns _
  · exact Go.pure_returns

/-! ## Execution -/

variable {E : Env} {params : GenesisConfig} {ws : WorldState} {e : Engine}

/-- The shares of the stakers of a post. -/
def payStakers (ord : RangeOrder) (ws : WorldState) (post : Post) (postID : PostID) (reward : UInt64) : Go Unit :=
  if reward > 0 ∧ post.totalStaked > 0 then
    (ws.getPostStakers ord postID).forM fun s => do
      let _ ← mulDiv reward s.amount post.totalStaked
  else return ()

/-- The divisions of `ApplyTransaction`. -/
def applyTransaction (params : GenesisConfig) (ord : RangeOrder) (ws : WorldState) (tx : Transaction) : Go Unit :=
  match tx.kind with
  | some .createPost => do
    let feePercent := if params.postFeePercent = 0 then 6 else params.postFeePercent
    let _ ← mulDiv tx.amount feePercent 100
  | some .boostPost => do
    let (burnPct, authorPct, stakerPct) := boostPercents params
    let _ ← mulDiv tx.amount burnPct 100
    let _ ← mulDiv tx.amount authorPct 100
    let stakerReward ← mulDiv tx.amount stakerPct 100
    match ws.getPost tx.postID with
    | some post => payStakers ord ws post tx.postID stakerReward
    | none => return ()
  | _ => return ()

def executeTransactions (E : Env) (params : GenesisConfig) (ord : Nat → RangeOrder) (header : BlockHeader) :
    Nat → WorldState → List Transaction → Go WorldState
  | _, ws, [] => return ws
  | i, ws, tx :: txs => do
    (validateTransaction tx).tries
    (applyTransaction params (ord i) ws tx).tries
    let ws ← Go.returned (executeTransaction E .go params (ord i) header i ws tx)
    executeTransactions E params ord header (i + 1) ws txs

def applySlashEvidence (E : Env) (params : GenesisConfig) (ws : WorldState) (ev : SlashEvidence) : Go WorldState := do
  match ws.getAccount ev.voteA.voterAddr with
  | some acct =>
    let unbonding ← Go.returned (ws.unbondingBalanceFor .go ev.voteA.voterAddr)
    let _ ← mulDiv (acct.stakedBalance + unbonding) params.slashFractionDoubleSign 100
  | none => pure ()
  Go.returned (Drana.applySlashEvidence E .go params ws ev)

def epochTransition (params : GenesisConfig) (ord : RangeOrder) (ws : WorldState) (height : UInt64) : Go WorldState :=
  if params.epochLength > 0 ∧ height > 0 then do
    let _ ← mod height params.epochLength.toNat
    return Drana.epochTransition params ord ws height
  else return Drana.epochTransition params ord ws height

def applyBlock (E : Env) (params : GenesisConfig) (ord : Nat → RangeOrder) (ws : WorldState) (block : Block) :
    Go WorldState := do
  let ws ← Go.returned (releaseMatured .go ws block.header.height)
  let ws ← block.evidence.foldlM (applySlashEvidence E params) ws
  let ws ← executeTransactions E params ord block.header 0 ws block.transactions
  let ws ← Go.returned (issueReward .go params ws block.header.proposerAddr)
  let ws ← epochTransition params (ord block.transactions.length) ws block.header.height
  return { ws with chainHeight := block.header.height }

theorem payStakers_returns {ord : RangeOrder} {post : Post} {p : PostID} {reward : UInt64} :
    (payStakers ord ws post p reward).Returns := by
  unfold payStakers
  split
  · next hpos =>
    generalize ws.getPostStakers ord p = stakers
    induction stakers with
    | nil => exact Go.pure_returns
    | cons s stakers ih =>
      have hshare := mulDiv_returns (a := reward) (b := s.amount) (UInt64.lt_iff_toNat_lt.mp hpos.2)
      exact (hshare.bind fun _ => Go.pure_returns).bind fun _ => ih
  · exact Go.pure_returns

theorem applyTransaction_returns {ord : RangeOrder} {tx : Transaction} : (applyTransaction params ord ws tx).Returns := by
  have hpercent : ∀ {a b : UInt64}, (mulDiv a b 100).Returns := mulDiv_returns (by decide)
  unfold applyTransaction
  split
  · exact hpercent.bind fun _ => Go.pure_returns
  · refine hpercent.bind fun _ => hpercent.bind fun _ => hpercent.bind fun _ => ?_
    split
    · exact payStakers_returns
    · exact Go.pure_returns
  · exact Go.pure_returns

theorem executeTransactions_eq {ord : Nat → RangeOrder} {header : BlockHeader} {txs : List Transaction} {i : Nat} :
    executeTransactions E params ord header i ws txs =
      Go.returned (Drana.executeTransactions E .go params ord header i ws txs) := by
  induction txs generalizing i ws with
  | nil => rfl
  | cons tx txs ih =>
    rw [executeTransactions, Go.tries_bind (validateTransaction_returns tx), Go.tries_bind applyTransaction_returns]
    simp only [ih, Go.returned_bind]
    rfl

theorem applySlashEvidence_eq {ev : SlashEvidence} :
    applySlashEvidence E params ws ev = Go.returned (Drana.applySlashEvidence E .go params ws ev) := by
  unfold applySlashEvidence
  split
  · next acct _ =>
    obtain ⟨unbonding, hu⟩ : ∃ n, ws.unbondingBalanceFor .go ev.voteA.voterAddr = .ok n :=
      Except.foldlM_total (fun total entry => by split <;> exact ⟨_, rfl⟩) _ _
    obtain ⟨q, hq, -⟩ := mulDiv?_eq (a := acct.stakedBalance + unbonding) (b := params.slashFractionDoubleSign)
      (c := 100) (by decide)
    rw [hu, Go.ok_bind, mulDiv, hq]
    rfl
  · rfl

theorem epochTransition_eq {ord : RangeOrder} {height : UInt64} :
    epochTransition params ord ws height = pure (Drana.epochTransition params ord ws height) := by
  unfold epochTransition
  split
  · next hpos =>
    have hlength := UInt64.lt_iff_toNat_lt.mp hpos.1
    rw [mod_eq (Nat.ne_of_gt hlength), pure_bind]
  · rfl

/-- Executing a block does not panic. -/
theorem applyBlock_eq {ord : Nat → RangeOrder} {block : Block} :
    applyBlock E params ord ws block = Go.returned (Drana.applyBlock E .go params ord ws block) := by
  have hevidence : ∀ (evs : List SlashEvidence) (ws : WorldState),
      evs.foldlM (applySlashEvidence E params) ws = Go.returned (processEvidence E .go params ws evs) := by
    intro evs
    induction evs with
    | nil => exact fun ws => rfl
    | cons ev evs ih =>
      intro ws
      rw [List.foldlM_cons, applySlashEvidence_eq]
      simp only [ih, Go.returned_bind]
      rfl
  simp only [applyBlock, hevidence, executeTransactions_eq, epochTransition_eq, Go.pure_eq, Go.returned_bind]
  rfl

theorem applyBlock_returns {ord : Nat → RangeOrder} {block : Block} : (applyBlock E params ord ws block).Returns :=
  ⟨_, applyBlock_eq⟩

/-! ## Consensus -/

def proposerForHeight (validators : List ValidatorStake) (height : UInt64) : Go ValidatorStake :=
  if validators.length = 0 then return ⟨.zero, .zero, 0⟩
  else
    let total := totalStake validators
    if total = 0 then do
      let i ← mod height validators.length
      Go.index validators i
    else do
      let slot ← mod height total.toNat
      match proposerOfSlot (UInt64.ofNat slot) 0 validators with
      | some v => return v
      | none => Go.index validators (validators.length - 1)

def quorumThreshold (validators : List ValidatorStake) : Go UInt64 := do
  let q ← mulDiv (totalStake validators) 2 3
  return q + 1

/-- `ValidateProposedBlock`: its proposer and its trial execution. -/
def validateBlock (E : Env) (o : Orders) (e : Engine) (block : Block) : Go Unit := do
  (proposerForHeight e.activeValidators block.header.height).tries
  (applyBlock E e.params o.block e.state block).tries

theorem proposerForHeight_returns (validators : List ValidatorStake) (height : UInt64) :
    (proposerForHeight validators height).Returns := by
  unfold proposerForHeight
  split
  · exact Go.pure_returns
  · next hlen =>
    have hlast : validators.length - 1 < validators.length := by omega
    dsimp only
    split
    · rw [mod_eq hlen, pure_bind]
      exact Go.index_returns (Nat.mod_lt _ (by omega))
    · next htotal =>
      rw [mod_eq fun hzero => htotal (UInt64.toNat_inj.mp hzero), pure_bind]
      split
      · exact Go.pure_returns
      · exact Go.index_returns hlast

theorem quorumThreshold_returns (validators : List ValidatorStake) : (quorumThreshold validators).Returns :=
  (mulDiv_returns (by decide)).bind fun _ => Go.pure_returns

theorem validateBlock_eq {o : Orders} {block : Block} : validateBlock E o e block = pure () := by
  rw [validateBlock, Go.tries_bind (proposerForHeight_returns _ _)]
  obtain ⟨r, hr⟩ := @applyBlock_returns E e.params e.state o.block block
  rw [hr]
  rfl

/-! ## Conversions -/

def blockFromProto (pb : Pb.Block) : Go PbBlock := do
  let header ← Go.deref pb.header
  return ⟨P2p.headerFromProto header, pb.transactions.map P2p.txFromProto, pb.qc.map P2p.qcFromProto⟩

/-- A block is there, and its header in it. -/
def HasHeader (pb : Option Pb.Block) : Prop := ∃ b ∈ pb, ∃ header, b.header = some header

/-- Following the two pointers takes both, and then gives what the engine reads. -/
theorem deref_block {α : Type} {pb : Option Pb.Block} {f : PbBlock → Go α} :
    (¬ HasHeader pb ∧ (Go.deref pb >>= fun b => blockFromProto b >>= f) = Go.panic .nilDereference) ∨
    HasHeader pb ∧ ∃ m, (do let b ← orThrow pb "nil pointer dereference"; P2p.read b) = .ok m ∧
      (Go.deref pb >>= fun b => blockFromProto b >>= f) = f m := by
  cases pb with
  | none => exact .inl ⟨fun ⟨b, hb, _⟩ => (nomatch hb), rfl⟩
  | some b =>
    cases hheader : b.header with
    | none =>
      refine .inl ⟨fun ⟨b', hb, header, hh⟩ => ?_, ?_⟩
      · cases hb
        rw [hheader] at hh
        cases hh
      · rw [Go.deref, pure_bind, blockFromProto, hheader]
        rfl
    | some header =>
      refine .inr ⟨⟨b, rfl, header, hheader⟩, ⟨P2p.headerFromProto header, b.transactions.map P2p.txFromProto,
        b.qc.map P2p.qcFromProto⟩, ?_, ?_⟩
      · simp only [orThrow, Except.ok_bind, P2p.read, hheader]
        rfl
      · rw [Go.deref, pure_bind, blockFromProto, hheader]
        rfl

/-! ## Handlers -/

def onProposal (E : Env) (o : Orders) (e : Engine) (now : Int64) (proposal : Pb.BlockProposal) : Go Pb.BlockVote := do
  let pb ← Go.deref proposal.block
  let block ← blockFromProto pb
  validateBlock E o e (Drana.blockFromProto block)
  let vote ← Go.returned (e.onProposal E o now block)
  return P2p.voteToProto vote

def onFinalizedBlock (E : Env) (o : Orders) (ord : Nat → RangeOrder) (e : Engine) (now : Int64)
    (fb : Pb.FinalizedBlock) : Go Engine := do
  let pb ← Go.deref fb.block
  let block ← blockFromProto pb
  let qc ← Go.deref fb.qc
  (quorumThreshold e.activeValidators).tries
  validateBlock E o e (Drana.blockFromProto block)
  (applyBlock E e.params ord e.state (Drana.blockFromProto block)).tries
  Go.returned (e.onFinalizedBlock E o ord now ⟨block, some (P2p.qcFromProto qc)⟩)

def onSubmitTx (E : Env) (m : Mempool) (sub : Pb.TxSubmission) : Go (Mempool × Pb.TxSubmissionResponse) := do
  let tx ← Go.deref sub.tx
  match m.add E (P2p.txFromProto tx) with
  | .ok m => return (m, { accepted := true })
  | .error err => return (m, { accepted := false, error := err })

/-- The certificate of a synced block, if there is one. -/
def checkSyncedQC (e : Engine) (fb : Pb.FinalizedBlock) : Go Unit :=
  match fb.qc with
  | some _ => (quorumThreshold e.activeValidators).tries
  | none => return ()

/-- One iteration of `SyncToNetwork` over the blocks of a reply, up to the commit. -/
def acceptSynced (E : Env) (met : Circumstances) (e : Engine) (fb : Pb.FinalizedBlock) : Go (Block × WorldState) := do
  let pb ← Go.deref fb.block
  let block ← blockFromProto pb
  checkSyncedQC e fb
  validateBlock E met.o e (Drana.blockFromProto block)
  (applyBlock E e.params met.ord e.state (Drana.blockFromProto block)).tries
  Go.returned (e.acceptSynced E met.o met.ord met.now ⟨block, fb.qc.map P2p.qcFromProto⟩)

theorem onProposal_returns_iff {o : Orders} {now : Int64} {proposal : Pb.BlockProposal} :
    (onProposal E o e now proposal).Returns ↔ HasHeader proposal.block := by
  unfold onProposal
  rcases @deref_block _ proposal.block _ with ⟨hnone, heq⟩ | ⟨hhas, m, -, heq⟩
  · rw [heq]
    exact iff_of_false Go.not_panic_returns hnone
  · rw [heq, validateBlock_eq, pure_bind]
    exact iff_of_true (Go.returned_returns.bind fun _ => Go.pure_returns) hhas

theorem onFinalizedBlock_returns_iff {o : Orders} {ord : Nat → RangeOrder} {now : Int64} {fb : Pb.FinalizedBlock} :
    (onFinalizedBlock E o ord e now fb).Returns ↔ HasHeader fb.block ∧ fb.qc.isSome = true := by
  unfold onFinalizedBlock
  rcases @deref_block _ fb.block _ with ⟨hnone, heq⟩ | ⟨hhas, m, -, heq⟩
  · rw [heq]
    exact iff_of_false Go.not_panic_returns fun h => hnone h.1
  · rw [heq]
    cases fb.qc with
    | none => exact iff_of_false Go.not_panic_returns fun h => nomatch h.2
    | some qc =>
      rw [Go.deref, pure_bind, Go.tries_bind (quorumThreshold_returns _), validateBlock_eq, pure_bind,
        Go.tries_bind applyBlock_returns]
      exact iff_of_true Go.returned_returns ⟨hhas, rfl⟩

theorem onSubmitTx_returns_iff {m : Mempool} {sub : Pb.TxSubmission} :
    (onSubmitTx E m sub).Returns ↔ sub.tx.isSome = true := by
  unfold onSubmitTx
  cases sub.tx with
  | none => exact iff_of_false Go.not_panic_returns fun h => nomatch h
  | some tx =>
    rw [Go.deref, pure_bind]
    refine iff_of_true ?_ rfl
    split <;> exact Go.pure_returns

theorem checkSyncedQC_eq {fb : Pb.FinalizedBlock} : checkSyncedQC e fb = pure () := by
  obtain ⟨r, hr⟩ := quorumThreshold_returns e.activeValidators
  rw [checkSyncedQC, hr]
  split <;> rfl

/-- A block with its header is accepted or rejected as the engine does it. -/
theorem acceptSynced_cases {met : Circumstances} {fb : Pb.FinalizedBlock} :
    (¬ HasHeader fb.block ∧ acceptSynced E met e fb = Go.panic .nilDereference) ∨
    HasHeader fb.block ∧ acceptSynced E met e fb =
      Go.returned (do let m ← P2p.readFinalized fb; e.acceptSynced E met.o met.ord met.now m) := by
  unfold acceptSynced
  rcases @deref_block _ fb.block _ with ⟨hnone, heq⟩ | ⟨hhas, m, hread, heq⟩
  · rw [heq]
    exact .inl ⟨hnone, rfl⟩
  · rw [heq, checkSyncedQC_eq, pure_bind, validateBlock_eq, pure_bind, Go.tries_bind applyBlock_returns]
    refine .inr ⟨hhas, congrArg Go.returned ?_⟩
    simp only [Except.bind_ok_iff] at hread
    obtain ⟨b, hb, hm⟩ := hread
    simp only [P2p.readFinalized, hb, hm, Except.ok_bind]
    rfl

/-! ## Syncing -/

/-- The blocks of a reply, one after the other, until one fails. -/
def syncBlocks (E : Env) : (Nat → Circumstances) → Engine → List Pb.FinalizedBlock →
    Except Panic (Engine × List Block × Option String)
  | _, e, [] => return (e, [], none)
  | met, e, fb :: fbs => do
    match ← (acceptSynced E (met 0) e fb).run with
    | .error err => return (e, [], some err)
    | .ok c =>
      let r ← syncBlocks E (fun i => met (i + 1)) (e.commitBlock c.1 c.2) fbs
      return (r.1, c.1 :: r.2.1, r.2.2)

/-- Each block of a reply that the node comes to has its header: those after a
rejected block it does not come to. -/
def HasHeaders (E : Env) : (Nat → Circumstances) → Engine → List Pb.FinalizedBlock → Prop
  | _, _, [] => True
  | met, e, fb :: fbs => HasHeader fb.block ∧
    ∀ c, (do let m ← P2p.readFinalized fb; e.acceptSynced E (met 0).o (met 0).ord (met 0).now m) = .ok c →
      HasHeaders E (fun i => met (i + 1)) (e.commitBlock c.1 c.2) fbs

/-- A reply is processed without a panic exactly when its blocks have headers,
and then as the engine processes it. -/
theorem syncBlocks_returns {met : Nat → Circumstances} {fbs : List Pb.FinalizedBlock} :
    (HasHeaders E met e fbs → syncBlocks E met e fbs = .ok (e.syncBlocks E met fbs)) ∧
    (¬ HasHeaders E met e fbs → syncBlocks E met e fbs = .error .nilDereference) := by
  induction fbs generalizing met e with
  | nil => exact ⟨fun _ => rfl, fun h => absurd trivial h⟩
  | cons fb fbs ih =>
    rcases @acceptSynced_cases E e (met 0) fb with ⟨hnone, heq⟩ | ⟨hhas, heq⟩
    · refine ⟨fun h => absurd h.1 hnone, fun _ => ?_⟩
      rw [syncBlocks, heq]
      rfl
    · rw [syncBlocks, Engine.syncBlocks, heq]
      cases haccept : (do let m ← P2p.readFinalized fb; e.acceptSynced E (met 0).o (met 0).ord (met 0).now m) with
      | error err =>
        refine ⟨fun _ => rfl, fun h => absurd ⟨hhas, fun c hc => ?_⟩ h⟩
        rw [haccept] at hc
        cases hc
      | ok c =>
        obtain ⟨ihok, iherr⟩ := @ih (e.commitBlock c.1 c.2) fun i => met (i + 1)
        have hiff : HasHeaders E met e (fb :: fbs) ↔ HasHeaders E (fun i => met (i + 1)) (e.commitBlock c.1 c.2) fbs := by
          refine ⟨fun h => h.2 c haccept, fun h => ⟨hhas, fun c' hc => ?_⟩⟩
          rw [haccept] at hc
          cases hc
          exact h
        rw [hiff]
        refine ⟨fun h => ?_, fun h => ?_⟩
        · change (do let r ← syncBlocks E (fun i => met (i + 1)) (e.commitBlock c.1 c.2) fbs; _) = _
          rw [ihok h]
          rfl
        · change (do let r ← syncBlocks E (fun i => met (i + 1)) (e.commitBlock c.1 c.2) fbs; _) = _
          rw [iherr h]
          rfl

/-- The loop of `SyncToNetwork` from its request number `k` on. -/
def syncLoop (E : Env) (peer : SyncPeer) (bestHeight : UInt64) (met : Nat → Nat → Circumstances) :
    Nat → Nat → Engine → Except Panic SyncRun
  | 0, _, e => return ⟨e, [], if e.currentHeight < bestHeight then .unfinished else .complete⟩
  | fuel + 1, k, e =>
    if e.currentHeight < bestHeight then
      match peer.syncBlocks k (e.currentHeight + 1) bestHeight with
      | .error err => return ⟨e, [⟨[], [], some err⟩], .failed ("sync blocks: " ++ err)⟩
      | .ok [] => return ⟨e, [⟨[], [], none⟩], .complete⟩
      | .ok (fb :: fbs) => do
        let r ← syncBlocks E (met k) e (fb :: fbs)
        match r.2.2 with
        | some err => return ⟨r.1, [⟨fb :: fbs, r.2.1, some err⟩], .failed err⟩
        | none =>
          let rest ← syncLoop E peer bestHeight met fuel (k + 1) r.1
          return { rest with replies := ⟨fb :: fbs, r.2.1, none⟩ :: rest.replies }
    else return ⟨e, [], .complete⟩

def syncToNetwork (E : Env) (peers : List SyncPeer) (met : Nat → Nat → Circumstances) (e : Engine) :
    Except Panic SyncRun :=
  match bestPeer peers with
  | none => return ⟨e, [], .complete⟩
  | some (peer, bestHeight) =>
    if bestHeight ≤ e.currentHeight then return ⟨e, [], .complete⟩
    else syncLoop E peer bestHeight met (bestHeight.toNat - e.currentHeight.toNat) 0 e

/-- Each reply that the loop gets to has headers. -/
def RepliesHaveHeaders (E : Env) (peer : SyncPeer) (bestHeight : UInt64) (met : Nat → Nat → Circumstances) :
    Nat → Nat → Engine → Prop
  | 0, _, _ => True
  | fuel + 1, k, e => e.currentHeight < bestHeight → ∀ fbs, peer.syncBlocks k (e.currentHeight + 1) bestHeight = .ok fbs →
      fbs ≠ [] → HasHeaders E (met k) e fbs ∧ ((e.syncBlocks E (met k) fbs).2.2 = none →
        RepliesHaveHeaders E peer bestHeight met fuel (k + 1) (e.syncBlocks E (met k) fbs).1)

/-- So has every reply of the highest peer. -/
def SyncsHeaders (E : Env) (peers : List SyncPeer) (met : Nat → Nat → Circumstances) (e : Engine) : Prop :=
  ∀ peer bestHeight, bestPeer peers = some (peer, bestHeight) → ¬ bestHeight ≤ e.currentHeight →
    RepliesHaveHeaders E peer bestHeight met (bestHeight.toNat - e.currentHeight.toNat) 0 e

theorem syncLoop_returns {peer : SyncPeer} {bestHeight : UInt64} {met : Nat → Nat → Circumstances} {fuel k : Nat} :
    (RepliesHaveHeaders E peer bestHeight met fuel k e →
      syncLoop E peer bestHeight met fuel k e = .ok (e.syncLoop E peer bestHeight met fuel k)) ∧
    (¬ RepliesHaveHeaders E peer bestHeight met fuel k e →
      syncLoop E peer bestHeight met fuel k e = .error .nilDereference) := by
  induction fuel generalizing k e with
  | zero => exact ⟨fun _ => rfl, fun h => absurd trivial h⟩
  | succ fuel ih =>
    rw [syncLoop, Engine.syncLoop]
    by_cases hlow : e.currentHeight < bestHeight
    · simp only [if_pos hlow]
      cases hreply : peer.syncBlocks k (e.currentHeight + 1) bestHeight with
      | error err =>
        refine ⟨fun _ => rfl, fun h => absurd (fun _ fbs hfbs => ?_) h⟩
        rw [hreply] at hfbs
        cases hfbs
      | ok fbs =>
        cases fbs with
        | nil =>
          refine ⟨fun _ => rfl, fun h => absurd (fun _ fbs hfbs hne => ?_) h⟩
          rw [hreply] at hfbs
          cases hfbs
          exact absurd rfl hne
        | cons fb fbs =>
          have hiff : RepliesHaveHeaders E peer bestHeight met (fuel + 1) k e ↔
              HasHeaders E (met k) e (fb :: fbs) ∧ ((e.syncBlocks E (met k) (fb :: fbs)).2.2 = none →
                RepliesHaveHeaders E peer bestHeight met fuel (k + 1) (e.syncBlocks E (met k) (fb :: fbs)).1) := by
            refine ⟨fun h => h hlow _ hreply (List.cons_ne_nil _ _), fun h _ fbs' hfbs _ => ?_⟩
            rw [hreply] at hfbs
            cases hfbs
            exact h
          obtain ⟨hok, herr⟩ := @syncBlocks_returns E e (met k) (fb :: fbs)
          rw [hiff]
          by_cases hhas : HasHeaders E (met k) e (fb :: fbs)
          · dsimp only
            rw [hok hhas, Except.ok_bind]
            cases hfailed : (e.syncBlocks E (met k) (fb :: fbs)).2.2 with
            | some err => exact ⟨fun _ => rfl,
              fun h => absurd ⟨hhas, fun hnone => absurd hnone (Option.some_ne_none err)⟩ h⟩
            | none =>
              obtain ⟨ihok, iherr⟩ := @ih (e.syncBlocks E (met k) (fb :: fbs)).1 (k + 1)
              refine ⟨fun h => ?_, fun h => ?_⟩
              · rw [ihok (h.2 rfl)]
                rfl
              · rw [iherr fun hrest => h ⟨hhas, fun _ => hrest⟩]
                rfl
          · dsimp only
            rw [herr hhas]
            exact ⟨fun h => absurd h.1 hhas, fun _ => rfl⟩
    · simp only [if_neg hlow]
      exact ⟨fun _ => rfl, fun h => absurd (fun hlt => absurd hlt hlow) h⟩

theorem syncToNetwork_returns_iff {peers : List SyncPeer} {met : Nat → Nat → Circumstances} :
    (∃ run, syncToNetwork E peers met e = .ok run) ↔ SyncsHeaders E peers met e := by
  unfold syncToNetwork SyncsHeaders
  cases hbest : bestPeer peers with
  | none => exact iff_of_true ⟨_, rfl⟩ fun peer best h => nomatch h
  | some best =>
    obtain ⟨peer, bestHeight⟩ := best
    dsimp only
    split
    · next hle =>
      refine iff_of_true ⟨_, rfl⟩ fun peer' best' h hnot => ?_
      cases h
      exact absurd hle hnot
    · next hnot =>
      obtain ⟨hok, herr⟩ := @syncLoop_returns E e peer bestHeight met
        (bestHeight.toNat - e.currentHeight.toNat) 0
      constructor
      · rintro ⟨run, hrun⟩ peer' best' h -
        cases h
        by_contra hmissing
        rw [herr hmissing] at hrun
        cases hrun
      · exact fun h => ⟨_, hok (h peer bestHeight rfl hnot)⟩

/-- **What a message can crash**: a handler returns, with a response or an
error, exactly when the submessages it follows are there, and `SyncToNetwork`
when the blocks it comes to have their headers. No index and no divisor fails. -/
theorem returns_iff (E : Env) (o : Orders) (ord : Nat → RangeOrder) (e : Engine) (m : Mempool) (now : Int64) :
    (∀ proposal, (onProposal E o e now proposal).Returns ↔ HasHeader proposal.block) ∧
    (∀ fb, (onFinalizedBlock E o ord e now fb).Returns ↔ HasHeader fb.block ∧ fb.qc.isSome = true) ∧
    (∀ sub, (onSubmitTx E m sub).Returns ↔ sub.tx.isSome = true) ∧
    ∀ peers met, (∃ run, syncToNetwork E peers met e = .ok run) ↔ SyncsHeaders E peers met e :=
  ⟨fun _ => onProposal_returns_iff, fun _ => onFinalizedBlock_returns_iff, fun _ => onSubmitTx_returns_iff,
    fun _ _ => syncToNetwork_returns_iff⟩

section

open Sample

/-- A peer that is one block ahead, and sends none in its reply. -/
def hollowPeer : SyncPeer := ⟨some 1, fun _ _ _ => .ok [⟨none, none⟩]⟩

/-- Empty messages: each crashes the node. -/
theorem empty_messages_crash : ¬ (onProposal env orders (node 1) 10 ⟨none⟩).Returns ∧
    ¬ (onFinalizedBlock env orders (fun _ => order) (node 1) 10 ⟨none, none⟩).Returns ∧
    ¬ (onSubmitTx env Mempool.empty ⟨none⟩).Returns ∧
    syncToNetwork env [hollowPeer] (fun _ _ => ⟨orders, fun _ => order, 10⟩) (node 1) = .error .nilDereference :=
  ⟨Go.not_panic_returns, Go.not_panic_returns, Go.not_panic_returns, rfl⟩

end

end Checked

end Drana
