/-
Catching up (`OnSyncRequest` and `SyncToNetwork` of `internal/consensus/engine.go`):
a node asks the highest of its peers for the blocks it does not have, a hundred
at a time, and commits them one by one.
-/
import Drana.Json
import Drana.Wire
import Drana.NodeRuns
import Drana.Proposals

namespace Drana

open Except (orThrow)

variable {E : Env} {params : GenesisConfig}

/-! ## Answering -/

/-- `pb.FinalizedBlock`. -/
structure Pb.FinalizedBlock where
  block : Option Pb.Block
  qc : Option Pb.QuorumCertificate

/-- A block and its certificate, as they are sent. -/
def P2p.finalizedToProto (b : Block) : Pb.FinalizedBlock := ⟨some (blockToProto b), b.qc.map qcToProto⟩

/-- What the handlers read of a `pb.FinalizedBlock`; they panic where a submessage is missing. -/
def P2p.readFinalized (fb : Pb.FinalizedBlock) : Except String FinalizedBlock := do
  let block ← orThrow fb.block "nil pointer dereference"
  return ⟨← read block, fb.qc.map qcFromProto⟩

/-- The loop of `OnSyncRequest` from height `h` to `stop`, until a block is missing. -/
def collectBlocks (bs : BlockStore) (stop : UInt64) : Nat → UInt64 → List Pb.FinalizedBlock
  | 0, _ => []
  | n + 1, h =>
    if h ≤ stop then
      match bs.loadBlock h with
      | .ok block => P2p.finalizedToProto block :: collectBlocks bs stop n (h + 1)
      | .error _ => []
    else []

/-- `OnSyncRequest`. The loop runs for a hundred heights at most; after the last
height of all it would go on with zero, where no block is. -/
def Node.onSyncRequest (n : Node) (start stop : UInt64) : List Pb.FinalizedBlock :=
  let stop := if stop = 0 ∨ stop > n.engine.currentHeight then n.engine.currentHeight else stop
  if start > stop then []
  else
    let stop := if stop - start + 1 > 100 then start + 99 else stop
    collectBlocks n.blockStore stop 101 start

/-! ## A responder -/

/-- A call of `OnFinalizedBlock` and the circumstances it meets. -/
structure Finalized where
  o : Orders
  ord : Nat → RangeOrder
  saveOrd : RangeOrder
  now : Int64
  fb : FinalizedBlock

/-- `OnFinalizedBlock` at a node with its stores, and the block it commits. -/
def Node.onFinalizedBlock (E : Env) (n : Node) (f : Finalized) : Node × List Block :=
  match n.engine.acceptFinalized E f.o f.ord f.now f.fb with
  | .ok (some c) => ((n.commitBlock E c.1 c.2 f.saveOrd .none).1, [c.1])
  | _ => (n, [])

/-- Calls one after the other, and the chain they commit. -/
def Node.finalizeAll (E : Env) : Node → List Finalized → Node × List Block
  | n, [] => (n, [])
  | n, f :: fs =>
    let (n, bs) := n.onFinalizedBlock E f
    let (n, bs') := Node.finalizeAll E n fs
    (n, bs ++ bs')

/-! ## Asking -/

/-- The map orders and the clock that a block of a reply meets. -/
structure Circumstances where
  o : Orders
  ord : Nat → RangeOrder
  now : Int64

/-- What one request of `SyncToNetwork` has come to. -/
structure SyncReply where
  received : List Pb.FinalizedBlock
  committed : List Block
  err : Option String

inductive SyncOutcome
  | complete
  | failed (err : String)
  /-- The loop would go on. -/
  | unfinished
deriving DecidableEq

structure SyncRun where
  engine : Engine
  replies : List SyncReply
  outcome : SyncOutcome

/-- The blocks that a run has committed. -/
def SyncRun.committed (r : SyncRun) : List Block := r.replies.flatMap (·.committed)

/-- A peer: the height in its status, if it answers, and its answers to `SyncBlocks`. -/
structure SyncPeer where
  latestHeight : Option UInt64
  syncBlocks : Nat → UInt64 → UInt64 → Except String (List Pb.FinalizedBlock)

/-- The highest peer, the first of several. -/
def bestPeer (peers : List SyncPeer) : Option (SyncPeer × UInt64) :=
  peers.foldl (fun best peer =>
    match peer.latestHeight with
    | some height => if height > best.elim 0 (·.2) then some (peer, height) else best
    | none => best) none

/-- The blocks of a reply, one after the other, until one fails. -/
def Engine.syncBlocks (E : Env) : (Nat → Circumstances) → Engine → List Pb.FinalizedBlock →
    Engine × List Block × Option String
  | _, e, [] => (e, [], none)
  | met, e, fb :: fbs =>
    match (do let m ← P2p.readFinalized fb; e.acceptSynced E (met 0).o (met 0).ord (met 0).now m) with
    | .error err => (e, [], some err)
    | .ok c =>
      let r := Engine.syncBlocks E (fun i => met (i + 1)) (e.commitBlock c.1 c.2) fbs
      (r.1, c.1 :: r.2.1, r.2.2)

/-- The loop of `SyncToNetwork` from its request number `k` on. -/
def Engine.syncLoop (E : Env) (peer : SyncPeer) (bestHeight : UInt64) (met : Nat → Nat → Circumstances) :
    Nat → Nat → Engine → SyncRun
  | 0, _, e => ⟨e, [], if e.currentHeight < bestHeight then .unfinished else .complete⟩
  | fuel + 1, k, e =>
    if e.currentHeight < bestHeight then
      match peer.syncBlocks k (e.currentHeight + 1) bestHeight with
      | .error err => ⟨e, [⟨[], [], some err⟩], .failed ("sync blocks: " ++ err)⟩
      | .ok [] => ⟨e, [⟨[], [], none⟩], .complete⟩
      | .ok (fb :: fbs) =>
        let r := e.syncBlocks E (met k) (fb :: fbs)
        match r.2.2 with
        | some err => ⟨r.1, [⟨fb :: fbs, r.2.1, some err⟩], .failed err⟩
        | none =>
          let rest := Engine.syncLoop E peer bestHeight met fuel (k + 1) r.1
          { rest with replies := ⟨fb :: fbs, r.2.1, none⟩ :: rest.replies }
    else ⟨e, [], .complete⟩

/-- `SyncToNetwork`, with a request for each height that is missing. -/
def Engine.syncToNetwork (E : Env) (peers : List SyncPeer) (met : Nat → Nat → Circumstances) (e : Engine) : SyncRun :=
  match bestPeer peers with
  | none => ⟨e, [], .complete⟩
  | some (peer, bestHeight) =>
    if bestHeight ≤ e.currentHeight then ⟨e, [], .complete⟩
    else e.syncLoop E peer bestHeight met (bestHeight.toNat - e.currentHeight.toNat) 0

/-! ## Progress -/

/-- A clock that is not at the end of time. -/
def Sane (now : Int64) : Prop := now.toInt + 16 < 2 ^ 63

/-- Heights go up more slowly than times: they will not run out first. -/
structure Timed (e : Engine) : Prop where
  current : e.Current
  last : ∀ last ∈ e.lastBlock, (last.header.height.toNat : Int) ≤ last.header.timestamp.toInt + 2 ^ 63 + 1

/-- What `ValidateProposedBlock` says of a block's time. -/
theorem validateBlock_time {e : Engine} {o : Orders} {now : Int64} {block : Block} {u : Unit}
    (h : e.validateBlock E o now block = .ok u) : checkAfterParent block.header.timestamp e.lastBlock = .ok () ∧
      block.header.timestamp ≤ now + allowedFutureDrift := by
  simp only [Engine.validateBlock, validateProposedBlock, Except.bind_ok_iff, Except.throwIf_ok_iff, ne_eq, not_not] at h
  obtain ⟨-, -, -, -, -, -, v, hafter, -, hdrift, -⟩ := h
  exact ⟨hafter, Int64.not_lt.mp hdrift⟩

theorem drift_toInt {now : Int64} (h : Sane now) : (now + allowedFutureDrift).toInt = now.toInt + 15 := by
  have hlow := now.le_toInt
  have hsane : now.toInt + 16 < 2 ^ 63 := h
  rw [Int64.toInt_add, show allowedFutureDrift.toInt = 15 from rfl]
  exact Int.bmod_eq_of_le (by omega) (by omega)

/-- A synced block is one above the last. -/
theorem acceptSynced_timed {e : Engine} {o : Orders} {ord : Nat → RangeOrder} {now : Int64} {fb : FinalizedBlock}
    {c : Block × WorldState} (ht : Timed e) (hs : Sane now) (h : e.acceptSynced E o ord now fb = .ok c) :
    c.1.header.height.toNat = e.currentHeight.toNat + 1 ∧ Timed (e.commitBlock c.1 c.2) := by
  obtain ⟨-, -, hvalid, -⟩ := acceptSynced_ok h
  obtain ⟨hheight, -⟩ := validateProposedBlock_place hvalid
  obtain ⟨hafter, hdrift⟩ := validateBlock_time hvalid
  have hdrift := Int64.le_iff_toInt_le.mp hdrift
  rw [drift_toInt hs] at hdrift
  have hsane : now.toInt + 16 < 2 ^ 63 := hs
  have hlow := c.1.header.timestamp.le_toInt
  rw [ht.current.nextHeight] at hheight
  have hadd : c.1.header.height.toNat = (e.currentHeight.toNat + 1) % 2 ^ 64 := by
    rw [hheight, UInt64.toNat_add, UInt64.toNat_one]
  have hroom : e.currentHeight.toNat + 1 < 2 ^ 64 ∧
      (e.currentHeight.toNat : Int) + 1 ≤ c.1.header.timestamp.toInt + 2 ^ 63 + 1 := by
    have hcurrent : e.currentHeight = e.lastBlock.elim 0 (·.header.height) := ht.current
    cases hlast : e.lastBlock with
    | none =>
      rw [hlast] at hcurrent
      rw [hcurrent]
      exact ⟨by decide, by simp only [Option.elim_none, UInt64.toNat_zero]; omega⟩
    | some last =>
      rw [hlast] at hcurrent hafter
      have hlt : last.header.timestamp.toInt < c.1.header.timestamp.toInt :=
        Int64.lt_iff_toInt_lt.mp (Int64.not_le.mp (Except.throwIf_ok_iff.mp hafter))
      have hbound := ht.last last (Option.mem_def.mpr hlast)
      rw [hcurrent]
      simp only [Option.elim_some]
      omega
  rw [Nat.mod_eq_of_lt hroom.1] at hadd
  refine ⟨hadd, rfl, ?_⟩
  rintro last hlast
  cases hlast
  rw [hadd]
  exact_mod_cast hroom.2

/-- A reply raises the node by the blocks it commits, all of them unless one fails. -/
theorem syncBlocks_timed {e : Engine} {met : Nat → Circumstances} {fbs : List Pb.FinalizedBlock} (ht : Timed e)
    (hs : ∀ i, Sane (met i).now) : Timed (e.syncBlocks E met fbs).1 ∧
      (e.syncBlocks E met fbs).1.currentHeight.toNat = e.currentHeight.toNat + (e.syncBlocks E met fbs).2.1.length ∧
      ((e.syncBlocks E met fbs).2.2 = none → (e.syncBlocks E met fbs).2.1.length = fbs.length) := by
  induction fbs generalizing e met with
  | nil => exact ⟨ht, rfl, fun _ => rfl⟩
  | cons fb fbs ih =>
    rw [Engine.syncBlocks]
    split
    · exact ⟨ht, rfl, fun hnone => by cases hnone⟩
    · next c hc =>
      simp only [Except.bind_ok_iff] at hc
      obtain ⟨m, -, hc⟩ := hc
      obtain ⟨hheight, htimed⟩ := acceptSynced_timed ht (hs 0) hc
      obtain ⟨htimed', hheight', hall⟩ := ih htimed fun i => hs (i + 1)
      refine ⟨htimed', ?_, fun hnone => ?_⟩
      · rw [hheight', List.length_cons]
        show c.1.header.height.toNat + _ = _
        omega
      · rw [List.length_cons, List.length_cons, hall hnone]

/-- The reply was empty, or something came of it. -/
def SyncReply.Moves (r : SyncReply) : Prop := r.received ≠ [] → r.committed ≠ [] ∨ r.err.isSome = true

/-- The loop ends within a request for each height that is missing. -/
theorem syncLoop_finishes {e : Engine} {peer : SyncPeer} {bestHeight : UInt64} {met : Nat → Nat → Circumstances}
    {fuel k : Nat} (ht : Timed e) (hs : ∀ k i, Sane (met k i).now)
    (hfuel : bestHeight.toNat - e.currentHeight.toNat ≤ fuel) :
    (e.syncLoop E peer bestHeight met fuel k).outcome ≠ .unfinished ∧
      (∀ r ∈ (e.syncLoop E peer bestHeight met fuel k).replies, r.Moves) ∧
      (e.syncLoop E peer bestHeight met fuel k).replies.length ≤ bestHeight.toNat - e.currentHeight.toNat := by
  induction fuel generalizing e k with
  | zero =>
    have hdone : ¬ e.currentHeight < bestHeight := by
      rw [UInt64.lt_iff_toNat_lt]
      omega
    rw [Engine.syncLoop, if_neg hdone]
    exact ⟨by simp, by simp, by simp⟩
  | succ fuel ih =>
    rw [Engine.syncLoop]
    split
    · next hlt =>
      have hlt := UInt64.lt_iff_toNat_lt.mp hlt
      have hone : ∀ {r : SyncReply}, r.Moves → (∀ r' ∈ [r], r'.Moves) ∧
          [r].length ≤ bestHeight.toNat - e.currentHeight.toNat :=
        fun hr => ⟨by simpa using hr, by simp only [List.length_singleton]; omega⟩
      split
      · exact ⟨by simp, hone fun hne => absurd rfl hne⟩
      · exact ⟨by simp, hone fun hne => absurd rfl hne⟩
      · next fb fbs _ =>
        obtain ⟨htimed, hheight, hall⟩ := @syncBlocks_timed E e (met k) (fb :: fbs) ht (hs k)
        dsimp only
        split
        · exact ⟨by simp, hone fun _ => .inr rfl⟩
        · next hnone =>
          have hlen := hall hnone
          have hsome : (e.syncBlocks E (met k) (fb :: fbs)).2.1 ≠ [] := by
            intro hnil
            rw [hnil] at hlen
            cases hlen
          rw [hlen, List.length_cons] at hheight
          obtain ⟨hout, hmoves, hcount⟩ := @ih _ (k + 1) htimed (by omega)
          refine ⟨hout, ?_, ?_⟩
          · intro r hr
            rcases List.mem_cons.mp hr with rfl | hr
            · exact fun _ => .inl hsome
            · exact hmoves r hr
          · rw [List.length_cons]
            omega
    · exact ⟨by simp, by simp, by simp⟩

end Drana
