/-
What a fresh node syncs from an honest responder is the responder's chain: the
blocks come back from the store and over the wire as they were, and executed
again, in other map orders, they lead to the same states.
-/
import Drana.Sync
import Drana.Agreement
import Drana.Epochs

namespace Drana

open Except (orThrow)

variable {E : Env} {params : GenesisConfig}

/-! ## One block -/

/-- A node that follows another: on the same block, in a state that nobody can tell apart. -/
structure Tracks (leader follower : Engine) : Prop where
  params : follower.params = leader.params
  genesisValSet : follower.genesisValSet = leader.genesisValSet
  twin : Twin true {x | x ∉ (∅ : Finset (Address × UInt64))} leader.state follower.state
  keyed : Keyed leader.state
  lastBlock : follower.lastBlock = leader.lastBlock
  currentHeight : follower.currentHeight = leader.currentHeight

variable {leader follower : Engine}

theorem Tracks.activeValidators (h : Tracks leader follower) : follower.activeValidators = leader.activeValidators := by
  rw [Engine.activeValidators, Engine.activeValidators, h.twin.activeValidators, h.genesisValSet]

/-- A block executes at the follower as at the leader. -/
theorem Tracks.applyBlock (h : Tracks leader follower) {order order' : Nat → RangeOrder} {block : Block}
    {newState : WorldState} (happly : applyBlock E .go leader.params order leader.state block = .ok newState) :
    ∃ newState', Drana.applyBlock E .go follower.params order' follower.state block = .ok newState' ∧
      Twin true {x | x ∉ (∅ : Finset (Address × UInt64))} newState newState' := by
  rw [h.params]
  exact (applyBlock_twin h.keyed h.twin fun w _ => noneForgotten_empty w block.evidence).ok_left happly

/-- What the leader's checks let through, the follower's do, if its clock is not behind. -/
theorem Tracks.validateBlock (h : Tracks leader follower) {o o' : Orders} {now now' : Int64} {block : Block}
    (hv : leader.validateBlock E o now block = .ok ()) (hnow : now ≤ now') (hsane : Sane now') :
    follower.validateBlock E o' now' block = .ok () := by
  have hdrift := (validateBlock_time hv).2
  simp only [Engine.validateBlock, validateProposedBlock, Except.bind_ok_iff, Except.throwIf_ok_iff,
    Except.wrapErr_ok_iff, ne_eq, not_not] at hv
  obtain ⟨-, hheight, -, hprev, -, hproposer, v, hafter, -, -, -, htxs, -, hcount, newState, happly, hroot⟩ := hv
  obtain ⟨newState', happly', htwin⟩ := @Tracks.applyBlock E _ _ h o.block o'.block block newState happly
  have hlater : block.header.timestamp ≤ now' + allowedFutureDrift := by
    have hnow := Int64.le_iff_toInt_le.mp hnow
    have hs : now'.toInt + 16 < 2 ^ 63 := hsane
    have hbefore : Sane now := by
      show now.toInt + 16 < 2 ^ 63
      omega
    rw [Int64.le_iff_toInt_le, drift_toInt hbefore] at hdrift
    rw [Int64.le_iff_toInt_le, drift_toInt hsane]
    omega
  have hsame : block.header.stateRoot = computeStateRoot E o'.root newState' :=
    hroot.trans (htwin.computeStateRoot ((applyBlock_writes happly).keyed h.keyed)).symm
  simp only [Engine.validateBlock, validateProposedBlock, Except.bind_ok_iff, Except.throwIf_ok_iff,
    Except.wrapErr_ok_iff, ne_eq, not_not, h.lastBlock, h.activeValidators]
  refine ⟨(), hheight, (), hprev, (), hproposer, v, hafter, (), Int64.not_lt.mpr hlater, (), htxs, (), ?_, newState',
    happly', hsame⟩
  rw [h.params]
  exact hcount

/-- A finalized block that the leader commits, the follower commits when it syncs. -/
theorem Tracks.acceptSynced (h : Tracks leader follower) {o o' : Orders} {ord ord' : Nat → RangeOrder} {now now' : Int64}
    {fb : FinalizedBlock} {c : Block × WorldState} (hc : leader.acceptFinalized E o ord now fb = .ok (some c))
    (hnow : now ≤ now') (hsane : Sane now') :
    ∃ newState, follower.acceptSynced E o' ord' now' ⟨⟨c.1.header, c.1.transactions, c.1.qc⟩, c.1.qc⟩ =
      .ok (c.1, newState) ∧
      Tracks (leader.commitBlock c.1 c.2) (follower.commitBlock c.1 newState) := by
  obtain ⟨qc, -, hblock, hcert, hvalid, happly⟩ := acceptFinalized_ok hc
  -- Neither check reads the certificate in the block.
  have hvalid : leader.validateBlock E o now c.1 = .ok () := by
    rw [hblock]
    exact hvalid
  have happly : Drana.applyBlock E .go leader.params ord leader.state c.1 = .ok c.2 := by
    rw [hblock]
    exact happly
  obtain ⟨newState, happly', htwin⟩ := @Tracks.applyBlock E _ _ h ord ord' c.1 c.2 happly
  have hvalid' : follower.validateBlock E o' now' c.1 = .ok () := h.validateBlock hvalid hnow hsane
  have hqc : c.1.qc = some qc := by rw [hblock]
  have hsame : ({ blockFromProto ⟨c.1.header, c.1.transactions, c.1.qc⟩ with qc := some qc } : Block) = c.1 := by
    rw [hblock]
    rfl
  refine ⟨newState, ?_, ⟨h.params, h.genesisValSet, htwin, (applyBlock_writes happly).keyed h.keyed, rfl, rfl⟩⟩
  simp only [Engine.acceptSynced, Engine.checkSyncedQC, Except.bind_ok_iff, Except.wrapErr_ok_iff, Except.pure_ok_iff]
  refine ⟨c.1, ?_, (), hvalid', newState, happly', rfl⟩
  rw [hqc]
  simp only [Except.bind_ok_iff, Except.wrapErr_ok_iff, Except.pure_ok_iff]
  rw [hqc] at hsame
  refine ⟨(), ?_, hsame⟩
  rw [h.activeValidators]
  exact hcert

/-! ## A chain -/

/-- Blocks that an engine has committed, one after the other, in calls of
`OnFinalizedBlock` that met an early clock. -/
inductive Built (E : Env) (early : Int64 → Prop) : Engine → List Block → Engine → Prop
  | nil {e : Engine} : Built E early e [] e
  | cons {e e' : Engine} {o : Orders} {ord : Nat → RangeOrder} {now : Int64} {fb : FinalizedBlock}
      {c : Block × WorldState} {bs : List Block} :
    early now → e.acceptFinalized E o ord now fb = .ok (some c) →
    Built E early (e.commitBlock c.1 c.2) bs e' → Built E early e (c.1 :: bs) e'

variable {early : Int64 → Prop} {e e' e'' : Engine} {bs bs' chain : List Block}

theorem Built.append (h : Built E early e bs e') (h' : Built E early e' bs' e'') : Built E early e (bs ++ bs') e'' := by
  induction h with
  | nil => exact h'
  | cons hnow hc _ ih => exact .cons hnow hc (ih h')

theorem Built.split (h : Built E early e (bs ++ bs') e'') : ∃ e', Built E early e bs e' ∧ Built E early e' bs' e'' := by
  induction bs generalizing e with
  | nil => exact ⟨e, .nil, h⟩
  | cons b bs ih =>
    rw [List.cons_append] at h
    cases h with
    | cons hnow hc hrest =>
      obtain ⟨e', hbs, hbs'⟩ := ih hrest
      exact ⟨e', .cons hnow hc hbs, hbs'⟩

/-- The heights of a chain go up by one. -/
theorem Built.heights (h : Built E early e bs e') (hcur : e.Current) :
    bs.map (·.header.height.toNat) = List.range' (e.currentHeight.toNat + 1) bs.length ∧ e'.Current ∧
      e'.currentHeight.toNat = e.currentHeight.toNat + bs.length := by
  induction h with
  | nil => exact ⟨rfl, hcur, rfl⟩
  | @cons e e' o ord now fb c bs hnow hc hrest ih =>
    have hcommits : e.commits E (.finalized o ord now fb) = some c := by
      rw [Engine.commits, hc]
      rfl
    obtain ⟨-, hheight, hle⟩ := commits_finalized hcommits
    rw [hcur.nextHeight] at hheight
    have hnext := next_height hheight hle
    obtain ⟨hmap, hcur', hlen⟩ := ih rfl
    have hsame : (e.commitBlock c.1 c.2).currentHeight.toNat = e.currentHeight.toNat + 1 := hnext
    rw [hsame] at hmap hlen
    refine ⟨?_, hcur', ?_⟩
    · rw [List.map_cons, hnext, hmap, List.length_cons, List.range'_succ]
    · rw [hlen, List.length_cons]
      omega

/-- A finalized block is sent as its header, transactions and certificate. -/
theorem readFinalized_to (b : Block) : P2p.readFinalized (P2p.finalizedToProto b) =
      .ok ⟨⟨b.header, b.transactions, b.qc⟩, b.qc⟩ := by
  have hqc : (b.qc.map P2p.qcToProto).map P2p.qcFromProto = b.qc := by
    simp [Function.comp_def]
  simp only [P2p.readFinalized, P2p.finalizedToProto, orThrow, Except.ok_bind, P2p.read_to, hqc]
  rfl

/-- A reply with the blocks of a chain is committed as it is. -/
theorem Tracks.syncBlocks {met : Nat → Circumstances} (hb : Built E early leader bs e') (h : Tracks leader follower)
    (hearly : ∀ now, early now → ∀ i, now ≤ (met i).now) (hsane : ∀ i, Sane (met i).now) :
    ∃ follower', follower.syncBlocks E met (bs.map P2p.finalizedToProto) = (follower', bs, none) ∧
    Tracks e' follower' := by
  induction hb generalizing follower met with
  | nil => exact ⟨follower, rfl, h⟩
  | @cons e e' o ord now fb c bs hnow hc hrest ih =>
    obtain ⟨newState, hstep, htracks⟩ := @Tracks.acceptSynced E e follower h o (met 0).o ord (met 0).ord now
      (met 0).now fb c
      hc (hearly now hnow 0) (hsane 0)
    obtain ⟨follower', hrun, htracks'⟩ := @ih _ (fun i => met (i + 1)) htracks (fun now' h' i => hearly now' h' (i + 1))
      fun i => hsane (i + 1)
    refine ⟨follower', ?_, htracks'⟩
    rw [List.map_cons, Engine.syncBlocks, readFinalized_to, Except.ok_bind, hstep]
    simp only [hrun]

/-! ## A responder's store -/

/-- The node has stored the blocks of a chain from height one on. -/
structure Stored (E : Env) (n : Node) (chain : List Block) : Prop where
  current : n.engine.Current
  indexes : Indexes E n.blockStore chain
  heights : chain.map (·.header.height.toNat) = List.range' 1 chain.length
  height : n.engine.currentHeight.toNat = chain.length
  texts : ∀ b ∈ chain, ∀ tx ∈ b.transactions, ValidTexts tx

variable {n : Node}

theorem Stored.short (h : Stored E n chain) : chain.length < 2 ^ 64 := by
  rw [← h.height]
  exact n.engine.currentHeight.toNat_lt

theorem Stored.getElem_height (h : Stored E n chain) {k : Nat} (hk : k < chain.length) :
    chain[k].header.height.toNat = k + 1 := by
  have hat : (chain.map (·.header.height.toNat))[k]? = (List.range' 1 chain.length)[k]? := by rw [h.heights]
  rw [List.getElem?_map, List.getElem?_eq_getElem hk, List.getElem?_range' hk, Option.map_some] at hat
  have := Option.some.inj hat
  omega

theorem Stored.loadBlock_eq (h : Stored E n chain) (height : UInt64) :
    n.blockStore.loadBlock height = n.blockStore.getBlockByHeight height :=
  BlockStore.loadBlock_eq fun b hb => h.texts b ((h.indexes.blocks height b).mp hb).1

theorem Stored.loadBlock (h : Stored E n chain) {k : Nat} (hk : k < chain.length) :
    n.blockStore.loadBlock (UInt64.ofNat (k + 1)) = .ok chain[k] := by
  rw [h.loadBlock_eq, h.indexes.getBlockByHeight_ok]
  refine ⟨List.getElem_mem hk, UInt64.toNat_inj.mp ?_⟩
  have hshort := h.short
  rw [h.getElem_height hk, UInt64.toNat_ofNat', Nat.mod_eq_of_lt (by omega)]

/-- There is no block at height zero. -/
theorem Stored.loadBlock_zero (h : Stored E n chain) : ∃ err, n.blockStore.loadBlock 0 = .error err := by
  rw [h.loadBlock_eq]
  cases hb : n.blockStore.getBlockByHeight 0 with
  | error err => exact ⟨err, rfl⟩
  | ok b =>
    obtain ⟨hmem, hzero⟩ := h.indexes.getBlockByHeight_ok.mp hb
    obtain ⟨k, hk, rfl⟩ := List.getElem_of_mem hmem
    have hat := h.getElem_height hk
    rw [hzero] at hat
    cases hat

theorem collectBlocks_eq (h : Stored E n chain) {stop : UInt64} (hstop : stop.toNat ≤ chain.length) {cap k : Nat}
    (hk : k ≤ chain.length) : collectBlocks n.blockStore stop cap (UInt64.ofNat (k + 1)) =
      (((chain.take stop.toNat).drop k).take cap).map P2p.finalizedToProto := by
  have hshort := h.short
  induction cap generalizing k with
  | zero => simp [collectBlocks]
  | succ cap ih =>
    have hat : (UInt64.ofNat (k + 1)).toNat = (k + 1) % 2 ^ 64 := UInt64.toNat_ofNat'
    rw [collectBlocks]
    by_cases hmore : k < stop.toNat
    · have hle : UInt64.ofNat (k + 1) ≤ stop := by
        rw [UInt64.le_iff_toNat_le, hat, Nat.mod_eq_of_lt (by omega)]
        omega
      have hlen : k < (chain.take stop.toNat).length := by
        rw [List.length_take]
        omega
      have hnext : UInt64.ofNat (k + 1) + 1 = UInt64.ofNat (k + 1 + 1) := (UInt64.ofNat_add (k + 1) 1).symm
      rw [if_pos hle, h.loadBlock (by omega), List.drop_eq_getElem_cons hlen, List.take_succ_cons, List.map_cons,
        List.getElem_take, hnext, ih (by omega)]
    · have hnone : (chain.take stop.toNat).drop k = [] := by
        rw [List.drop_eq_nil_iff, List.length_take]
        omega
      rw [hnone]
      by_cases hwrap : k + 1 = 2 ^ 64
      · obtain ⟨err, hzero⟩ := h.loadBlock_zero
        have h0 : UInt64.ofNat (k + 1) = 0 := by
          rw [hwrap]
          rfl
        rw [h0, hzero]
        simp
      · have hgt : ¬ UInt64.ofNat (k + 1) ≤ stop := by
          rw [UInt64.le_iff_toNat_le, hat, Nat.mod_eq_of_lt (by omega)]
          omega
        rw [if_neg hgt]
        simp

/-- Asked from a height on, the responder answers with the next hundred blocks. -/
theorem onSyncRequest_eq (h : Stored E n chain) {k : Nat} (hk : k < chain.length) :
    n.onSyncRequest (UInt64.ofNat (k + 1)) n.engine.currentHeight =
      ((chain.drop k).take 100).map P2p.finalizedToProto := by
  have hshort := h.short
  have hheight := h.height
  have hat : (UInt64.ofNat (k + 1)).toNat = k + 1 := by
    rw [UInt64.toNat_ofNat']
    exact Nat.mod_eq_of_lt (by omega)
  have hstop : (if n.engine.currentHeight = 0 ∨
      n.engine.currentHeight > n.engine.currentHeight then n.engine.currentHeight
      else n.engine.currentHeight) = n.engine.currentHeight := by
    split <;> rfl
  have hle : ¬ UInt64.ofNat (k + 1) > n.engine.currentHeight := by
    rw [gt_iff_lt, UInt64.lt_iff_toNat_lt]
    omega
  have hspan : (n.engine.currentHeight - UInt64.ofNat (k + 1) + 1).toNat = chain.length - k := by
    rw [UInt64.toNat_add, UInt64.toNat_sub_of_le _ _ (UInt64.not_lt.mp hle), UInt64.toNat_one, hheight, hat]
    rw [Nat.mod_eq_of_lt (by omega)]
    omega
  rw [Node.onSyncRequest]
  dsimp only
  rw [hstop, if_neg hle]
  split
  · next hbig =>
    have hbig : 100 < chain.length - k := by
      rw [← hspan]
      exact UInt64.lt_iff_toNat_lt.mp hbig
    have hto : (UInt64.ofNat (k + 1) + 99).toNat = k + 100 := by
      rw [UInt64.toNat_add, hat]
      exact Nat.mod_eq_of_lt (show k + 1 + 99 < 2 ^ 64 by omega)
    rw [collectBlocks_eq h (by omega) hk.le, hto]
    congr 1
    rw [List.drop_take, List.take_take]
    congr 1
    omega
  · next hsmall =>
    have hsmall : chain.length - k ≤ 100 := by
      rw [← hspan]
      exact UInt64.le_iff_toNat_le.mp (UInt64.not_lt.mp hsmall)
    rw [collectBlocks_eq h hheight.le hk.le, hheight, List.take_length,
      List.take_of_length_le (by rw [List.length_drop]; omega), List.take_of_length_le (by rw [List.length_drop]; omega)]

theorem Stored.chainHeight (h : Stored E n chain) : chainHeight chain = n.engine.currentHeight := by
  refine UInt64.toNat_inj.mp ?_
  rw [h.height, Drana.chainHeight]
  rcases Nat.eq_zero_or_pos chain.length with hzero | hpos
  · rw [List.length_eq_zero_iff.mp hzero]
    rfl
  · rw [List.getLast?_eq_getElem?, List.getElem?_eq_getElem (by omega), Option.elim_some, h.getElem_height (by omega)]
    omega

/-- A call of `OnFinalizedBlock` keeps the store in step with the chain. -/
theorem Stored.onFinalizedBlock (h : Stored E n chain) {f : Finalized} (hearly : early f.now)
    (htexts : ∀ tx ∈ f.fb.block.transactions, ValidTexts tx) :
    Built E early n.engine (n.onFinalizedBlock E f).2 (n.onFinalizedBlock E f).1.engine ∧
      Stored E (n.onFinalizedBlock E f).1 (chain ++ (n.onFinalizedBlock E f).2) := by
  rw [Node.onFinalizedBlock]
  split
  · next c hc =>
    have hbuilt : Built E early n.engine [c.1] (n.engine.commitBlock c.1 c.2) := .cons hearly hc .nil
    obtain ⟨hmap, hcur, hlen⟩ := hbuilt.heights h.current
    simp only [List.map_cons, List.map_nil, List.length_singleton, List.range'_one, List.cons.injEq,
      and_true] at hmap hlen
    refine ⟨hbuilt, hcur, h.indexes.saveBlock ?_, ?_, ?_, ?_⟩
    · rw [h.chainHeight, UInt64.lt_iff_toNat_lt]
      omega
    · rw [List.map_append, h.heights, List.length_append, List.length_singleton, List.range'_concat, Nat.one_mul,
        List.map_singleton, hmap, h.height, Nat.add_comm]
    · rw [List.length_append, List.length_singleton, ← h.height]
      exact hlen
    · intro b hb
      rcases List.mem_append.mp hb with hb | hb
      · exact h.texts b hb
      · obtain ⟨qc, -, hblock, -⟩ := acceptFinalized_ok hc
        rw [List.mem_singleton.mp hb, hblock]
        exact htexts
  · rw [List.append_nil]
    exact ⟨.nil, h⟩

theorem Stored.finalizeAll {fs : List Finalized} (h : Stored E n chain)
    (hfs : ∀ f ∈ fs, early f.now ∧ ∀ tx ∈ f.fb.block.transactions, ValidTexts tx) :
    Built E early n.engine (n.finalizeAll E fs).2 (n.finalizeAll E fs).1.engine ∧
      Stored E (n.finalizeAll E fs).1 (chain ++ (n.finalizeAll E fs).2) := by
  induction fs generalizing n chain with
  | nil =>
    rw [Node.finalizeAll, List.append_nil]
    exact ⟨.nil, h⟩
  | cons f fs ih =>
    obtain ⟨hearly, htexts⟩ := hfs f List.mem_cons_self
    obtain ⟨hbuilt, hstored⟩ := h.onFinalizedBlock hearly htexts
    obtain ⟨hbuilt', hstored'⟩ := ih hstored fun f' hf' => hfs f' (List.mem_cons_of_mem _ hf')
    rw [Node.finalizeAll]
    dsimp only
    rw [← List.append_assoc]
    exact ⟨hbuilt.append hbuilt', hstored'⟩

/-! ## The whole chain -/

/-- A node that answers what is asked of it. A reply of any size arrives. -/
def responder (n : Node) : SyncPeer := ⟨some n.engine.currentHeight, fun _ start stop => .ok (n.onSyncRequest start stop)⟩

theorem Tracks.syncLoop {met : Nat → Nat → Circumstances} {fuel j k : Nat} (hs : Stored E n chain) (hk : k ≤ chain.length)
    (hb : Built E early leader (chain.drop k) n.engine) (hcur : leader.Current) (hheight : leader.currentHeight.toNat = k)
    (h : Tracks leader follower) (hearly : ∀ now, early now → ∀ k i, now ≤ (met k i).now)
    (hsane : ∀ k i, Sane (met k i).now) (hfuel : chain.length - k ≤ fuel) :
    (follower.syncLoop E (responder n) n.engine.currentHeight met fuel j).outcome = .complete ∧
      (follower.syncLoop E (responder n) n.engine.currentHeight met fuel j).committed = chain.drop k ∧
      Tracks n.engine (follower.syncLoop E (responder n) n.engine.currentHeight met fuel j).engine := by
  induction fuel generalizing leader follower j k with
  | zero =>
    obtain rfl : k = chain.length := by omega
    have hlt : ¬ follower.currentHeight < n.engine.currentHeight := by
      rw [h.currentHeight, UInt64.lt_iff_toNat_lt, hheight, hs.height]
      exact Nat.lt_irrefl _
    rw [List.drop_length] at hb ⊢
    cases hb
    rw [Engine.syncLoop, if_neg hlt]
    exact ⟨rfl, rfl, h⟩
  | succ fuel ih =>
    rw [Engine.syncLoop]
    by_cases hdone : k = chain.length
    · subst hdone
      have hlt : ¬ follower.currentHeight < n.engine.currentHeight := by
        rw [h.currentHeight, UInt64.lt_iff_toNat_lt, hheight, hs.height]
        exact Nat.lt_irrefl _
      rw [List.drop_length] at hb ⊢
      cases hb
      rw [if_neg hlt]
      exact ⟨rfl, rfl, h⟩
    · have hlt : follower.currentHeight < n.engine.currentHeight := by
        rw [h.currentHeight, UInt64.lt_iff_toNat_lt, hheight, hs.height]
        omega
      have hnext : follower.currentHeight + 1 = UInt64.ofNat (k + 1) := by
        rw [h.currentHeight, UInt64.ofNat_add, ← hheight, UInt64.ofNat_toNat]
        rfl
      have hreply : (responder n).syncBlocks j (follower.currentHeight + 1) n.engine.currentHeight =
          .ok (((chain.drop k).take 100).map P2p.finalizedToProto) := by
        rw [hnext]
        exact congrArg Except.ok (onSyncRequest_eq hs (by omega))
      have hb' := hb
      rw [← List.take_append_drop 100 (chain.drop k)] at hb'
      obtain ⟨mid, hbatch, hrest⟩ := hb'.split
      obtain ⟨follower', hrun, htracks⟩ := h.syncBlocks hbatch (fun now hn i => hearly now hn j i) (hsane j)
      obtain ⟨-, hmid, hlen⟩ := hbatch.heights hcur
      rw [hheight] at hlen
      have hsplit : (chain.drop k).drop 100 = chain.drop (k + ((chain.drop k).take 100).length) := by
        rw [List.drop_drop, List.length_take, List.length_drop]
        rcases Nat.le_total 100 (chain.length - k) with hle | hle
        · rw [Nat.min_eq_left hle]
        · rw [Nat.min_eq_right hle, List.drop_of_length_le (by omega), List.drop_of_length_le (by omega)]
      rw [hsplit] at hrest
      have hsome : 0 < ((chain.drop k).take 100).length := by
        rw [List.length_take, List.length_drop]
        omega
      have htotal : k + ((chain.drop k).take 100).length ≤ chain.length := by
        rw [List.length_take, List.length_drop]
        omega
      obtain ⟨hout, hcommitted, hend⟩ := @ih mid follower' (j + 1) _ htotal hrest hmid hlen htracks (by omega)
      rw [if_pos hlt, hreply]
      have hall : chain.drop k = (chain.drop k).take 100 ++ chain.drop (k + ((chain.drop k).take 100).length) := by
        rw [← hsplit, List.take_append_drop]
      cases hbs : (chain.drop k).take 100 with
      | nil =>
        rw [hbs] at hsome
        cases hsome
      | cons b bs =>
        rw [hbs, List.map_cons] at hrun
        rw [List.map_cons]
        dsimp only
        rw [hrun]
        dsimp only
        refine ⟨hout, ?_, hend⟩
        rw [hall, ← hcommitted, hbs]
        rfl

/-- Two nodes of one genesis start on one track. -/
theorem Tracks.genesis (h : AtGenesis E params leader) (h' : AtGenesis E params follower) : Tracks leader follower := by
  have hstate : follower.state = leader.state := Except.ok.inj (h'.state.symm.trans h.state)
  refine ⟨h'.config.trans h.config.symm, h'.genesisValSet.trans h.genesisValSet.symm, ?_,
    (initializeState_fresh h.state).1.keyed, h'.lastBlock.trans h.lastBlock.symm,
    h'.currentHeight.trans h.currentHeight.symm⟩
  rw [hstate]
  exact .refl

theorem Stored.genesis (h : AtGenesis E params n.engine) (hempty : n.blockStore = {}) : Stored E n [] := by
  refine ⟨h.current, ?_, rfl, by rw [h.currentHeight]; rfl, by simp⟩
  rw [hempty]
  exact .empty

theorem AtGenesis.timed (h : AtGenesis E params e) : Timed e := by
  refine ⟨h.current, fun last hlast => ?_⟩
  rw [h.lastBlock] at hlast
  cases hlast

/-- A fresh node that syncs from a responder ends where the responder is, with its chain. -/
theorem syncToNetwork_responder {fresh : Engine} {met : Nat → Nat → Circumstances} {n₀ : Engine}
    (hs : Stored E n chain) (hb : Built E early n₀ chain n.engine) (h₀ : AtGenesis E params n₀)
    (hfresh : AtGenesis E params fresh) (hearly : ∀ now, early now → ∀ k i, now ≤ (met k i).now)
    (hsane : ∀ k i, Sane (met k i).now) : (fresh.syncToNetwork E [responder n] met).outcome = .complete ∧
      (fresh.syncToNetwork E [responder n] met).committed = chain ∧
      Tracks n.engine (fresh.syncToNetwork E [responder n] met).engine := by
  have htracks : Tracks n₀ fresh := .genesis h₀ hfresh
  have hzero : fresh.currentHeight = 0 := hfresh.currentHeight
  have hzero₀ : n₀.currentHeight.toNat = 0 := by
    rw [h₀.currentHeight]
    rfl
  rw [Engine.syncToNetwork]
  by_cases hnone : n.engine.currentHeight = 0
  · have hbest : bestPeer [responder n] = none := by simp [bestPeer, responder, hnone]
    have hnil : chain = [] := by
      rw [← List.length_eq_zero_iff, ← hs.height]
      exact congrArg UInt64.toNat hnone
    rw [hbest]
    subst hnil
    refine ⟨rfl, rfl, ?_⟩
    generalize n.engine = e at hb
    cases hb
    exact htracks
  · have hpos : n.engine.currentHeight > 0 := by
      rw [gt_iff_lt, UInt64.lt_iff_toNat_lt]
      exact Nat.pos_of_ne_zero fun hz => hnone (UInt64.toNat_inj.mp hz)
    have hbest : bestPeer [responder n] = some (responder n, n.engine.currentHeight) := by
      simp only [bestPeer, responder, List.foldl_cons, List.foldl_nil, Option.elim_none, hpos, if_true]
    have hle : ¬ n.engine.currentHeight ≤ fresh.currentHeight := by
      rw [hzero]
      exact UInt64.not_le.mpr hpos
    have hfuel : chain.length - 0 ≤ n.engine.currentHeight.toNat - fresh.currentHeight.toNat := by
      rw [hzero, hs.height, UInt64.toNat_zero]
    rw [hbest]
    dsimp only
    rw [if_neg hle]
    exact htracks.syncLoop hs (Nat.zero_le _) (show Built E early n₀ (chain.drop 0) n.engine from hb) h₀.current hzero₀
      hearly hsane hfuel

/-- A fresh node's sync ends, whatever its peers answer. -/
theorem syncToNetwork_finishes {fresh : Engine} {peers : List SyncPeer} {met : Nat → Nat → Circumstances}
    (ht : Timed fresh) (hsane : ∀ k i, Sane (met k i).now) : (fresh.syncToNetwork E peers met).outcome ≠ .unfinished ∧
      (∀ reply ∈ (fresh.syncToNetwork E peers met).replies, reply.Moves) ∧
      (fresh.syncToNetwork E peers met).replies.length ≤
        ((bestPeer peers).elim 0 (·.2)).toNat - fresh.currentHeight.toNat := by
  rw [Engine.syncToNetwork]
  cases hbest : bestPeer peers with
  | none => exact ⟨by simp, by simp, by simp⟩
  | some best =>
    obtain ⟨peer, bestHeight⟩ := best
    dsimp only
    split
    · exact ⟨by simp, by simp, by simp⟩
    · exact syncLoop_finishes ht hsane (Nat.le_refl _)

/-- **Sync reproduces the chain**: a fresh node that syncs from a responder whose
chain came to it finalized ends with that chain, its height, last hash and root.
Whatever its peers answer, each answer with blocks is committed or fails, and
there are no more requests than heights to catch up. -/
theorem sync_reproduces {fresh : Engine} {met : Nat → Nat → Circumstances} (hfresh : AtGenesis E params fresh)
    (hsane : ∀ k i, Sane (met k i).now) :
    (∀ (n₀ : Node) (fs : List Finalized), AtGenesis E params n₀.engine → n₀.blockStore = {} →
      (∀ f ∈ fs, (∀ k i, f.now ≤ (met k i).now) ∧ ∀ tx ∈ f.fb.block.transactions, ValidTexts tx) →
      let n := (n₀.finalizeAll E fs).1
      let r := fresh.syncToNetwork E [responder n] met
      r.outcome = .complete ∧ r.committed = (n₀.finalizeAll E fs).2 ∧ r.engine.currentHeight = n.engine.currentHeight ∧
        lastHash E r.engine.lastBlock = lastHash E n.engine.lastBlock ∧
        ∀ ord ord', computeStateRoot E ord' r.engine.state = computeStateRoot E ord n.engine.state) ∧
    (∀ peers : List SyncPeer,
      let r := fresh.syncToNetwork E peers met
      r.outcome ≠ .unfinished ∧ (∀ reply ∈ r.replies, reply.Moves) ∧
        r.replies.length ≤ ((bestPeer peers).elim 0 (·.2)).toNat - fresh.currentHeight.toNat) := by
  constructor
  · intro n₀ fs h₀ hempty hfs n r
    obtain ⟨hbuilt, hstored⟩ :=
      @Stored.finalizeAll E (fun now => ∀ k i, now ≤ (met k i).now) [] n₀ fs (.genesis h₀ hempty) hfs
    rw [List.nil_append] at hstored
    obtain ⟨hout, hcommitted, hend⟩ := syncToNetwork_responder hstored hbuilt h₀ hfresh (fun now h => h) hsane
    refine ⟨hout, hcommitted, hend.currentHeight, congrArg (lastHash E) hend.lastBlock, fun ord ord' => ?_⟩
    exact hend.twin.computeStateRoot hend.keyed
  · exact fun peers => syncToNetwork_finishes hfresh.timed hsane

section

open Sample

/-- Node `n` at a genesis with one validator, and epochs of two blocks. -/
def underOne (n : UInt8) : Engine :=
  { node n with params := epochConfig, genesisValSet := epochConfig.validators, state := genesis }

theorem underOne_atGenesis (n : UInt8) : AtGenesis env epochConfig (underOne n) := ⟨rfl, rfl, epochGenesis_ok, rfl, rfl⟩

/-- Node 2, with nothing stored. -/
def archive : Node := ⟨underOne 2, {}, ∅⟩

/-- Key 2 stakes, an epoch ends, and key 1 posts; and who votes for the blocks. -/
def acrossEpoch : List (PbBlock × List UInt8) :=
  [(⟨⟨1, .zero, address 1, 10, rootOf 0 0 5 1, Vector.replicate 32 2⟩, [stake 2 60 1], none⟩, [1]),
    (⟨⟨2, Vector.replicate 32 2, address 1, 11, rootOf 1 0 10 2, .zero⟩, [], none⟩, [1]),
    (⟨⟨3, .zero, address 1, 12, rootOf 1 6 15 3, Vector.replicate 32 1⟩, [createPost 1 100 1], none⟩, [1, 2])]

/-- A block finalized with their votes. -/
def votedAtOnce (b : PbBlock × List UInt8) : Finalized where
  o := orders
  ord := fun _ => order
  saveOrd := order
  now := 12
  fb := ⟨b.1, some ⟨b.1.header.height, b.1.header.hash env, b.2.map fun n => (underOne n).castVote env b.1.header⟩⟩

/-- Node 3 syncs later, and ranges over its maps the other way round. -/
def later : Nat → Nat → Circumstances := fun _ _ => ⟨⟨fun _ => backwards, backwards⟩, fun _ => backwards, 12⟩

theorem archive_acrossEpoch : (archive.finalizeAll env (acrossEpoch.map votedAtOnce)).1.engine.currentHeight = 3 ∧
    (archive.finalizeAll env (acrossEpoch.map votedAtOnce)).1.engine.state.currentEpoch = 1 ∧
    (archive.finalizeAll env (acrossEpoch.map votedAtOnce)).1.engine.state.activeValidators.map (·.address) =
      [address 1, address 2] := by
  decide +kernel

/-- Two validators have come of one when the chain is synced. -/
theorem sync_reproduces_acrossEpoch :
    let n := (archive.finalizeAll env (acrossEpoch.map votedAtOnce)).1
    let r := (underOne 3).syncToNetwork env [responder n] later
    (n.engine.currentHeight = 3 ∧ n.engine.state.currentEpoch = 1 ∧
      n.engine.state.activeValidators.map (·.address) = [address 1, address 2]) ∧
      r.outcome = .complete ∧ r.committed = (archive.finalizeAll env (acrossEpoch.map votedAtOnce)).2 ∧
      r.engine.currentHeight = n.engine.currentHeight ∧
        lastHash env r.engine.lastBlock = lastHash env n.engine.lastBlock ∧
      ∀ ord ord', computeStateRoot env ord' r.engine.state = computeStateRoot env ord n.engine.state := by
  have hsane : ∀ k i, Sane (later k i).now := fun _ _ => by
    show (12 : Int64).toInt + 16 < 2 ^ 63
    decide
  have hvalid : ∀ b ∈ acrossEpoch, ∀ tx ∈ b.1.transactions,
      validString tx.text = true ∧ validString tx.channel = true := by decide +kernel
  have htexts : ∀ f ∈ acrossEpoch.map votedAtOnce, (∀ k i, f.now ≤ (later k i).now) ∧
      ∀ tx ∈ f.fb.block.transactions, ValidTexts tx := by
    intro f hf
    obtain ⟨b, hb, rfl⟩ := List.mem_map.mp hf
    exact ⟨fun _ _ => show (12 : Int64) ≤ 12 by decide, hvalid b hb⟩
  have hrun := (sync_reproduces (underOne_atGenesis 3) hsane).1 archive (acrossEpoch.map votedAtOnce)
    (underOne_atGenesis 2) rfl htexts
  exact ⟨archive_acrossEpoch, hrun⟩

end

end Drana
