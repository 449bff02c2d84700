/-
How a transaction spreads (`OnSubmitTx` of `internal/consensus/engine.go`): a
node that takes one into its pool sends it on to all its peers, and one that
does not, sends nothing. So it reaches everyone, and the sending stops.

Each call is one step; calls on their way arrive in any order, or never.
-/
import Drana.TxStatus
import Mathlib.Algebra.BigOperators.Group.Finset.Basic
import Mathlib.Algebra.Order.BigOperators.Group.Finset

namespace Drana

variable {E : Env}

/-- Nodes, and the calls of `SubmitTx` that are on their way, each with the node it goes to. -/
structure Relay (ι : Type) where
  nodes : ι → PooledEngine
  flight : List (ι × Transaction)

/-- One step somewhere. `peers` are those the node is connected to then. -/
inductive RelayEvent (ι : Type)
  /-- A client submits. -/
  | submitTx (i : ι) (tx : Transaction) (peers : List ι)
  | deliver (k : Nat) (peers : List ι)
  /-- The call fails, or its time is up. -/
  | lose (k : Nat)
  | engine (i : ι) (ord : MapRange Hash Transaction) (ev : Event)

/-- A transaction that a node has taken, and the peers it has sent it on to. -/
structure Relayed (ι : Type) where
  node : ι
  tx : Transaction
  peers : List ι

namespace Relay

variable {ι : Type} [DecidableEq ι]

/-- What a node does with a transaction it is sent. -/
def offer (E : Env) (s : Relay ι) (i : ι) (tx : Transaction) (peers : List ι) : Relay ι × Option (Relayed ι) :=
  match (s.nodes i).onSubmitTx E tx with
  | .error _ => (s, none)
  | .ok n => (⟨Function.update s.nodes i n, s.flight ++ peers.map fun peer => (peer, tx)⟩, some ⟨i, tx, peers⟩)

def step (E : Env) (s : Relay ι) : RelayEvent ι → Relay ι × Option (Relayed ι)
  | .submitTx i tx peers => s.offer E i tx peers
  | .deliver k peers =>
    match s.flight[k]? with
    | some (i, tx) => ({ s with flight := s.flight.eraseIdx k } : Relay ι).offer E i tx peers
    | none => (s, none)
  | .lose k => ({ s with flight := s.flight.eraseIdx k }, none)
  | .engine i ord ev => ({ s with nodes := Function.update s.nodes i ((s.nodes i).next E (.event ord ev)) }, none)

/-- The net after a run, and what was sent on in it. -/
def run (E : Env) : Relay ι → List (RelayEvent ι) → Relay ι × List (Relayed ι)
  | s, [] => (s, [])
  | s, ev :: evs => ((run E (s.step E ev).1 evs).1, (s.step E ev).2.toList ++ (run E (s.step E ev).1 evs).2)

/-- What holds of each step, and the net it is made in. -/
def AllAlong (E : Env) (P : Relay ι → RelayEvent ι → Prop) : Relay ι → List (RelayEvent ι) → Prop
  | _, [] => True
  | s, ev :: evs => P s ev ∧ AllAlong E P (s.step E ev).1 evs

/-! ## What a step does -/

/-- A transaction is taken, or nothing happens. -/
inductive Offered (E : Env) (s : Relay ι) (i : ι) (tx : Transaction) (peers : List ι) : Relay ι × Option (Relayed ι) →
    Prop
  | refused {err : String} : (s.nodes i).onSubmitTx E tx = .error err → Offered E s i tx peers (s, none)
  | taken {n : PooledEngine} : (s.nodes i).onSubmitTx E tx = .ok n → Offered E s i tx peers
    (⟨Function.update s.nodes i n, s.flight ++ peers.map fun peer => (peer, tx)⟩, some ⟨i, tx, peers⟩)

theorem offer_cases (s : Relay ι) (i : ι) (tx : Transaction) (peers : List ι) :
    Offered E s i tx peers (s.offer E i tx peers) := by
  unfold offer
  split
  · next h => exact .refused h
  · next h => exact .taken h

end Relay

namespace PooledEngine

variable {n n' : PooledEngine} {tx tx' : Transaction}

/-- What is taken: it was not there, its nonce is not used, and it waits from then on. -/
structure Takes (E : Env) (n : PooledEngine) (tx : Transaction) (n' : PooledEngine) : Prop where
  engine : n'.engine = n.engine
  new : n.mempool.txs.lookup (tx.hash E) = none
  unused : nonceOf n.engine.state tx.sender < tx.nonce
  txs : n'.mempool.txs = n.mempool.txs.insert (tx.hash E) tx

theorem onSubmitTx_takes (h : n.onSubmitTx E tx = .ok n') : n.Takes E tx n' := by
  simp only [PooledEngine.onSubmitTx, Mempool.add, Except.bind_ok_iff, Except.pure_ok_iff, Except.throwIf_ok_iff] at h
  obtain ⟨m, ⟨-, -, -, -, u, hcheck, -, hnew, -, -, rfl⟩, rfl⟩ := h
  simp only [Mempool.setStateChecker, Mempool.checkSender, Except.bind_ok_iff, Except.orThrow_ok_iff,
    Except.throwIf_ok_iff, UInt64.not_le] at hcheck
  obtain ⟨acct, hg, -, -, hnonce⟩ := hcheck
  have hnone : n.mempool.txs.lookup (tx.hash E) = none := by
    have hnew : ¬ (n.mempool.txs.lookup (tx.hash E)).isSome = true := hnew
    rwa [Option.isSome_iff_ne_none, not_not] at hnew
  exact ⟨rfl, hnone, by rw [nonceOf_of hg]; exact hnonce, rfl⟩

theorem Takes.pending (h : n.Takes E tx n') : n'.mempool.IsPending tx' ↔ tx' = tx ∨ n.mempool.IsPending tx' := by
  simp only [Mempool.IsPending, h.txs]
  constructor
  · rintro ⟨x, hx⟩
    by_cases heq : x = tx.hash E
    · rw [heq, Finmap.lookup_insert, Option.some.injEq] at hx
      exact .inl hx.symm
    · rw [Finmap.lookup_insert_of_ne _ heq] at hx
      exact .inr ⟨x, hx⟩
  · rintro (rfl | ⟨x, hx⟩)
    · exact ⟨_, Finmap.lookup_insert _⟩
    · have hne : x ≠ tx.hash E := by
        rintro rfl
        rw [h.new] at hx
        cases hx
      exact ⟨x, by rw [Finmap.lookup_insert_of_ne _ hne]; exact hx⟩

/-- Its sender has used the nonce. -/
def Used (n : PooledEngine) (tx : Transaction) : Prop := tx.nonce ≤ nonceOf n.engine.state tx.sender

/-- A transaction that waits, or whose nonce is used, is not taken. -/
theorem Takes.elsewhere (h : n.Takes E tx n') (hw : n.Waiting E) : ¬ (n.mempool.IsPending tx ∨ n.Used tx) := by
  rintro (⟨x, hx⟩ | hused)
  · rw [hw.hashed x tx hx, h.new] at hx
    cases hx
  · exact absurd h.unused (UInt64.not_lt.mpr hused)

/-- The node's block executes as it should: no nonce wraps, and what is in it is of `S`. -/
def Commits (E : Env) (S : Transaction → Prop) (n : PooledEngine) (ev : Event) : Prop :=
  ∀ c, n.engine.commits E ev = some c →
    (∀ tx ∈ c.1.transactions, S tx) ∧ ∀ a, (nonceOf n.engine.state a).toNat + sentBy a c.1.transactions < 2 ^ 64

variable {S : Transaction → Prop} {ord : MapRange Hash Transaction} {ev : Event}

theorem next_event_of_none (h : n.engine.commits E ev = none) : n.next E (.event ord ev) = n := by
  rw [next, h, Option.elim_none]

theorem next_event_of_some {c : Block × WorldState} (h : n.engine.commits E ev = some c) :
    n.next E (.event ord ev) = n.commitBlock E ord c.1 c.2 := by
  rw [next, h, Option.elim_some]

/-- A commit adds nothing to the pool. -/
theorem pending_next (h : (n.next E (.event ord ev)).mempool.IsPending tx) : n.mempool.IsPending tx := by
  cases hc : n.engine.commits E ev with
  | none => rwa [next_event_of_none hc] at h
  | some c =>
    rw [next_event_of_some hc] at h
    obtain ⟨x, hx⟩ := h
    exact ⟨x, (commitBlock_lookup.mp hx).2.2⟩

theorem keyed_next (hk : Keyed n.engine.state) : Keyed (n.next E (.event ord ev)).engine.state := by
  cases hc : n.engine.commits E ev with
  | none => rwa [next_event_of_none hc]
  | some c =>
    obtain ⟨log, hcounted, -, -⟩ := commits_counted hk hc
    rw [next_event_of_some hc]
    exact hcounted.keyed

/-- What waits goes on waiting until its nonce is used, and a used nonce stays so. -/
theorem kept_next (hw : n.Waiting E) (hk : Keyed n.engine.state) (hd : NoCollision E S)
    (hS : ∀ tx, n.mempool.IsPending tx → S tx) (hc : n.Commits E S ev) (h : n.mempool.IsPending tx ∨ n.Used tx) :
    (n.next E (.event ord ev)).mempool.IsPending tx ∨ (n.next E (.event ord ev)).Used tx := by
  cases hcommits : n.engine.commits E ev with
  | none => rwa [next_event_of_none hcommits]
  | some c =>
    obtain ⟨hblock, hfew⟩ := hc c hcommits
    rw [next_event_of_some hcommits]
    have hused : (n.commitBlock E ord c.1 c.2).Used tx ↔ tx.nonce.toNat ≤ (nonceOf c.2 tx.sender).toNat :=
      UInt64.le_iff_toNat_le
    rw [hused]
    rcases h with hp | hle
    · by_cases hstays : (n.commitBlock E ord c.1 c.2).mempool.IsPending tx
      · exact .inl hstays
      · have hdistinct : HashesDistinct E n.mempool c.1 := fun t t' ht ht' => hd t t' (hS t ht) (hblock t' ht')
        exact .inr (dropped_used hw hk hcommits hdistinct hp hstays (hfew tx.sender))
    · obtain ⟨log, hcounted, -, hsent⟩ := commits_counted hk hcommits
      have hgrows := hcounted.toNat (a := tx.sender) (by rw [hsent]; exact hfew tx.sender)
      have hle := UInt64.le_iff_toNat_le.mp hle
      exact .inr (by omega)

end PooledEngine

namespace Relay

variable {ι : Type} [DecidableEq ι] {s : Relay ι} {i j : ι} {tx : Transaction} {peers : List ι} {S : Transaction → Prop}
  {log : List (Relayed ι)} {ev : RelayEvent ι} {evs : List (RelayEvent ι)}

/-! ## Once each -/

/-- What clients submit and blocks have is of `S`, and no nonce wraps. -/
def Regular (E : Env) (S : Transaction → Prop) (s : Relay ι) : RelayEvent ι → Prop
  | .submitTx _ tx _ => S tx
  | .engine i _ ev => (s.nodes i).Commits E S ev
  | _ => True

/-- What has been sent on so far waits where it was taken, or its nonce is used there. -/
structure Tracked (E : Env) (S : Transaction → Prop) (s : Relay ι) (log : List (Relayed ι)) : Prop where
  waiting : ∀ i, (s.nodes i).Waiting E
  keyed : ∀ i, Keyed (s.nodes i).engine.state
  flight : ∀ m ∈ s.flight, S m.2
  pending : ∀ i tx, (s.nodes i).mempool.IsPending tx → S tx
  kept : ∀ e ∈ log, (s.nodes e.node).mempool.IsPending e.tx ∨ (s.nodes e.node).Used e.tx
  once : (log.map fun e => (e.node, e.tx)).Nodup

omit [DecidableEq ι] in
theorem Tracked.flight_erase (h : Tracked E S s log) (k : Nat) :
    Tracked E S { s with flight := s.flight.eraseIdx k } log :=
  { h with flight := fun m hm => h.flight m (List.mem_of_mem_eraseIdx hm) }

/-- One node changes, and loses only what is used. -/
theorem Tracked.update {n : PooledEngine} (h : Tracked E S s log) (hw : n.Waiting E) (hk : Keyed n.engine.state)
    (hp : ∀ tx, n.mempool.IsPending tx → S tx)
    (hkept : ∀ tx, (s.nodes i).mempool.IsPending tx ∨ (s.nodes i).Used tx → n.mempool.IsPending tx ∨ n.Used tx) :
    Tracked E S { s with nodes := Function.update s.nodes i n } log where
  waiting := (Function.forall_update_iff _ _).mpr ⟨hw, fun j _ => h.waiting j⟩
  keyed := (Function.forall_update_iff _ fun _ (n : PooledEngine) => Keyed n.engine.state).mpr ⟨hk, fun j _ => h.keyed j⟩
  flight := h.flight
  pending := (Function.forall_update_iff _ fun _ (n : PooledEngine) => ∀ tx, n.mempool.IsPending tx → S tx).mpr
    ⟨hp, fun j _ => h.pending j⟩
  kept e he := by
    dsimp only
    by_cases hi : e.node = i
    · rw [hi, Function.update_self]
      exact hkept e.tx (hi ▸ h.kept e he)
    · rw [Function.update_of_ne hi]
      exact h.kept e he
  once := h.once

omit [DecidableEq ι] in
/-- One more transaction is sent on. -/
theorem Tracked.send (h : Tracked E S s log) (hp : (s.nodes i).mempool.IsPending tx)
    (hnew : ∀ e ∈ log, e.node = i → e.tx ≠ tx) :
    Tracked E S { s with flight := s.flight ++ peers.map fun peer => (peer, tx) } (log ++ [⟨i, tx, peers⟩]) where
  waiting := h.waiting
  keyed := h.keyed
  flight m hm := by
    rcases List.mem_append.mp hm with hm | hm
    · exact h.flight m hm
    · obtain ⟨peer, -, rfl⟩ := List.mem_map.mp hm
      exact h.pending i tx hp
  pending := h.pending
  kept e he := by
    rcases List.mem_append.mp he with he | he
    · exact h.kept e he
    · obtain rfl := List.mem_singleton.mp he
      exact .inl hp
  once := by
    rw [List.map_append, List.nodup_append']
    refine ⟨h.once, List.nodup_singleton _, fun x hx hx' => ?_⟩
    obtain rfl := List.mem_singleton.mp hx'
    obtain ⟨e, he, heq⟩ := List.mem_map.mp hx
    obtain ⟨hnode, htx⟩ := Prod.mk.inj heq
    exact hnew e he hnode htx

theorem Tracked.offered {r : Relay ι × Option (Relayed ι)} (h : Tracked E S s log) (htx : S tx)
    (hr : Offered E s i tx peers r) :
    Tracked E S r.1 (log ++ r.2.toList) := by
  cases hr with
  | refused => simpa using h
  | @taken n hn =>
    have ht := PooledEngine.onSubmitTx_takes hn
    have hupdated := h.update (i := i) ((h.waiting i).onSubmitTx hn) (ht.engine ▸ h.keyed i)
      (fun tx' hp => (ht.pending.mp hp).elim (fun heq => heq ▸ htx) (h.pending i tx'))
      fun tx' hkept => hkept.imp (fun hp => ht.pending.mpr (.inr hp)) fun hused => by rwa [PooledEngine.Used, ht.engine]
    refine hupdated.send ?_ fun e he hnode heq => ?_
    · dsimp only
      rw [Function.update_self]
      exact ht.pending.mpr (.inl rfl)
    · -- What is in the log is not taken again.
      have hkept := h.kept e he
      rw [hnode, heq] at hkept
      exact ht.elsewhere (h.waiting i) hkept

/-- One step. -/
theorem Tracked.step (h : Tracked E S s log) (hd : NoCollision E S) (hev : Regular E S s ev) :
    Tracked E S (s.step E ev).1 (log ++ (s.step E ev).2.toList) := by
  cases ev with
  | submitTx i tx peers => exact h.offered hev (offer_cases s i tx peers)
  | deliver k peers =>
    rw [Relay.step]
    split
    · next i tx hk => exact (h.flight_erase k).offered (h.flight _ (List.mem_of_getElem? hk)) (offer_cases _ i tx peers)
    · simpa using h
  | lose k => simpa [Relay.step] using h.flight_erase k
  | engine i ord ev =>
    rw [Relay.step, Option.toList_none, List.append_nil]
    exact h.update (h.waiting i).next (PooledEngine.keyed_next (h.keyed i))
      (fun tx hp => h.pending i tx (PooledEngine.pending_next hp))
      fun tx hkept => PooledEngine.kept_next (h.waiting i) (h.keyed i) hd (h.pending i) hev hkept

theorem Tracked.run (h : Tracked E S s log) (hd : NoCollision E S) (hreg : AllAlong E (Regular E S) s evs) :
    Tracked E S (run E s evs).1 (log ++ (run E s evs).2) := by
  induction evs generalizing s log with
  | nil => simpa [Relay.run] using h
  | cons ev evs ih =>
    have hrest := ih (h.step hd hreg.1) hreg.2
    rwa [List.append_assoc] at hrest

/-- Pools are empty, and nothing is on its way. -/
structure Quiet (s : Relay ι) : Prop where
  pools : ∀ i, (s.nodes i).mempool.txs = ∅
  keyed : ∀ i, Keyed (s.nodes i).engine.state
  flight : s.flight = []

omit [DecidableEq ι] in
theorem Quiet.tracked (h : s.Quiet) : Tracked E S s [] := by
  have hnone : ∀ i tx, ¬ (s.nodes i).mempool.IsPending tx := by
    rintro i tx ⟨x, hx⟩
    rw [h.pools] at hx
    cases hx
  refine ⟨fun i => ⟨fun x tx hx => absurd ⟨x, hx⟩ (hnone i tx), fun tx hp => absurd hp (hnone i tx)⟩, h.keyed,
    fun m hm => ?_,
    fun i tx hp => absurd hp (hnone i tx), fun e he => absurd he List.not_mem_nil, List.nodup_nil⟩
  rw [h.flight] at hm
  cases hm

/-- **The sending stops**: no node sends a transaction on twice, whoever submits
it again and whatever is committed in between, `Add` taken as one step. So the
calls that are made for one are no more than there are connections. -/
theorem relayed_once [Fintype ι] (hs : s.Quiet) (hd : NoCollision E S) (hreg : AllAlong E (Regular E S) s evs)
    (tx : Transaction)
    (degree : ι → Nat) (hdegree : ∀ e ∈ (run E s evs).2, e.tx = tx → e.peers.length ≤ degree e.node) :
    ((run E s evs).2.map fun e => (e.node, e.tx)).Nodup ∧
      (((run E s evs).2.filter fun e => e.tx = tx).map fun e => e.peers.length).sum ≤ ∑ i, degree i := by
  have honce := (hs.tracked.run hd hreg).once
  rw [List.nil_append] at honce
  refine ⟨honce, ?_⟩
  -- The nodes that have sent it on.
  have hnodes : (((run E s evs).2.filter fun e => e.tx = tx).map (·.node)).Nodup := by
    have hfiltered := (List.filter_sublist (p := fun e : Relayed ι => e.tx = tx) (l := (run E s evs).2)).map fun e =>
      (e.node, e.tx)
    refine List.Nodup.of_map (fun i => (i, tx)) ?_
    rw [List.map_map]
    have hsame : ((run E s evs).2.filter fun e => e.tx = tx).map ((fun i => (i, tx)) ∘ (·.node)) =
        ((run E s evs).2.filter fun e => e.tx = tx).map fun e => (e.node, e.tx) := by
      refine List.map_congr_left fun e he => ?_
      rw [← of_decide_eq_true (List.mem_filter.mp he).2]
      rfl
    rw [hsame]
    exact honce.sublist hfiltered
  calc (((run E s evs).2.filter fun e => e.tx = tx).map fun e => e.peers.length).sum
      ≤ (((run E s evs).2.filter fun e => e.tx = tx).map fun e => degree e.node).sum := by
        refine List.sum_le_sum fun e he => ?_
        obtain ⟨he, htx⟩ := List.mem_filter.mp he
        exact hdegree e he (of_decide_eq_true htx)
    _ = ((((run E s evs).2.filter fun e => e.tx = tx).map (·.node)).map degree).sum := by rw [List.map_map]; rfl
    _ = ∑ i ∈ (((run E s evs).2.filter fun e => e.tx = tx).map (·.node)).toFinset, degree i :=
      (List.sum_toFinset degree hnodes).symm
    _ ≤ ∑ i, degree i := Finset.sum_le_sum_of_subset (Finset.subset_univ _)

/-! ## Everywhere -/

end Relay

namespace PooledEngine

variable {n n' : PooledEngine} {tx : Transaction} {S : Transaction → Prop}

/-- The transaction can be taken: it is signed, its sender can pay for it and
has not used its nonce, and there is room, or it waits already. -/
structure Admits (E : Env) (n : PooledEngine) (tx : Transaction) : Prop where
  sender : addressFromPublicKey E tx.pubKey = tx.sender
  signed : verify E tx.pubKey tx.signableBytes tx.signature = true
  account : ∃ acct, n.engine.state.getAccount tx.sender = some acct ∧ tx.amount ≤ acct.balance ∧ acct.nonce < tx.nonce
  room : n.mempool.IsPending tx ∨ (n.mempool.size : Int) < n.mempool.maxSize.toInt

/-- So it is, unless it waits already. -/
theorem Admits.onSubmitTx (h : n.Admits E tx) (hw : n.Waiting E) (hd : NoCollision E S)
    (hS : ∀ tx, n.mempool.IsPending tx → S tx)
    (htx : S tx) : n.mempool.IsPending tx ∨ ∃ n', n.onSubmitTx E tx = .ok n' := by
  by_cases hp : n.mempool.IsPending tx
  · exact .inl hp
  · obtain ⟨acct, hg, hbalance, hnonce⟩ := h.account
    have hnew : n.mempool.has (tx.hash E) = false := by
      rw [Mempool.has, Bool.eq_false_iff]
      intro hsome
      obtain ⟨tx', hl⟩ := Option.isSome_iff_exists.mp hsome
      have heq := hd.eq (hS tx' ⟨_, hl⟩) htx (hw.hashed _ _ hl).symm
      exact hp ⟨_, heq ▸ hl⟩
    refine .inr ⟨{ n with mempool := { n.mempool with
      stateChecker := some n.engine.state.getAccount
      txs := n.mempool.txs.insert (tx.hash E) tx } }, ?_⟩
    simp only [PooledEngine.onSubmitTx, Mempool.add, Except.bind_ok_iff, Except.pure_ok_iff, Except.throwIf_ok_iff,
      Mempool.setStateChecker, Mempool.checkSender, Except.orThrow_ok_iff, UInt64.not_le]
    have hroom := h.room.resolve_left hp
    refine ⟨_, ⟨(), by simp [h.sender], (), by simp [h.signed], (), ⟨acct, hg, (), ?_, hnonce⟩, (), ?_, (), ?_, rfl⟩, rfl⟩
    · rintro ⟨-, hlt⟩
      exact absurd hlt (UInt64.not_lt.mpr hbalance)
    · exact Except.throwIf_ok_iff.mpr (Bool.eq_false_iff.mp hnew)
    · exact Except.throwIf_ok_iff.mpr (not_le.mpr hroom)

/-- A commit leaves it, if it is not in the block. -/
theorem pending_kept {ord : MapRange Hash Transaction} {ev : Event} (hw : n.Waiting E) (hd : NoCollision E S)
    (hS : ∀ tx, n.mempool.IsPending tx → S tx) (hc : n.Commits E S ev) (hadmits : (n.next E (.event ord ev)).Admits E tx)
    (hout : ∀ c, n.engine.commits E ev = some c → tx ∉ c.1.transactions) (hp : n.mempool.IsPending tx) :
    (n.next E (.event ord ev)).mempool.IsPending tx := by
  cases hcommits : n.engine.commits E ev with
  | none => rwa [next_event_of_none hcommits]
  | some c =>
    rw [next_event_of_some hcommits] at hadmits ⊢
    obtain ⟨acct, hg, -, hnonce⟩ := hadmits.account
    obtain ⟨x, hl⟩ := hp
    refine ⟨x, commitBlock_lookup.mpr ⟨⟨acct, hg, hnonce⟩, fun hx => ?_, hl⟩⟩
    obtain ⟨tx', htx', hhash⟩ := List.mem_map.mp hx
    have heq := hd.eq ((hc c hcommits).1 tx' htx') (hS tx ⟨x, hl⟩) (by rw [hhash, hw.hashed x tx hl])
    exact hout c hcommits (heq ▸ htx')

end PooledEngine

namespace Relay

variable {ι : Type} [DecidableEq ι] {s : Relay ι} {i j : ι} {tx : Transaction} {peers : List ι} {S : Transaction → Prop}
  {log : List (Relayed ι)} {ev : RelayEvent ι} {evs : List (RelayEvent ι)} {nbrs : ι → Finset ι}

/-- A step that does not get in the way of the transaction: calls with it are
not lost, who takes it is connected to its neighbours, no block has it yet, and
every node can take it afterwards. -/
structure Spreads (E : Env) (nbrs : ι → Finset ι) (tx : Transaction) (s : Relay ι) (ev : RelayEvent ι) : Prop where
  connected : ∀ e ∈ (s.step E ev).2, e.tx = tx → ∀ j ∈ nbrs e.node, j ∈ e.peers
  arrives : ∀ k, ev = .lose k → ∀ m ∈ s.flight[k]?, m.2 ≠ tx
  waits : ∀ i ord ev', ev = .engine i ord ev' → ∀ c, (s.nodes i).engine.commits E ev' = some c → tx ∉ c.1.transactions
  admits : ∀ i, ((s.step E ev).1.nodes i).Admits E tx

/-- Whoever has the transaction has told its neighbours, or is telling them. -/
structure Spreading (E : Env) (S : Transaction → Prop) (nbrs : ι → Finset ι) (tx : Transaction) (s : Relay ι)
    (log : List (Relayed ι)) :
    Prop where
  tracked : Tracked E S s log
  admits : ∀ i, (s.nodes i).Admits E tx
  told : ∀ i, (s.nodes i).mempool.IsPending tx → ∀ j ∈ nbrs i, (s.nodes j).mempool.IsPending tx ∨ (j, tx) ∈ s.flight

/-- What waits after a transaction was offered. -/
theorem Offered.pending {r : Relay ι × Option (Relayed ι)} {tx' : Transaction} (hr : Offered E s i tx' peers r) :
    (r.1.nodes j).mempool.IsPending tx ↔ (r.2 = some ⟨i, tx', peers⟩ ∧ j = i ∧ tx = tx') ∨
    (s.nodes j).mempool.IsPending tx := by
  cases hr with
  | refused => simp
  | @taken n hn =>
    have ht := PooledEngine.onSubmitTx_takes hn
    by_cases hj : j = i
    · subst hj
      dsimp only
      rw [Function.update_self, ht.pending]
      simp
    · dsimp only
      rw [Function.update_of_ne hj]
      simp [hj]

theorem Offered.flight {r : Relay ι × Option (Relayed ι)} (hr : Offered E s i tx peers r) {m : ι × Transaction} :
    m ∈ r.1.flight ↔ m ∈ s.flight ∨ r.2 = some ⟨i, tx, peers⟩ ∧ ∃ peer ∈ peers, (peer, tx) = m := by
  cases hr with
  | refused => simp
  | taken => simp

/-- A transaction is offered to a node that may be one that has just been called. -/
theorem Spreading.offered {r : Relay ι × Option (Relayed ι)} {tx' : Transaction} (ht : Tracked E S s log)
    (hd : NoCollision E S)
    (hadmits : (s.nodes i).Admits E tx) (hr : Offered E s i tx' peers r) (htx' : S tx')
    (hconnected : ∀ e ∈ r.2, e.tx = tx → ∀ j ∈ nbrs e.node, j ∈ e.peers)
    (htold : ∀ a, (s.nodes a).mempool.IsPending tx → ∀ j ∈ nbrs a,
      (s.nodes j).mempool.IsPending tx ∨ (j, tx) ∈ s.flight ∨ j = i ∧ tx = tx') :
    ∀ a, (r.1.nodes a).mempool.IsPending tx → ∀ j ∈ nbrs a, (r.1.nodes j).mempool.IsPending tx ∨
    (j, tx) ∈ r.1.flight := by
  have hkept : ∀ j, (s.nodes j).mempool.IsPending tx → (r.1.nodes j).mempool.IsPending tx :=
    fun j hj => hr.pending.mpr (.inr hj)
  -- Who is offered the transaction has it then.
  have hoffered : tx = tx' → (r.1.nodes i).mempool.IsPending tx := by
    rintro rfl
    rcases hadmits.onSubmitTx (ht.waiting i) hd (ht.pending i) htx' with hp | ⟨n, hn⟩
    · exact hkept i hp
    · cases hr with
      | refused herr =>
        rw [hn] at herr
        cases herr
      | taken hn' => exact (Offered.taken hn').pending.mpr (.inl ⟨rfl, rfl, rfl⟩)
  intro a ha j hj
  rcases hr.pending.mp ha with ⟨hsome, rfl, rfl⟩ | hold
  · have hpeer := hconnected _ hsome rfl j hj
    exact .inr (hr.flight.mpr (.inr ⟨hsome, j, hpeer, rfl⟩))
  · rcases htold a hold j hj with hp | hm | ⟨rfl, heq⟩
    · exact .inl (hkept j hp)
    · exact .inr (hr.flight.mpr (.inl hm))
    · exact .inl (hoffered heq)

theorem Spreading.step (h : Spreading E S nbrs tx s log) (hd : NoCollision E S) (hreg : Regular E S s ev)
    (hspreads : Spreads E nbrs tx s ev) : Spreading E S nbrs tx (s.step E ev).1 (log ++ (s.step E ev).2.toList) := by
  refine ⟨h.tracked.step hd hreg, hspreads.admits, ?_⟩
  have hconnected := hspreads.connected
  cases ev with
  | submitTx i tx' peers =>
    refine Spreading.offered h.tracked hd (h.admits i) (offer_cases s i tx' peers) hreg hconnected fun a ha j hj => ?_
    exact (h.told a ha j hj).imp_right .inl
  | deliver k peers =>
    rw [Relay.step] at hconnected ⊢
    split at hconnected
    · next i tx' hk =>
      refine Spreading.offered (h.tracked.flight_erase k) hd (h.admits i) (offer_cases _ i tx' peers)
        (h.tracked.flight _ (List.mem_of_getElem? hk)) hconnected fun a ha j hj => ?_
      refine (h.told a ha j hj).imp_right fun hm => ?_
      -- The call is still on its way, or it is the one that arrives.
      obtain ⟨k', hk'⟩ := List.getElem?_of_mem hm
      by_cases hsame : k' = k
      · subst hsame
        rw [hk] at hk'
        obtain ⟨rfl, rfl⟩ := Prod.mk.inj (Option.some.inj hk')
        exact .inr ⟨rfl, rfl⟩
      · exact .inl (List.mem_eraseIdx_iff_getElem?.mpr ⟨k', hsame, hk'⟩)
    · exact h.told
  | lose k =>
    intro a ha j hj
    refine (h.told a ha j hj).imp_right fun hm => ?_
    obtain ⟨k', hk'⟩ := List.getElem?_of_mem hm
    refine List.mem_eraseIdx_iff_getElem?.mpr ⟨k', fun hsame => ?_, hk'⟩
    subst hsame
    exact hspreads.arrives k' rfl (j, tx) hk' rfl
  | engine i ord ev' =>
    have hkept : ∀ j, (s.nodes j).mempool.IsPending tx →
        ((s.step E (.engine i ord ev')).1.nodes j).mempool.IsPending tx := by
      intro j hp
      by_cases hj : j = i
      · subst hj
        have hadmits := hspreads.admits j
        simp only [Relay.step, Function.update_self] at hadmits ⊢
        exact PooledEngine.pending_kept (h.tracked.waiting j) hd (h.tracked.pending j) hreg hadmits
          (hspreads.waits j ord ev' rfl) hp
      · simp only [Relay.step, Function.update_of_ne hj]
        exact hp
    intro a ha j hj
    have hbefore : (s.nodes a).mempool.IsPending tx := by
      by_cases hai : a = i
      · subst hai
        simp only [Relay.step, Function.update_self] at ha
        exact PooledEngine.pending_next ha
      · simpa only [Relay.step, Function.update_of_ne hai] using ha
    exact (h.told a hbefore j hj).imp_left (hkept j)

theorem Spreading.run (h : Spreading E S nbrs tx s log) (hd : NoCollision E S) (hreg : AllAlong E (Regular E S) s evs)
    (hspreads : AllAlong E (Spreads E nbrs tx) s evs) :
    Spreading E S nbrs tx (run E s evs).1 (log ++ (run E s evs).2) := by
  induction evs generalizing s log with
  | nil => simpa [Relay.run] using h
  | cons ev evs ih =>
    have hrest := ih (h.step hd hreg.1 hspreads.1) hreg.2 hspreads.2
    rwa [List.append_assoc] at hrest

/-- **A transaction reaches everyone**: once no call with it is on its way any
more, it waits at every node that connections lead to from one that took it. All
pools were empty at first, and no two transactions collide. -/
theorem relay_reaches (hs : s.Quiet) (hd : NoCollision E S) (hreg : AllAlong E (Regular E S) s evs)
    (hadmits : ∀ i, (s.nodes i).Admits E tx) (hspreads : AllAlong E (Spreads E nbrs tx) s evs)
    (hend : ∀ j, (j, tx) ∉ (run E s evs).1.flight) {e : Relayed ι} (he : e ∈ (run E s evs).2) (htx : e.tx = tx)
    (hpath : Relation.ReflTransGen (fun i j => j ∈ nbrs i) e.node j) :
    ((run E s evs).1.nodes j).mempool.IsPending tx := by
  have hnone : ∀ i, ¬ (s.nodes i).mempool.IsPending tx := by
    rintro i ⟨x, hx⟩
    rw [hs.pools] at hx
    cases hx
  have hstart : Spreading E S nbrs tx s [] := ⟨hs.tracked, hadmits, fun i hp => absurd hp (hnone i)⟩
  have hspreading := hstart.run hd hreg hspreads
  rw [List.nil_append] at hspreading
  induction hpath with
  | refl =>
    -- Who took it has not used its nonce since.
    rcases hspreading.tracked.kept e he with hp | hused
    · exact htx ▸ hp
    · obtain ⟨acct, hg, -, hnonce⟩ := (hspreading.admits e.node).account
      rw [htx, PooledEngine.Used, nonceOf_of hg] at hused
      exact absurd hnonce (UInt64.not_lt.mpr hused)
  | tail _ hstep ih => exact (hspreading.told _ ih _ hstep).resolve_right (hend _)

/-! ## Two nodes -/

section

open Sample

variable {m n : PooledEngine} {err : String}

def both (m n : PooledEngine) : Bool → PooledEngine := fun i => bif i then n else m

/-- The first node is given a transaction, and the second sends it back. -/
def toAndFro (tx : Transaction) : List (RelayEvent Bool) :=
  [.submitTx false tx [true], .deliver 0 [false], .deliver 0 [true]]

theorem update_both (m n n' : PooledEngine) (i : Bool) :
    Function.update (both m n) i n' = both (bif i then m else n') (bif i then n' else n) := by
  cases i with
  | false => exact funext fun j => by cases j <;> rfl
  | true => exact funext fun j => by cases j <;> rfl

theorem toAndFro_steps (htakes : m.onSubmitTx E tx = .ok n) (hrefuses : n.onSubmitTx E tx = .error err) :
    (⟨both m m, []⟩ : Relay Bool).step E (.submitTx false tx [true]) =
      (⟨both n m, [(true, tx)]⟩, some ⟨false, tx, [true]⟩) ∧
      (⟨both n m, [(true, tx)]⟩ : Relay Bool).step E (.deliver 0 [false]) =
        (⟨both n n, [(false, tx)]⟩, some ⟨true, tx, [false]⟩) ∧
      (⟨both n n, [(false, tx)]⟩ : Relay Bool).step E (.deliver 0 [true]) = (⟨both n n, []⟩, none) := by
  have hfirst : both m m false = m ∧ both n m true = m ∧ both n n false = n := ⟨rfl, rfl, rfl⟩
  refine ⟨?_, ?_, ?_⟩
  · simp [step, offer, hfirst.1, htakes, update_both]
  · simp [step, offer, hfirst.2.1, htakes, update_both]
  · simp [step, offer, hfirst.2.2, hrefuses]

theorem toAndFro_run (htakes : m.onSubmitTx E tx = .ok n) (hrefuses : n.onSubmitTx E tx = .error err) :
    run E ⟨both m m, []⟩ (toAndFro tx) = (⟨both n n, []⟩, [⟨false, tx, [true]⟩, ⟨true, tx, [false]⟩]) := by
  obtain ⟨h₁, h₂, h₃⟩ := toAndFro_steps htakes hrefuses
  simp [toAndFro, run, h₁, h₂, h₃]

theorem toAndFro_regular : AllAlong E (Regular E (· = tx)) ⟨both m m, []⟩ (toAndFro tx) :=
  ⟨rfl, trivial, trivial, trivial⟩

theorem Spreads.of_step {ι : Type} [DecidableEq ι] {s s' : Relay ι} {ev : RelayEvent ι} {r : Option (Relayed ι)}
    {nbrs : ι → Finset ι}
    (h : s.step E ev = (s', r)) (hev : (∃ i tx peers, ev = .submitTx i tx peers) ∨ ∃ k peers, ev = .deliver k peers)
    (hconnected : ∀ e ∈ r, e.tx = tx → ∀ j ∈ nbrs e.node, j ∈ e.peers) (hadmits : ∀ i, (s'.nodes i).Admits E tx) :
    Spreads E nbrs tx s ev where
  connected := by rwa [h]
  arrives k hk := by
    subst hk
    rcases hev with ⟨_, _, _, hev⟩ | ⟨_, _, hev⟩
    · cases hev
    · cases hev
  waits i ord ev' hev' := by
    subst hev'
    rcases hev with ⟨_, _, _, hev⟩ | ⟨_, _, hev⟩
    · cases hev
    · cases hev
  admits := by rwa [h]

theorem toAndFro_spreads (htakes : m.onSubmitTx E tx = .ok n) (hrefuses : n.onSubmitTx E tx = .error err)
    (hm : m.Admits E tx) (hn : n.Admits E tx) :
    AllAlong E (Spreads E (fun i => {!i}) tx) ⟨both m m, []⟩ (toAndFro tx) := by
  obtain ⟨h₁, h₂, h₃⟩ := toAndFro_steps htakes hrefuses
  have hadmits : ∀ n', n'.Admits E tx → ∀ i, (both n n' i).Admits E tx := by
    intro n' hn' i
    cases i with
    | false => exact hn
    | true => exact hn'
  simp only [toAndFro, AllAlong, h₁, h₂, and_true]
  refine ⟨.of_step h₁ (.inl ⟨_, _, _, rfl⟩) ?_ (hadmits m hm), .of_step h₂ (.inr ⟨_, _, rfl⟩) ?_ (hadmits n hn),
    .of_step h₃ (.inr ⟨_, _, rfl⟩) ?_ (hadmits n hn)⟩
  · simp
  · simp
  · simp

/-- The umpire, once it has taken the transfer. -/
def umpireServed : PooledEngine := umpire.run env served

theorem umpire_takes : umpire.onSubmitTx env (transfer 1 2 1) = .ok umpireServed := by
  have hok : (umpire.onSubmitTx env (transfer 1 2 1)).isOk = true := by decide +kernel
  obtain ⟨n, hn⟩ := Except.exists_ok hok
  rw [umpireServed, served, PooledEngine.run, List.foldl_cons, List.foldl_nil, PooledEngine.next, hn]
  rfl

theorem takes_refuses (htakes : m.onSubmitTx E tx = .ok n) : ∃ err, n.onSubmitTx E tx = .error err := by
  cases h : n.onSubmitTx E tx with
  | error err => exact ⟨err, rfl⟩
  | ok n' =>
    have hnew := (PooledEngine.onSubmitTx_takes h).new
    rw [(PooledEngine.onSubmitTx_takes htakes).txs, Finmap.lookup_insert] at hnew
    cases hnew

theorem umpire_admits (hengine : n.engine = umpire.engine)
    (hroom : n.mempool.IsPending (transfer 1 2 1) ∨ (n.mempool.size : Int) < n.mempool.maxSize.toInt) :
    n.Admits env (transfer 1 2 1) := by
  refine ⟨by decide +kernel, by decide +kernel, ⟨{ address := address 1, balance := 1 }, ?_, by decide, by decide⟩, hroom⟩
  rw [hengine]
  decide +kernel

theorem umpires_quiet : Quiet ⟨both umpire umpire, []⟩ := by
  have hok : (initializeState env umpired).isOk = true := umpire_run.1
  have hkeyed : Keyed umpire.engine.state := (initializeState_indexed (Except.ok_value hok)).keyed
  refine ⟨fun i => ?_, fun i => ?_, rfl⟩
  · cases i <;> rfl
  · cases i <;> exact hkeyed

/-- Both send the transfer on, once. -/
theorem relayed_once_umpires :
    ((run env ⟨both umpire umpire, []⟩ (toAndFro (transfer 1 2 1))).2.map fun e => (e.node, e.tx)).Nodup := by
  obtain ⟨err, hrefuses⟩ := takes_refuses umpire_takes
  have hd : NoCollision env (· = transfer 1 2 1) := by
    rintro _ _ rfl rfl _
    rfl
  have hdegree : ∀ e ∈ (run env ⟨both umpire umpire, []⟩ (toAndFro (transfer 1 2 1))).2, e.tx = transfer 1 2 1 →
      e.peers.length ≤ 1 := by
    rw [toAndFro_run umpire_takes hrefuses]
    simp
  exact (relayed_once umpires_quiet hd toAndFro_regular _ (fun _ => 1) hdegree).1

/-- The transfer waits at the second node, too. -/
theorem relay_reaches_umpires :
    ((run env ⟨both umpire umpire, []⟩ (toAndFro (transfer 1 2 1))).1.nodes true).mempool.IsPending (transfer 1 2 1) := by
  obtain ⟨err, hrefuses⟩ := takes_refuses umpire_takes
  have htakes := PooledEngine.onSubmitTx_takes umpire_takes
  have hd : NoCollision env (· = transfer 1 2 1) := by
    rintro _ _ rfl rfl _
    rfl
  have hm := umpire_admits rfl (.inr (by decide +kernel))
  have hn := umpire_admits htakes.engine (.inl (htakes.pending.mpr (.inl rfl)))
  have hrun := toAndFro_run umpire_takes hrefuses
  have hall : ∀ i, (both umpire umpire i).Admits env (transfer 1 2 1) := by
    intro i
    cases i <;> exact hm
  have hnone : ∀ j, (j, transfer 1 2 1) ∉ (run env ⟨both umpire umpire, []⟩ (toAndFro (transfer 1 2 1))).1.flight := by
    rw [hrun]
    exact fun j => List.not_mem_nil
  have hfirst : (⟨false, transfer 1 2 1, [true]⟩ : Relayed Bool) ∈
      (run env ⟨both umpire umpire, []⟩ (toAndFro (transfer 1 2 1))).2 := by
    rw [hrun]
    exact List.mem_cons_self
  exact relay_reaches umpires_quiet hd toAndFro_regular hall (toAndFro_spreads umpire_takes hrefuses hm hn) hnone hfirst
    rfl
    (.single (Finset.mem_singleton_self true))

end

end Relay

end Drana
