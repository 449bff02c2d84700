/-
What reaping leaves behind (`ReapForBlock` of `internal/mempool/mempool.go`).
A walk stays at the head of a queue until that is valid, so a head that never
will be, for a nonce that is used, hides what is behind it.
-/
import Drana.Mempool

namespace Drana

/-- The nonce of an account; a new account starts at zero. -/
def StateReader.nonceOf (sr : StateReader) (a : Address) : UInt64 := ((sr.getAccount a).map (·.nonce)).getD 0

namespace Mempool

variable {E : Env} {params : GenesisConfig} {ord : MapRange Address Account} {maxTx : Int} {r r' : Reaped}
  {qs qs' : List (List Transaction)} {tx : Transaction}

/-! ## The walk -/

/-- The head of a queue is valid and is taken. -/
inductive Taking (E : Env) (params : GenesisConfig) (ord : MapRange Address Account) :
    Reaped × List (List Transaction) → Reaped × List (List Transaction) → Prop
  | head {r tx txs l l'} (h : validateTransaction E tx (r.spec.reader ord) params = .ok ()) :
    Taking E params ord (r, l ++ (tx :: txs) :: l') (r.take tx, l ++ txs :: l')

abbrev Walked (E : Env) (params : GenesisConfig) (ord : MapRange Address Account) :=
  Relation.ReflTransGen (Taking E params ord)

/-- No head is valid. -/
def Stuck (E : Env) (params : GenesisConfig) (ord : MapRange Address Account) (r : Reaped)
    (qs : List (List Transaction)) : Prop :=
  ∀ q ∈ qs, ∀ tx ∈ q.head?, validateTransaction E tx (r.spec.reader ord) params ≠ .ok ()

theorem isOk_iff {x : Except String Unit} : x.isOk = true ↔ x = .ok () := by
  cases x with
  | ok u => simp [Except.isOk, Except.toBool]
  | error e => simp [Except.isOk, Except.toBool]

/-- A pass takes one head at least, if it says so; and it says so unless it is stuck. -/
theorem reapPass_spec {changed : Bool} (h : reapPass E params ord maxTx r qs = (r', qs', changed)) :
    qs'.flatten.length + (if changed then 1 else 0) ≤ qs.flatten.length ∧
    (changed = false → r' = r ∧ Stuck E params ord r qs) := by
  induction qs generalizing r qs' changed with
  | nil =>
    cases h
    exact ⟨Nat.le_refl _, fun _ => ⟨rfl, fun q hq => absurd hq List.not_mem_nil⟩⟩
  | cons q qs ih =>
    cases q with
    | nil =>
      rcases hp : reapPass E params ord maxTx r qs with ⟨r₁, qs₁, changed₁⟩
      rw [reapPass, hp] at h
      cases h
      obtain ⟨hlen, hstuck⟩ := ih hp
      refine ⟨hlen, fun h => ?_⟩
      obtain ⟨hr, hstuck⟩ := hstuck h
      refine ⟨hr, fun q hq tx htx => ?_⟩
      rcases List.mem_cons.mp hq with rfl | hq
      · cases htx
      · exact hstuck q hq tx htx
    | cons tx txs =>
      rw [reapPass] at h
      split at h
      · split at h
        · cases h
          exact ⟨by simp, fun h => by cases h⟩
        · rcases hp : reapPass E params ord maxTx (r.take tx) qs with ⟨r₁, qs₁, changed₁⟩
          rw [hp] at h
          cases h
          obtain ⟨hlen, -⟩ := ih hp
          refine ⟨?_, fun h => by cases h⟩
          simp only [List.flatten_cons, List.length_append, List.length_cons, if_true]
          omega
      · next hv =>
        rcases hp : reapPass E params ord maxTx r qs with ⟨r₁, qs₁, changed₁⟩
        rw [hp] at h
        cases h
        obtain ⟨hlen, hstuck⟩ := ih hp
        refine ⟨?_, fun h => ?_⟩
        · simp only [List.flatten_cons, List.length_append]
          omega
        · obtain ⟨hr, hstuck⟩ := hstuck h
          refine ⟨hr, fun q hq tx' htx => ?_⟩
          rcases List.mem_cons.mp hq with rfl | hq
          · cases htx
            exact fun hok => hv (isOk_iff.mpr hok)
          · exact hstuck q hq tx' htx

/-! ## The queues -/

section

variable {o : ReapOrder} {pending : List Transaction}

theorem bySender_append (l l' : List Transaction) :
    bySender (l ++ l') = l'.foldl (fun m tx => m.insert tx.sender ((m.lookup tx.sender).getD [] ++ [tx])) (bySender l) :=
  List.foldl_append

theorem lookup_bySender (a : Address) :
    ((bySender pending).lookup a).getD [] = pending.filter (·.sender = a) := by
  induction pending using List.reverseRecOn with
  | nil => rfl
  | append_singleton l tx ih =>
    rw [bySender_append, List.foldl_cons, List.foldl_nil, List.filter_append]
    by_cases ha : tx.sender = a
    · subst ha
      rw [Finmap.lookup_insert, ih]
      simp
    · rw [Finmap.lookup_insert_of_ne _ (Ne.symm ha), ih]
      simp [ha]

theorem count_bySender (tx : Transaction) :
    (bySender pending).total (fun _ l => l.count tx) = pending.count tx := by
  induction pending using List.reverseRecOn with
  | nil => rfl
  | append_singleton l tx' ih =>
    rw [bySender_append, List.foldl_cons, List.foldl_nil, List.count_append]
    have hinsert := @GoMap.total_insert _ _ _ (fun (_ : Address) l => List.count tx l) (bySender l) tx'.sender
      (((bySender l).lookup tx'.sender).getD [] ++ [tx'])
    have hat : GoMap.at (fun _ l => List.count tx l) tx'.sender (bySender l) =
        (((bySender l).lookup tx'.sender).getD []).count tx := by
      cases hl : (bySender l).lookup tx'.sender with
      | none => simp [GoMap.at, hl]
      | some q => simp [GoMap.at, hl]
    rw [hat, List.count_append] at hinsert
    omega

/-- The queues hold the pending transactions, each as often as the pool. -/
theorem senderQueues_perm : (senderQueues o pending).flatten.Perm pending := by
  refine List.perm_iff_count.mpr fun tx => ?_
  rw [← @count_bySender pending tx, ← o.senders.sum_list, List.count_flatten, senderQueues, List.map_map]
  refine congrArg List.sum (List.map_congr_left fun e _ => ?_)
  exact (List.perm_insertionSort _ _).count_eq tx

instance : Std.Total fun a b : Transaction => a.nonce ≤ b.nonce := ⟨fun a b => UInt64.le_total a.nonce b.nonce⟩

instance : IsTrans Transaction fun a b => a.nonce ≤ b.nonce := ⟨fun _ _ _ => UInt64.le_trans⟩

/-- A queue is of one sender and in order of nonces; two queues are of two senders. -/
structure Queued (qs : List (List Transaction)) : Prop where
  ordered : ∀ q ∈ qs, q.Pairwise fun x y => x.sender = y.sender ∧ x.nonce ≤ y.nonce
  apart : qs.Pairwise fun q q' => ∀ x ∈ q, ∀ y ∈ q', x.sender ≠ y.sender

theorem senderQueues_queued : Queued (senderQueues o pending) := by
  have hsender : ∀ e ∈ o.senders.list (bySender pending), ∀ x ∈ e.2.insertionSort fun a b => a.nonce ≤ b.nonce,
      x.sender = e.1 := by
    intro e he x hx
    have hl := MapRange.mem_list.mp he
    have hq := @lookup_bySender pending e.1
    rw [hl, Option.getD_some] at hq
    have hx := (List.mem_insertionSort _).mp hx
    rw [hq] at hx
    simpa using (List.mem_filter.mp hx).2
  constructor
  · intro q hq
    obtain ⟨e, he, rfl⟩ := List.mem_map.mp hq
    refine (List.pairwise_insertionSort (fun a b : Transaction => a.nonce ≤ b.nonce) e.2).imp_of_mem ?_
    intro x y hx hy hle
    exact ⟨(hsender e he x hx).trans (hsender e he y hy).symm, hle⟩
  · have hkeys := List.pairwise_map.mp (@MapRange.nodup_keys _ _ o.senders (bySender pending) )
    refine List.pairwise_map.mpr (hkeys.imp_of_mem ?_)
    intro e e' he he' hne x hx y hy
    rw [hsender e he x hx, hsender e' he' y hy]
    exact hne

/-- Taking a head leaves the queues as they are otherwise. -/
theorem Queued.tail {tx : Transaction} {txs : List Transaction} {l l' : List (List Transaction)}
    (h : Queued (l ++ (tx :: txs) :: l')) : Queued (l ++ txs :: l') := by
  obtain ⟨hordered, hapart⟩ := h
  constructor
  · intro q hq
    rcases List.mem_append.mp hq with hq | hq
    · exact hordered q (by simp [hq])
    · rcases List.mem_cons.mp hq with rfl | hq
      · exact (List.pairwise_cons.mp (hordered (tx :: q) (by simp))).2
      · exact hordered q (by simp [hq])
  · rw [List.pairwise_append, List.pairwise_cons] at hapart ⊢
    obtain ⟨hl, ⟨hhead, hl'⟩, hcross⟩ := hapart
    refine ⟨hl, ⟨fun q hq x hx => hhead q hq x (by simp [hx]), hl'⟩, fun q hq q' hq' => ?_⟩
    rcases List.mem_cons.mp hq' with rfl | hq'
    · exact fun x hx y hy => hcross q hq (tx :: q') (by simp) x hx y (by simp [hy])
    · exact hcross q hq q' (by simp [hq'])

/-- What is left of one sender. -/
def rest (a : Address) (qs : List (List Transaction)) : List Transaction := qs.flatten.filter (·.sender = a)

/-- The head that is taken was the first of its sender, and is of no other. -/
theorem Queued.rest_head {tx : Transaction} {txs : List Transaction} {l l' : List (List Transaction)}
    (h : Queued (l ++ (tx :: txs) :: l')) (a : Address) :
    rest a (l ++ (tx :: txs) :: l') = (if tx.sender = a then [tx] else []) ++ rest a (l ++ txs :: l') := by
  have hbefore (ha : tx.sender = a) : l.flatten.filter (·.sender = a) = [] := by
    rw [List.filter_eq_nil_iff]
    intro x hx hxa
    obtain ⟨q, hq, hx⟩ := List.mem_flatten.mp hx
    have hne := (List.pairwise_append.mp h.apart).2.2 q hq (tx :: txs) (by simp) x hx tx (by simp)
    exact hne ((of_decide_eq_true hxa).trans ha.symm)
  simp only [rest, List.flatten_append, List.flatten_cons, List.filter_append, List.filter_cons, List.cons_append]
  split
  · next ha =>
    have ha : tx.sender = a := of_decide_eq_true ha
    rw [hbefore ha, if_pos ha]
    simp
  · next ha =>
    have ha : ¬ tx.sender = a := fun h => ha (decide_eq_true h)
    rw [if_neg ha]
    simp

end

/-! ## Nonces -/

theorem getAccount_setSpeculative {s : SpeculativeState} {addr a : Address} {acct : Account} :
    (s.setAccount addr acct).getAccount a = if a = addr then some acct else s.getAccount a := by
  simp only [SpeculativeState.getAccount, SpeculativeState.setAccount]
  by_cases h : a = addr
  · subst h
    rw [Finmap.lookup_insert, if_pos rfl]
  · rw [Finmap.lookup_insert_of_ne _ h, if_neg h]

/-- Taking a transaction counts up its sender's nonce, and no other. -/
theorem nonceOf_applyTx {s : SpeculativeState} (h : (s.getAccount tx.sender).isSome = true) (a : Address) :
    ((s.applyTx tx).reader ord).nonceOf a =
      if tx.sender = a then (s.reader ord).nonceOf a + 1 else (s.reader ord).nonceOf a := by
  obtain ⟨acct, hacct⟩ := Option.isSome_iff_exists.mp h
  obtain ⟨s', hs'⟩ : ∃ s', s' = s.setAccount tx.sender
      { acct with nonce := acct.nonce + 1, balance := acct.balance - tx.amount } :=
    ⟨_, rfl⟩
  have hsender : (s'.reader ord).nonceOf a =
      if tx.sender = a then (s.reader ord).nonceOf a + 1 else (s.reader ord).nonceOf a := by
    show ((s'.getAccount a).map (·.nonce)).getD 0 = _
    rw [hs', getAccount_setSpeculative]
    split
    · next ha =>
      subst ha
      rw [if_pos rfl]
      show acct.nonce + 1 = ((s.getAccount tx.sender).map (·.nonce)).getD 0 + 1
      rw [hacct]
      rfl
    · next ha => exact (if_neg (Ne.symm ha)).symm
  rw [SpeculativeState.applyTx, hacct]
  show ((if tx.kind = some .transfer then _ else _ : SpeculativeState).reader ord).nonceOf a = _
  rw [← hs']
  split
  · rw [← hsender]
    show (((s'.setAccount _ _).getAccount a).map (·.nonce)).getD 0 = ((s'.getAccount a).map (·.nonce)).getD 0
    rw [getAccount_setSpeculative]
    split
    · next ha =>
      subst ha
      cases s'.getAccount tx.recipient <;> rfl
    · rfl
  · exact hsender

theorem valid_nonce {sr : StateReader} (h : validateTransaction E tx sr params = .ok ()) :
    (sr.getAccount tx.sender).isSome = true ∧ tx.nonce = sr.nonceOf tx.sender + 1 := by
  obtain ⟨acct, hc, -⟩ := validateTransaction_sender h
  obtain ⟨-, -, hacct, hnonce⟩ := validateCommonNoBalanceCheck_ok hc
  rw [StateReader.nonceOf, hacct]
  exact ⟨rfl, hnonce⟩

/-- Of each sender, what is taken is the beginning of its queue, and its nonces are those after the account's. -/
structure Progress (sr : StateReader) (ord : MapRange Address Account) (qs₀ : List (List Transaction)) (r : Reaped)
    (qs : List (List Transaction)) : Prop where
  queued : Queued qs
  taken : ∀ a, ∃ taken, rest a qs₀ = taken ++ rest a qs ∧ (∀ tx ∈ taken, tx ∈ r.result) ∧
    (∀ i (h : i < taken.length), taken[i].nonce = sr.nonceOf a + UInt64.ofNat (i + 1)) ∧
    (r.spec.reader ord).nonceOf a = sr.nonceOf a + UInt64.ofNat taken.length

theorem ofNat_succ (n : Nat) : UInt64.ofNat (n + 1) = UInt64.ofNat n + 1 := by
  apply UInt64.toNat_inj.mp
  simp

theorem Progress.take {sr : StateReader} {qs₀ : List (List Transaction)} (h : Progress sr ord qs₀ r qs)
    (hstep : Taking E params ord (r, qs) (r', qs')) : Progress sr ord qs₀ r' qs' := by
  cases hstep with
  | @head _ tx txs l l' hv =>
    obtain ⟨hsome, hnonce⟩ := valid_nonce hv
    refine ⟨h.queued.tail, fun a => ?_⟩
    obtain ⟨taken, hrest, hresult, hnonces, hnext⟩ := h.taken a
    rw [h.queued.rest_head a] at hrest
    have happly := @nonceOf_applyTx ord tx r.spec hsome a
    by_cases ha : tx.sender = a
    · subst ha
      rw [if_pos rfl] at hrest happly
      refine ⟨taken ++ [tx], by rw [hrest, List.append_assoc], ?_, fun i hi => ?_, ?_⟩
      · intro tx' htx'
        rcases List.mem_append.mp htx' with htx' | htx'
        · exact List.mem_append_left _ (hresult tx' htx')
        · exact List.mem_append_right _ htx'
      · rcases Nat.lt_or_ge i taken.length with hlt | hge
        · rw [List.getElem_append_left hlt]
          exact hnonces i hlt
        · obtain rfl : i = taken.length := by
            rw [List.length_append, List.length_singleton] at hi
            omega
          simp only [List.getElem_concat_length]
          rw [hnonce, hnext, ofNat_succ, UInt64.add_assoc]
      · show ((r.spec.applyTx tx).reader ord).nonceOf tx.sender = _
        rw [happly, hnext, List.length_append, List.length_singleton, ofNat_succ, UInt64.add_assoc]
    · rw [if_neg ha] at hrest happly
      refine ⟨taken, hrest, fun tx' htx' => List.mem_append_left _ (hresult tx' htx'), hnonces, ?_⟩
      show ((r.spec.applyTx tx).reader ord).nonceOf a = _
      rw [happly, hnext]

theorem Progress.walk {sr : StateReader} {qs₀ : List (List Transaction)} (h : Progress sr ord qs₀ r qs)
    (hw : Walked E params ord (r, qs) (r', qs')) : Progress sr ord qs₀ r' qs' := by
  suffices hall : ∀ w w', Walked E params ord w w' → Progress sr ord qs₀ w.1 w.2 → Progress sr ord qs₀ w'.1 w'.2 from
    hall _ _ hw h
  intro w w' hw h
  induction hw with
  | refl => exact h
  | tail _ hstep ih => exact ih.take hstep

/-! ## What is left behind -/

section

variable {m : Mempool} {sr : StateReader} {o : ReapOrder}

/-- The pending transactions, in the order of the pool. -/
def pendingList (o : ReapOrder) (m : Mempool) : List Transaction := (o.pending.list m.txs).map (·.2)

theorem mem_pendingList : tx ∈ pendingList o m ↔ ∃ txHash, m.txs.lookup txHash = some tx := by
  simp only [pendingList, List.mem_map, Prod.exists, MapRange.mem_list, exists_eq_right]

theorem Progress.start : Progress sr o.names (senderQueues o (pendingList o m)) ⟨{ base := sr }, []⟩
    (senderQueues o (pendingList o m)) where
  queued := senderQueues_queued
  taken a := by
    refine ⟨[], rfl, fun tx htx => absurd htx List.not_mem_nil, fun i hi => absurd hi (Nat.not_lt_zero i), ?_⟩
    simp only [List.length_nil]
    exact (UInt64.add_zero _).symm

theorem mem_rest (a : Address) : tx ∈ rest a (senderQueues o (pendingList o m)) ↔ tx ∈ pendingList o m ∧
    tx.sender = a := by
  rw [rest, List.mem_filter, senderQueues_perm.mem_iff, decide_eq_true_iff]

/-- A walk from this pool, which may take the heads of the queues in any order. -/
def Walks (E : Env) (params : GenesisConfig) (o : ReapOrder) (m : Mempool) (sr : StateReader) (r : Reaped)
    (qs : List (List Transaction)) : Prop :=
  Walked E params o.names (⟨{ base := sr }, []⟩, senderQueues o (pendingList o m)) (r, qs)

/-- A pending transaction is taken, or left in its queue. -/
theorem Walks.pending {txHash : Hash} (h : Walks E params o m sr r qs) (hpending : m.txs.lookup txHash = some tx) :
    tx ∈ r.result ∨ tx ∈ rest tx.sender qs := by
  obtain ⟨taken, hrest, hresult, -⟩ := (Progress.start.walk h).taken tx.sender
  have hmem : tx ∈ rest tx.sender (senderQueues o (pendingList o m)) :=
    (mem_rest _).mpr ⟨mem_pendingList.mpr ⟨txHash, hpending⟩, rfl⟩
  rw [hrest] at hmem
  exact (List.mem_append.mp hmem).imp_left (hresult tx)

/-- What is in a queue is pending. -/
theorem Walks.queued {q : List Transaction} (h : Walks E params o m sr r qs) (hq : q ∈ qs) (htx : tx ∈ q) :
    ∃ txHash, m.txs.lookup txHash = some tx := by
  obtain ⟨taken, hrest, -⟩ := (Progress.start.walk h).taken tx.sender
  have hmem : tx ∈ taken ++ rest tx.sender qs :=
    List.mem_append_right _ (List.mem_filter.mpr ⟨List.mem_flatten.mpr ⟨q, hq, htx⟩, decide_eq_true rfl⟩)
  rw [← hrest] at hmem
  exact mem_pendingList.mp ((mem_rest _).mp hmem).1

end

end Mempool

end Drana
