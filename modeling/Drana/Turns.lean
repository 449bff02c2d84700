/-
The passes of `ReapForBlock` (`internal/mempool/mempool.go`), turn by turn: a
queue whose turn it is gives its head, if that is valid. What a call returns is
what is given at its turns, in their order, and what it leaves behind is not
valid, unless a head that never will be hides it.
-/
import Drana.Reaping

namespace Drana

namespace Mempool

variable {E : Env} {params : GenesisConfig} {ord : MapRange Address Account} {maxTx : Int} {r r' : Reaped}
  {qs qs' : List (List Transaction)} {tx : Transaction}

/-- Where a call stands: what it has taken, the queues that had their turn in
this pass, and those that have it yet to come. -/
structure Pass where
  reaped : Reaped
  seen : List (List Transaction) := []
  ahead : List (List Transaction)

/-- There is room for one more. -/
def Pass.Room (maxTx : Int) (c : Pass) : Prop := (c.reaped.result.length : Int) < maxTx

/-- One turn: a queue is passed over, or gives its head, or the next pass begins. -/
inductive Turn (E : Env) (params : GenesisConfig) (ord : MapRange Address Account) (maxTx : Int) : Pass → Pass → Prop
  | passed {r seen q ahead} (hroom : Pass.Room maxTx ⟨r, seen, q :: ahead⟩)
      (h : ∀ tx ∈ q.head?, validateTransaction E tx (r.spec.reader ord) params ≠ .ok ()) :
      Turn E params ord maxTx ⟨r, seen, q :: ahead⟩ ⟨r, seen ++ [q], ahead⟩
  | give {r seen tx txs ahead} (hroom : Pass.Room maxTx ⟨r, seen, (tx :: txs) :: ahead⟩)
      (h : validateTransaction E tx (r.spec.reader ord) params = .ok ()) :
      Turn E params ord maxTx ⟨r, seen, (tx :: txs) :: ahead⟩ ⟨r.take tx, seen ++ [txs], ahead⟩
  | again {r seen} (hroom : Pass.Room maxTx ⟨r, seen, []⟩) : Turn E params ord maxTx ⟨r, seen, []⟩ ⟨r, [], seen⟩

abbrev Turns (E : Env) (params : GenesisConfig) (ord : MapRange Address Account) (maxTx : Int) :=
  Relation.ReflTransGen (Turn E params ord maxTx)

theorem Turn.room {c c' : Pass} (h : Turn E params ord maxTx c c') : c.Room maxTx := by
  cases h with
  | passed hroom _ => exact hroom
  | give hroom _ => exact hroom
  | again hroom => exact hroom

/-- There is one way to go on. -/
theorem turn_rightUnique : Relator.RightUnique (Turn E params ord maxTx) := by
  intro c c₁ c₂ h₁ h₂
  cases h₁ with
  | passed _ hpassed =>
    cases h₂ with
    | passed => rfl
    | give _ hgive => exact absurd hgive (hpassed _ rfl)
  | give _ hgive =>
    cases h₂ with
    | passed _ hpassed => exact absurd hgive (hpassed _ rfl)
    | give => rfl
  | again =>
    cases h₂
    rfl

/-- What is taken stays taken. -/
theorem turns_taken {c c' : Pass} (h : Turns E params ord maxTx c c') : c.reaped.result <+: c'.reaped.result := by
  induction h with
  | refl => exact List.prefix_rfl
  | tail _ hturn ih =>
    refine ih.trans ?_
    cases hturn with
    | passed => exact List.prefix_rfl
    | give => exact List.prefix_append _ _
    | again => exact List.prefix_rfl

/-! ## The passes take turns -/

theorem reapPass_turns {changed : Bool} (hroom : (r.result.length : Int) < maxTx)
    (h : reapPass E params ord maxTx r qs = (r', qs', changed)) (seen : List (List Transaction)) :
    ∃ given ahead, qs' = given ++ ahead ∧ Turns E params ord maxTx ⟨r, seen, qs⟩ ⟨r', seen ++ given, ahead⟩ ∧
      ((r'.result.length : Int) < maxTx → ahead = []) := by
  induction qs generalizing r qs' changed seen with
  | nil =>
    cases h
    exact ⟨[], [], rfl, by rw [List.append_nil], fun _ => rfl⟩
  | cons q qs ih =>
    -- After its turn the queue is as `q'`, and the pass goes on with the others.
    have hrest : ∀ {r₁ : Reaped} {q' : List Transaction} {qs₁ : List (List Transaction)} {changed₁ : Bool},
        Turn E params ord maxTx ⟨r, seen, q :: qs⟩ ⟨r₁, seen ++ [q'], qs⟩ → (r₁.result.length : Int) < maxTx →
        reapPass E params ord maxTx r₁ qs = (r', qs₁, changed₁) →
        ∃ given ahead, q' :: qs₁ = given ++ ahead ∧
          Turns E params ord maxTx ⟨r, seen, q :: qs⟩ ⟨r', seen ++ given, ahead⟩ ∧
          ((r'.result.length : Int) < maxTx → ahead = []) := by
      intro r₁ q' qs₁ changed₁ hturn hroom₁ hp
      obtain ⟨given, ahead, rfl, hturns, hend⟩ := ih hroom₁ hp (seen ++ [q'])
      refine ⟨q' :: given, ahead, rfl, .head hturn ?_, hend⟩
      rw [List.append_assoc] at hturns
      exact hturns
    cases q with
    | nil =>
      rcases hp : reapPass E params ord maxTx r qs with ⟨r₁, qs₁, changed₁⟩
      rw [reapPass, hp] at h
      cases h
      exact hrest (.passed hroom fun _ htx => absurd htx (Option.not_mem_none _)) hroom hp
    | cons tx txs =>
      rw [reapPass] at h
      split at h
      · next hv =>
        have hgive := @Turn.give E params ord maxTx r seen tx txs qs hroom (isOk_iff.mp hv)
        split at h
        · next hfull =>
          cases h
          exact ⟨[txs], qs, rfl, .single hgive, fun hroom => absurd hroom (not_lt.mpr hfull)⟩
        · next hmore =>
          rcases hp : reapPass E params ord maxTx (r.take tx) qs with ⟨r₁, qs₁, changed₁⟩
          rw [hp] at h
          cases h
          exact hrest hgive (not_le.mp hmore) hp
      · next hv =>
        rcases hp : reapPass E params ord maxTx r qs with ⟨r₁, qs₁, changed₁⟩
        rw [hp] at h
        cases h
        refine hrest (.passed hroom fun tx' htx => ?_) hroom hp
        cases htx
        exact fun hok => hv (isOk_iff.mpr hok)

/-- The call ends full, or where no queue has anything to give. -/
theorem reapLoop_turns {fuel : Nat} (hfuel : qs.flatten.length < fuel) :
    ∃ c, Turns E params ord maxTx ⟨r, [], qs⟩ c ∧ c.reaped = reapLoop E params ord maxTx fuel r qs ∧
      (c.Room maxTx → Stuck E params ord c.reaped (c.seen ++ c.ahead)) := by
  induction fuel generalizing r qs with
  | zero => omega
  | succ fuel ih =>
    rw [reapLoop]
    split
    · next hroom =>
      rcases hp : reapPass E params ord maxTx r qs with ⟨r₁, qs₁, changed⟩
      obtain ⟨hlen, hstuck⟩ := reapPass_spec hp
      obtain ⟨given, ahead, hqs, hturns, hend⟩ := reapPass_turns hroom hp []
      rw [List.nil_append] at hturns
      cases changed with
      | false =>
        obtain ⟨rfl, hstuck⟩ := hstuck rfl
        exact ⟨⟨r₁, [], qs⟩, .refl, rfl, fun _ => hstuck⟩
      | true =>
        rw [if_pos rfl] at hlen
        dsimp only
        rw [if_pos rfl]
        by_cases hroom₁ : (r₁.result.length : Int) < maxTx
        · obtain rfl := hend hroom₁
          rw [List.append_nil] at hqs
          subst hqs
          obtain ⟨c, hc, hreaped, hcend⟩ := @ih r₁ qs₁ (by omega)
          exact ⟨c, (hturns.tail (.again hroom₁)).trans hc, hreaped, hcend⟩
        · refine ⟨_, hturns, ?_, fun h => absurd h hroom₁⟩
          cases fuel with
          | zero => rfl
          | succ fuel => rw [reapLoop, if_neg hroom₁]
    · next hfull => exact ⟨⟨r, [], qs⟩, .refl, rfl, fun h => absurd h hfull⟩

/-- Where no queue has anything to give, turns change nothing but whose turn it is. -/
theorem turns_stuck {c c' : Pass} (h : Turns E params ord maxTx c c')
    (hs : Stuck E params ord c.reaped (c.seen ++ c.ahead)) :
    c'.reaped = c.reaped ∧ Stuck E params ord c'.reaped (c'.seen ++ c'.ahead) := by
  induction h with
  | refl => exact ⟨rfl, hs⟩
  | tail _ hturn ih =>
    obtain ⟨hsame, hstuck⟩ := ih
    rw [← hsame]
    cases hturn with
    | passed =>
      refine ⟨rfl, ?_⟩
      rw [List.append_assoc]
      exact hstuck
    | @give _ _ tx txs _ _ hv => exact absurd hv (hstuck (tx :: txs) (by simp) tx rfl)
    | again =>
      refine ⟨rfl, ?_⟩
      rw [List.append_nil] at hstuck
      exact hstuck

/-! ## What a call takes -/

section

variable {m : Mempool} {sr : StateReader} {o : ReapOrder}

/-- A call at its beginning. -/
def Pass.start (sr : StateReader) (o : ReapOrder) (m : Mempool) : Pass :=
  { reaped := ⟨{ base := sr }, []⟩, ahead := senderQueues o (pendingList o m) }

/-- In some turn of the call `tx` is given, where `r` is taken already. -/
def Takes (E : Env) (params : GenesisConfig) (sr : StateReader) (o : ReapOrder) (m : Mempool) (maxTx : Int64) (r : Reaped)
    (tx : Transaction) : Prop :=
  ∃ seen txs ahead, Turns E params o.names maxTx.toInt (.start sr o m) ⟨r, seen, (tx :: txs) :: ahead⟩ ∧
    Pass.Room maxTx.toInt ⟨r, seen, (tx :: txs) :: ahead⟩ ∧
      validateTransaction E tx (r.spec.reader o.names) params = .ok ()

theorem Takes.valid {maxTx : Int64} (h : Takes E params sr o m maxTx r tx) :
    validateTransaction E tx (r.spec.reader o.names) params = .ok () := by
  obtain ⟨-, -, -, -, -, hv⟩ := h
  exact hv

theorem reap_turns {maxTx : Int64} : ∃ c, Turns E params o.names maxTx.toInt (.start sr o m) c ∧
    c.reaped = m.reap E o sr params maxTx ∧
    (c.Room maxTx.toInt → Stuck E params o.names c.reaped (c.seen ++ c.ahead)) :=
  reapLoop_turns (by rw [senderQueues_perm.length_eq]; exact Nat.lt_succ_self _)

/-- What is given in a turn is returned, behind what was taken before. -/
theorem Takes.returned {maxTx : Int64} (h : Takes E params sr o m maxTx r tx) :
    r.result ++ [tx] <+: m.reapForBlock E o sr params maxTx := by
  obtain ⟨seen, txs, ahead, hturns, hroom, hv⟩ := h
  obtain ⟨c, hc, hreaped, hend⟩ := @reap_turns E params m sr o maxTx
  rw [reapForBlock, ← hreaped]
  have hgive := @Turn.give E params o.names maxTx.toInt r seen tx txs ahead hroom hv
  rcases Relation.ReflTransGen.total_of_right_unique turn_rightUnique hturns hc with hto | hfrom
  · rcases Relation.ReflTransGen.cases_head hto with rfl | ⟨c', hnext, hto⟩
    · exact absurd hv (hend hroom (tx :: txs) (by simp) tx rfl)
    · obtain rfl := turn_rightUnique hgive hnext
      exact turns_taken hto
  · have hroom' : c.Room maxTx.toInt := by
      have hle := (turns_taken hfrom).length_le
      unfold Pass.Room at hroom ⊢
      dsimp only at hle hroom
      omega
    exact absurd hv ((turns_stuck hfrom (hend hroom')).2 (tx :: txs) (by simp) tx rfl)

/-- What holds at the beginning, and still holds where a transaction is given, holds wherever the call stands. -/
theorem turns_induct {maxTx : Int64} (P : Reaped → Prop) (start : P ⟨{ base := sr }, []⟩)
    (take : ∀ r tx, Takes E params sr o m maxTx r tx → P r → P (r.take tx)) {c : Pass}
    (hc : Turns E params o.names maxTx.toInt (.start sr o m) c) : P c.reaped := by
  induction hc with
  | refl => exact start
  | tail hturns hturn ih =>
    cases hturn with
    | passed => exact ih
    | give hroom hv => exact take _ _ ⟨_, _, _, hturns, hroom, hv⟩ ih
    | again => exact ih

theorem reap_induct {maxTx : Int64} (P : Reaped → Prop) (start : P ⟨{ base := sr }, []⟩)
    (take : ∀ r tx, Takes E params sr o m maxTx r tx → P r → P (r.take tx)) : P (m.reap E o sr params maxTx) := by
  obtain ⟨c, hc, hreaped, -⟩ := @reap_turns E params m sr o maxTx
  rw [← hreaped]
  exact turns_induct P start take hc

theorem Takes.induct {maxTx : Int64} (P : Reaped → Prop) (start : P ⟨{ base := sr }, []⟩)
    (take : ∀ r tx, Takes E params sr o m maxTx r tx → P r → P (r.take tx)) (h : Takes E params sr o m maxTx r tx) :
      P r := by
  obtain ⟨seen, txs, ahead, hturns, -⟩ := h
  exact turns_induct P start take hturns

/-- The speculative state is what the transactions taken have made of it. -/
theorem Takes.spec {maxTx : Int64} (h : Takes E params sr o m maxTx r tx) :
    r.spec = r.result.foldl SpeculativeState.applyTx { base := sr } := by
  refine h.induct (fun r => r.spec = r.result.foldl SpeculativeState.applyTx { base := sr }) rfl fun r tx _ hr => ?_
  change r.spec.applyTx tx = (r.result ++ [tx]).foldl SpeculativeState.applyTx { base := sr }
  rw [List.foldl_concat, ← hr]

/-- What holds at every position of what is returned holds at every turn. -/
theorem forall_takes {maxTx : Int64} {P : Reaped → Transaction → Prop} {l : List Transaction}
    (hl : m.reapForBlock E o sr params maxTx = l)
    (hP : ∀ i (hi : i < l.length), P ⟨(l.take i).foldl SpeculativeState.applyTx { base := sr }, l.take i⟩ l[i]) :
    ∀ r tx, Takes E params sr o m maxTx r tx → P r tx := by
  intro r tx h
  obtain ⟨rest, hrest⟩ := h.returned
  rw [hl, List.append_assoc, List.singleton_append] at hrest
  subst hrest
  have hspec := h.spec
  have hi : r.result.length < (r.result ++ tx :: rest).length := by simp
  have hat := hP r.result.length hi
  rw [List.take_left, ← hspec, List.getElem_append_right (Nat.le_refl _)] at hat
  simpa using hat

/-! ## What a call leaves behind -/

end

namespace Sample

open Drana.Sample

/-- Hashes of what is longer than a key tell transactions of one key apart. -/
def mixing : Env :=
  { env with
    sha256 := fun b =>
      if b.length ≤ 32 then env.sha256 b
      else .copyFrom (putUint64 (UInt64.ofNat (b.foldl (fun n x => (31 * n + x.toNat) % 2 ^ 64) 0))) }

def reapOrder : ReapOrder := ⟨byBytes, byBytes, byBytes⟩

/-- A pool with room, which asks the genesis state. -/
def pool : Mempool := empty.setStateChecker genesis.getAccount

instance : Inhabited Mempool := ⟨pool⟩

/-- Two posts of key 1 in turn and one that waits for another before it, and a post of key 2. -/
def gapped : List Transaction := [createPost 1 100 1, createPost 1 100 2, createPost 1 100 4, createPost 2 100 1]

def early : Mempool := { pool with txs := GoMap.insertAll ∅ (gapped.map fun tx => (tx.hash mixing, tx)) }

end Sample

end Mempool

end Drana
