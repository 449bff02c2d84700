/-
A node's state over its life: blocks, saves and restarts. The slashing record
is in memory only, so a restart forgets it, and evidence already used is used
again. Until that happens each offence is punished once.
-/
import Drana.Registry
import Drana.Restart

namespace Drana

variable {E : Env} {params : GenesisConfig} {ws ws' : WorldState} {kv : KVStore}

/-! ## Events -/

/-- What happens to the state a node holds and to its database. -/
inductive NodeEvent
  /-- `ApplyBlock`. -/
  | apply (ord : Nat → RangeOrder) (block : Block)
  /-- `SaveState`. -/
  | save (ord : RangeOrder)
  /-- `SaveState`, then `LoadState` in a new process. -/
  | restart (ord : RangeOrder)

def NodeEvent.run (E : Env) (params : GenesisConfig) (s : WorldState × KVStore) :
    NodeEvent → Except String (WorldState × KVStore)
  | .apply ord block => do
    let ws ← applyBlock E .go params ord s.1 block
    return (ws, s.2)
  | .save ord => return (s.1, saveState ord s.1 s.2)
  | .restart ord => do
    let kv := saveState ord s.1 s.2
    let ws ← loadState kv
    return (ws, kv)

/-! ## Removals -/

/-- What evidence can take from a validator: its stake and what it has unbonding. -/
def stakeAtRisk (ws : WorldState) (a : Address) : Nat :=
  (ws.getAccount a).elim 0 (·.stakedBalance.toNat) + queued (· = a) ws.unbondingQueue

/-- The validator and height a piece of evidence is about. -/
def SlashEvidence.offence (ev : SlashEvidence) : Address × UInt64 := (ev.voteA.voterAddr, ev.voteA.height)

/-- The offences for which a list of evidence takes stake from the validator, in order. -/
def removals (E : Env) (params : GenesisConfig) : WorldState → List SlashEvidence → List (Address × UInt64)
  | _, [] => []
  | ws, ev :: evs =>
    match applySlashEvidence E .go params ws ev with
    | .ok ws' =>
      (if stakeAtRisk ws' ev.offence.1 < stakeAtRisk ws ev.offence.1 then [ev.offence] else []) ++
        removals E params ws' evs
    | .error _ => []

/-- Those of one event. -/
def NodeEvent.removals (E : Env) (params : GenesisConfig) (s : WorldState × KVStore) :
    NodeEvent → List (Address × UInt64)
  | .apply _ block =>
    match releaseMatured .go s.1 block.header.height with
    | .ok ws => Drana.removals E params ws block.evidence
    | .error _ => []
  | _ => []

/-- Those of a run, which ends where an event fails. -/
def removalsInRun (E : Env) (params : GenesisConfig) :
    WorldState × KVStore → List NodeEvent → List (Address × UInt64)
  | _, [] => []
  | s, e :: es =>
    match e.run E params s with
    | .ok s' => e.removals E params s ++ removalsInRun E params s' es
    | .error _ => []

/-! ## What is forgotten -/

/-- Of a list of evidence none is valid, about an offence in `lost`, and against
a validator with something at risk. -/
def NoneForgotten (E : Env) (params : GenesisConfig) (lost : Finset (Address × UInt64)) :
    WorldState → List SlashEvidence → Prop
  | _, [] => True
  | ws, ev :: evs =>
    (ev.isValid E = true → ev.offence ∈ lost → stakeAtRisk ws ev.offence.1 = 0) ∧
    match applySlashEvidence E .go params ws ev with
    | .ok ws' => NoneForgotten E params lost ws' evs
    | .error _ => True

instance decidableNoneForgotten (E : Env) (params : GenesisConfig) (lost : Finset (Address × UInt64)) :
    ∀ ws evs, Decidable (NoneForgotten E params lost ws evs)
  | _, [] => inferInstanceAs (Decidable True)
  | ws, ev :: evs =>
    have : Decidable (match applySlashEvidence E .go params ws ev with
        | .ok ws' => NoneForgotten E params lost ws' evs
        | .error _ => True) :=
      match applySlashEvidence E .go params ws ev with
      | .ok ws' => decidableNoneForgotten E params lost ws' evs
      | .error _ => inferInstanceAs (Decidable True)
    inferInstanceAs (Decidable (_ ∧ _))

/-- The block of an event brings no such evidence. -/
def NodeEvent.NoneForgotten (E : Env) (params : GenesisConfig) (lost : Finset (Address × UInt64))
    (s : WorldState × KVStore) : NodeEvent → Prop
  | .apply _ block =>
    match releaseMatured .go s.1 block.header.height with
    | .ok ws => Drana.NoneForgotten E params lost ws block.evidence
    | .error _ => True
  | _ => True

instance (lost : Finset (Address × UInt64)) (s : WorldState × KVStore) (e : NodeEvent) :
    Decidable (e.NoneForgotten E params lost s) :=
  match e with
  | .apply _ block =>
    match h : releaseMatured .go s.1 block.header.height with
    | .ok ws => decidable_of_iff (Drana.NoneForgotten E params lost ws block.evidence)
      (by rw [NodeEvent.NoneForgotten, h])
    | .error _ => .isTrue (by rw [NodeEvent.NoneForgotten, h]; trivial)
  | .save _ => .isTrue trivial
  | .restart _ => .isTrue trivial

/-- The offences a restart forgets. -/
def NodeEvent.forgets (s : WorldState × KVStore) : NodeEvent → Finset (Address × UInt64)
  | .restart _ => s.1.slashRecord
  | _ => ∅

/-- Along a run, no evidence comes back once a restart has forgotten it. -/
def NoneForgottenAlong (E : Env) (params : GenesisConfig) :
    Finset (Address × UInt64) → WorldState × KVStore → List NodeEvent → Prop
  | _, _, [] => True
  | lost, s, e :: es =>
    e.NoneForgotten E params lost s ∧
    match e.run E params s with
    | .ok s' => NoneForgottenAlong E params (lost ∪ e.forgets s) s' es
    | .error _ => True

instance decidableNoneForgottenAlong (E : Env) (params : GenesisConfig) :
    ∀ lost s es, Decidable (NoneForgottenAlong E params lost s es)
  | _, _, [] => inferInstanceAs (Decidable True)
  | lost, s, e :: es =>
    have : Decidable (match e.run E params s with
        | .ok s' => NoneForgottenAlong E params (lost ∪ e.forgets s) s' es
        | .error _ => True) :=
      match e.run E params s with
      | .ok s' => decidableNoneForgottenAlong E params (lost ∪ e.forgets s) s' es
      | .error _ => inferInstanceAs (Decidable True)
    inferInstanceAs (Decidable (_ ∧ _))

/-! ## Once each -/

theorem unbondingBalanceFor_zero {ar : Arith} {a : Address} {n : UInt64} (h₀ : queued (· = a) ws.unbondingQueue = 0)
    (h : ws.unbondingBalanceFor ar a = .ok n) : n = 0 := by
  have hloop : ∀ (q : List UnbondingEntry) (t r : UInt64), queued (· = a) q = 0 →
      q.foldlM (fun total e => if e.address = a then ar.add total e.amount else .ok total) t = .ok r → r = t := by
    intro q
    induction q with
    | nil =>
      intro t r _ hr
      exact (Except.foldlM_nil_ok_iff.mp hr).symm
    | cons e q ih =>
      intro t r hq hr
      obtain ⟨t', ht', hrest⟩ := Except.foldlM_cons_ok_iff.mp hr
      simp only [queued, within, List.map_cons, List.sum_cons, Nat.add_eq_zero_iff] at hq
      rw [ih t' r hq.2 hrest]
      split at ht'
      · next he =>
        have hamount : e.amount = 0 := UInt64.toNat_inj.mp (by simpa [he] using hq.1)
        rw [Arith.add_ok ht', hamount, UInt64.add_zero]
      · cases ht'
        rfl
  exact hloop _ _ _ h₀ h

/-- Where there is nothing to take, the executor finds nothing. -/
theorem totalAtRisk_zero {ar : Arith} {acct : Account} {a : Address} {unbonding totalAtRisk : UInt64}
    (hg : ws.getAccount a = some acct) (hu : ws.unbondingBalanceFor ar a = .ok unbonding)
    (ht : ar.add acct.stakedBalance unbonding = .ok totalAtRisk) (h₀ : stakeAtRisk ws a = 0) : totalAtRisk = 0 := by
  simp only [stakeAtRisk, hg, Option.elim_some, Nat.add_eq_zero_iff] at h₀
  have hstaked : acct.stakedBalance = 0 := UInt64.toNat_inj.mp h₀.1
  rw [Arith.add_ok ht, hstaked, unbondingBalanceFor_zero h₀.2 hu, UInt64.add_zero]

/-- **One piece of evidence**: what it costs is on record then, and was not before. -/
theorem applySlashEvidence_once {ev : SlashEvidence} (h : applySlashEvidence E .go params ws ev = .ok ws') :
    ws' = ws ∨ ev.isValid E = true ∧ ev.offence ∉ ws.slashRecord ∧ stakeAtRisk ws ev.offence.1 ≠ 0 ∧
      ws'.slashRecord = insert ev.offence ws.slashRecord := by
  by_cases hs : ev.offence ∈ ws.slashRecord
  · have hslashed : ws.hasBeenSlashed ev.voteA.voterAddr ev.voteA.height = true := decide_eq_true hs
    simp only [applySlashEvidence, hslashed, if_true, ite_self, Except.pure_ok_iff] at h
    exact .inl h.symm
  · rcases applySlashEvidence_cases h with rfl | ⟨hv, acct, unbonding, totalAtRisk, hg, hu, ht, hne, hslash⟩
    · exact .inl rfl
    · exact .inr ⟨hv, hs, fun h₀ => hne (totalAtRisk_zero hg hu ht h₀), (slashAccount_registries hg hslash).2⟩

/-- What was removed for before is on record, or forgotten. -/
def Recorded (lost : Finset (Address × UInt64)) (removed : List (Address × UInt64)) (ws : WorldState) : Prop :=
  removed.Nodup ∧ ∀ x ∈ removed, x ∈ lost ∨ x ∈ ws.slashRecord

variable {lost : Finset (Address × UInt64)} {removed : List (Address × UInt64)}

theorem Recorded.congr (h : Recorded lost removed ws) (hs : ws'.slashRecord = ws.slashRecord) :
    Recorded lost removed ws' := ⟨h.1, fun x hx => hs ▸ h.2 x hx⟩

/-- A list of evidence, up to one that fails. -/
theorem Recorded.evidence {evs : List SlashEvidence} (h : Recorded lost removed ws)
    (hn : NoneForgotten E params lost ws evs) :
    (removed ++ removals E params ws evs).Nodup ∧ ∀ ws', processEvidence E .go params ws evs = .ok ws' →
      Recorded lost (removed ++ removals E params ws evs) ws' := by
  induction evs generalizing ws removed with
  | nil =>
    rw [removals, List.append_nil]
    refine ⟨h.1, fun ws' hw => ?_⟩
    rwa [← Except.foldlM_nil_ok_iff.mp hw]
  | cons ev evs ih =>
    obtain ⟨hev, hrest⟩ := hn
    rw [removals]
    cases hstep : applySlashEvidence E .go params ws ev with
    | error e =>
      simp only [List.append_nil]
      refine ⟨h.1, fun ws' hw => ?_⟩
      obtain ⟨w, hw', -⟩ := Except.foldlM_cons_ok_iff.mp hw
      rw [hstep] at hw'
      cases hw'
    | ok w =>
      rw [hstep] at hrest
      simp only [← List.append_assoc]
      have hone : Recorded lost
          (removed ++ if stakeAtRisk w ev.offence.1 < stakeAtRisk ws ev.offence.1 then [ev.offence] else []) w := by
        rcases applySlashEvidence_once hstep with rfl | ⟨hv, hnew, hrisk, hrec⟩
        · rw [if_neg (Nat.lt_irrefl _), List.append_nil]
          exact h
        · have hfresh : ev.offence ∉ removed := by
            intro hin
            rcases h.2 _ hin with hl | hr
            · exact hrisk (hev hv hl)
            · exact hnew hr
          split
          · refine ⟨?_, fun x hx => ?_⟩
            · refine List.nodup_append.mpr ⟨h.1, List.nodup_singleton _, fun x hx y hy he => ?_⟩
              rw [List.mem_singleton.mp hy] at he
              exact hfresh (he ▸ hx)
            · rw [hrec, Finset.mem_insert]
              rcases List.mem_append.mp hx with hx | hx
              · rcases h.2 x hx with hl | hr
                · exact .inl hl
                · exact .inr (.inr hr)
              · exact .inr (.inl (List.mem_singleton.mp hx))
          · rw [List.append_nil]
            refine ⟨h.1, fun x hx => ?_⟩
            rw [hrec, Finset.mem_insert]
            rcases h.2 x hx with hl | hr
            · exact .inl hl
            · exact .inr (.inr hr)
      obtain ⟨hnodup, hall⟩ := ih hone hrest
      refine ⟨hnodup, fun ws' hw => ?_⟩
      obtain ⟨w', hw', hrun⟩ := Except.foldlM_cons_ok_iff.mp hw
      rw [hstep] at hw'
      cases hw'
      exact hall ws' hrun

theorem loadState_slashRecord (h : loadState kv = .ok ws) : ws.slashRecord = ∅ := by
  simp only [loadState, Except.bind_ok_iff, Except.pure_ok_iff] at h
  obtain ⟨w₁, h₁, w₂, h₂, burned, -, issued, -, height, -, epoch, -, rfl⟩ := h
  have hacct : w₁.slashRecord = ∅ := by
    refine Except.foldlM_inv (fun w => w.slashRecord = ∅) (fun v _ w w' hw hs => ?_) rfl h₁
    simp only [Except.bind_ok_iff, Except.pure_ok_iff] at hs
    obtain ⟨acct, -, rfl⟩ := hs
    exact hw
  have hpost : w₂.slashRecord = ∅ := by
    refine Except.foldlM_inv (fun w => w.slashRecord = ∅) (fun v _ w w' hw hs => ?_) hacct h₂
    simp only [Except.bind_ok_iff, Except.pure_ok_iff] at hs
    obtain ⟨post, -, rfl⟩ := hs
    exact hw
  have hstakes : ∀ {f : WorldState → List UInt8 → WorldState} (_ : ∀ w v, (f w v).slashRecord = w.slashRecord)
      (l : List (List UInt8)) (w : WorldState), (l.foldl f w).slashRecord = w.slashRecord := by
    intro f hf l
    induction l with
    | nil => exact fun w => rfl
    | cons v l ih => exact fun w => (ih _).trans (hf w v)
  refine (hstakes (fun w v => ?_) _ _).trans hpost
  split <;> rfl

/-- **One event.** -/
theorem Recorded.event {e : NodeEvent} {s s' : WorldState × KVStore} (h : Recorded lost removed s.1)
    (hn : e.NoneForgotten E params lost s) (hrun : e.run E params s = .ok s') :
    Recorded (lost ∪ e.forgets s) (removed ++ e.removals E params s) s'.1 := by
  cases e with
  | apply ord block =>
    simp only [NodeEvent.run, Except.bind_ok_iff, Except.pure_ok_iff] at hrun
    obtain ⟨w, hw, rfl⟩ := hrun
    obtain ⟨w₁, w₂, h₁, hrec₁, h₂, hrec₂⟩ := applyBlock_slashRecord hw
    simp only [NodeEvent.NoneForgotten, h₁] at hn
    simp only [NodeEvent.removals, NodeEvent.forgets, h₁, Finset.union_empty]
    exact (((h.congr hrec₁).evidence hn).2 w₂ h₂).congr hrec₂
  | save ord =>
    simp only [NodeEvent.run, Except.pure_ok_iff] at hrun
    subst hrun
    simpa only [NodeEvent.removals, NodeEvent.forgets, List.append_nil, Finset.union_empty] using h
  | restart ord =>
    simp only [NodeEvent.run, Except.bind_ok_iff, Except.pure_ok_iff] at hrun
    obtain ⟨w, hw, rfl⟩ := hrun
    simp only [NodeEvent.removals, NodeEvent.forgets, List.append_nil]
    refine ⟨h.1, fun x hx => .inl ?_⟩
    -- What was on record is now forgotten.
    rcases h.2 x hx with hl | hr
    · exact Finset.mem_union_left _ hl
    · exact Finset.mem_union_right _ hr

theorem Recorded.run {es : List NodeEvent} {s : WorldState × KVStore} (h : Recorded lost removed s.1)
    (hn : NoneForgottenAlong E params lost s es) : (removed ++ removalsInRun E params s es).Nodup := by
  induction es generalizing lost removed s with
  | nil =>
    rw [removalsInRun, List.append_nil]
    exact h.1
  | cons e es ih =>
    obtain ⟨he, hrest⟩ := hn
    rw [removalsInRun]
    cases hrun : e.run E params s with
    | error msg =>
      simp only [List.append_nil]
      exact h.1
    | ok s' =>
      rw [hrun] at hrest
      simp only [← List.append_assoc]
      exact ih (h.event he hrun) hrest

/-- **Slashed at most once**: along every run of blocks, saves and restarts in
which no forgotten evidence comes back, each offence removes stake at most once. -/
theorem slashed_once {ws₀ : WorldState} {es : List NodeEvent} (hn : NoneForgottenAlong E params ∅ (ws₀, ∅) es) :
    (removalsInRun E params (ws₀, ∅) es).Nodup :=
  @Recorded.run E params ∅ [] es (ws₀, ∅) ⟨List.nodup_nil, by simp⟩ hn

section

open Sample

/-- Key 1 votes twice at height 5. -/
def Sample.doubleVote : SlashEvidence where
  voteA := signBlockVote env ⟨5, ByteArr.copyFrom [1], address 1, .zero, .empty⟩ (key 1)
  voteB := signBlockVote env ⟨5, ByteArr.copyFrom [2], address 1, .zero, .empty⟩ (key 1)

/-- A block with that evidence. -/
def Sample.accusing (height : UInt64) : Block := { (block height []).2 with evidence := [doubleVote] }

/-- The evidence, a restart, and a block without evidence. -/
def Sample.forgiven : List NodeEvent :=
  [.apply (fun _ => order) (accusing 1), .restart order, .apply (fun _ => order) (block 2 []).2]

theorem slashed_once_forgiven : (removalsInRun env config (genesis, ∅) forgiven).Nodup :=
  slashed_once (by decide +kernel)

/-- The evidence, a restart, and the evidence again. -/
def Sample.accusedTwice : List NodeEvent :=
  [.apply (fun _ => order) (accusing 1), .restart order, .apply (fun _ => order) (accusing 2)]

/-- The same double vote costs key 1 its penalty twice. -/
theorem slashed_twice : removalsInRun env config (genesis, ∅) accusedTwice = [(address 1, 5), (address 1, 5)] ∧
    ¬ (removalsInRun env config (genesis, ∅) accusedTwice).Nodup := by
  have hrun : removalsInRun env config (genesis, ∅) accusedTwice = [(address 1, 5), (address 1, 5)] := by
    decide +kernel
  exact ⟨hrun, by rw [hrun]; simp⟩

end

end Drana
