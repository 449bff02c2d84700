/-
The name registry over whole runs: who has a name keeps it, nobody else gets
it, and the index finds its account. An account without a name may get one,
once, by its own `RegisterName`.
-/
import Drana.Boots

namespace Drana

variable {E : Env} {ar : Arith} {params : GenesisConfig} {ws ws' : WorldState} {tx : Transaction} {ord : RangeOrder}
  {a : Address}

/-- What the registry promises of one state. -/
structure NameRegistry (ws : WorldState) : Prop where
  finds : ∀ n, n ≠ .empty → ∀ acct, ws.getAccountByName n = some acct ↔
    acct.name = n ∧ ∃ a, ws.getAccount a = some acct
  unique : ∀ a b acct acct', ws.getAccount a = some acct → ws.getAccount b = some acct' → acct.name ≠ .empty →
    acct.name = acct'.name → a = b
  valid : ∀ a acct, ws.getAccount a = some acct → acct.name ≠ .empty → validateName acct.name = .ok ()

/-- Who has a name in the first state has it in the second. -/
def NamesStay (ws ws' : WorldState) : Prop :=
  ∀ a acct, ws.getAccount a = some acct → acct.name ≠ .empty →
    ∃ acct', ws'.getAccount a = some acct' ∧ acct'.name = acct.name

namespace NamesStay

protected theorem refl : NamesStay ws ws := fun _ acct hg _ => ⟨acct, hg, rfl⟩

theorem trans {w : WorldState} (h : NamesStay ws w) (h' : NamesStay w ws') : NamesStay ws ws' := by
  intro a acct hg hne
  obtain ⟨acct₁, hg₁, hn₁⟩ := h a acct hg hne
  obtain ⟨acct₂, hg₂, hn₂⟩ := h' a acct₁ hg₁ (hn₁ ▸ hne)
  exact ⟨acct₂, hg₂, hn₂.trans hn₁⟩

end NamesStay

theorem NamesKept.stay (h : NamesKept ws ws') (hi : Indexed ws) : NamesStay ws ws' :=
  fun a acct hg _ => h.name hi a acct hg

/-- The index is as the registry promises. -/
theorem Indexed.registry (hi : Indexed ws) (hv : NamesSatisfy (fun n => validateName n = .ok ()) ws) :
    NameRegistry ws where
  finds n hne acct := by
    unfold WorldState.getAccountByName
    constructor
    · intro h
      split at h
      · cases h
      · next a hl =>
        obtain ⟨-, acct', hg, hname⟩ := hi.owned n a hl
        rw [hg] at h
        cases h
        exact ⟨hname, a, hg⟩
    · intro h
      obtain ⟨rfl, a, hg⟩ := h
      rw [hi.found a acct hg hne]
      exact hg
  unique a b acct acct' hg hg' hne he := by
    have hl := hi.found a acct hg hne
    rw [he, hi.found b acct' hg' (he ▸ hne)] at hl
    exact (Option.some.inj hl).symm
  valid a acct hg hne := hv _ a (hi.found a acct hg hne)

/-! ## Steps -/

/-- Registering a name takes one from nobody. -/
theorem applyRegisterName_stay {u : Unit} (hi : Indexed ws) (hv : validateRegisterName E tx ws.reader = .ok u)
    (h : applyRegisterName ar ws tx = .ok ws') : NamesStay ws ws' := by
  obtain ⟨-, -, hunnamed⟩ := validateRegisterName_ok hi hv
  obtain ⟨sender, hg, nonce, -, rfl⟩ := applyRegisterName_ok_iff.mp h
  have haddr : sender.address = tx.sender := hi.keyed.account _ _ hg
  intro a acct hacct hne
  refine ⟨acct, ?_, rfl⟩
  refine WorldState.getAccount_setAccount.trans ?_
  rw [if_neg, hacct]
  rintro rfl
  exact hne (hunnamed acct (haddr ▸ hacct))

theorem executeTransaction_stay {header : BlockHeader} {i : Nat} (hi : Indexed ws)
    (h : executeTransaction E ar params ord header i ws tx = .ok ws') : NamesStay ws ws' := by
  rcases executeTransaction_names h with hn | ⟨-, u, hv, ha⟩
  · exact hn.stay hi
  · exact applyRegisterName_stay hi hv ha

/-! ## Runs -/

/-- From `ws₀` on, through every transaction applied: names stay. -/
structure NamesStayAlong (ws₀ : WorldState) (log : List Applied) (ws : WorldState) : Prop where
  whole : NamesStay ws₀ ws
  before : ∀ x ∈ log, NamesStay ws₀ x.before
  during : ∀ x ∈ log, NamesStay x.before x.after
  after : ∀ x ∈ log, NamesStay x.after ws
  between : log.Pairwise fun x y => NamesStay x.after y.before

namespace NamesStayAlong

variable {ws₀ : WorldState} {log : List Applied}

protected theorem refl : NamesStayAlong ws [] ws := ⟨.refl, by simp, by simp, by simp, .nil⟩

/-- A step that is no transaction. -/
theorem step (h : NamesStayAlong ws₀ log ws) (hs : NamesStay ws ws') : NamesStayAlong ws₀ log ws' :=
  { h with
    whole := h.whole.trans hs
    after := fun x hx => (h.after x hx).trans hs }

theorem add (h : NamesStayAlong ws₀ log ws) (hs : NamesStay ws ws') :
    NamesStayAlong ws₀ (log ++ [⟨ws, tx, ws'⟩]) ws' := by
  have hmem : ∀ {P : Applied → Prop}, (∀ x ∈ log, P x) → P ⟨ws, tx, ws'⟩ → ∀ x ∈ log ++ [⟨ws, tx, ws'⟩], P x := by
    intro P hlog hlast x hx
    rcases List.mem_append.mp hx with hx | hx
    · exact hlog x hx
    · rw [List.mem_singleton.mp hx]
      exact hlast
  constructor
  · exact h.whole.trans hs
  · exact hmem h.before h.whole
  · exact hmem h.during hs
  · exact hmem (fun x hx => (h.after x hx).trans hs) .refl
  · refine List.pairwise_append.mpr ⟨h.between, List.pairwise_singleton _ _, fun x hx y hy => ?_⟩
    rw [List.mem_singleton.mp hy]
    exact h.after x hx

end NamesStayAlong

/-- Names stay through every step of a run. -/
theorem keeps_names (ws₀ : WorldState) : Keeps E ar params fun log ws => Indexed ws ∧ NamesStayAlong ws₀ log ws := by
  have hkept : ∀ {log : List Applied} {ws ws' : WorldState}, Indexed ws ∧ NamesStayAlong ws₀ log ws → NamesKept ws ws' →
      Indexed ws' ∧ NamesStayAlong ws₀ log ws' :=
    fun h hn => ⟨hn.indexed h.1, h.2.step (hn.stay h.1)⟩
  constructor
  · exact fun h hr => hkept h (releaseMatured_registries hr).names
  · exact fun h hs => hkept h (applySlashEvidence_names hs)
  · exact fun h ht => ⟨executeTransaction_indexed h.1 ht, h.2.add (executeTransaction_stay h.1 ht)⟩
  · exact fun h hr => hkept h (issueReward_registries hr).names
  · exact fun h => hkept h epochTransition_registries.names
  · exact fun h => hkept h (.other rfl rfl fun hk => hk.congr rfl rfl rfl)

/-- **The name registry is a permanent injection**: from genesis on, blocks `bs`
lead to a state whose registry is right, and through whatever blocks `bs'`
follow, before and after each of their transactions, everybody who has a name
keeps it. A clone has the registry of the original. -/
theorem names_permanent {ws₀ ws₁ ws₂ : WorldState} (h₀ : initializeState E params = .ok ws₀)
    {bs bs' : List ((Nat → RangeOrder) × Block)} (h₁ : applyBlocks E .go params ws₀ bs = .ok ws₁)
    (h₂ : applyBlocks E .go params ws₁ bs' = .ok ws₂) :
    NameRegistry ws₁ ∧ NamesStayAlong ws₁ (appliedInRun E .go params ws₁ bs') ws₂ ∧
      ∀ ord names, ws₁.clone ord names = ws₁ := by
  have hvalid : Indexed ws₁ ∧ NamesSatisfy (fun n => validateName n = .ok ()) ws₁ :=
    (keeps_namesSatisfy fun _ _ h => h).invariant ⟨initializeState_indexed h₀, initializeState_namesSatisfy h₀⟩ h₁
  refine ⟨hvalid.1.registry hvalid.2, ?_, fun ord names => WorldState.clone_eq⟩
  exact ((keeps_names ws₁).fromStart ⟨hvalid.1, .refl⟩ h₂).2

section

open Sample

/-- Key 2 calls itself "bob". -/
def Sample.takeBob : Transaction :=
  signed 2 { type := 4, sender := address 2, pubKey := (key 2).publicKey, text := bob, nonce := 1 }

def Sample.named : WorldState := (applyBlocks env .go config genesis [block 1 [takeBob]]).value

def Sample.namedLater : WorldState := (applyBlocks env .go config named [block 2 [createPost 2 100 2]]).value

theorem Sample.named_run : (applyBlocks env .go config genesis [block 1 [takeBob]]).isOk = true ∧
    (applyBlocks env .go config named [block 2 [createPost 2 100 2]]).isOk = true ∧
    (named.getAccountByName takeBob.text).isSome = true := by decide +kernel

/-- Bob posts, and is Bob before and after. -/
theorem names_permanent_bob : NameRegistry named ∧
    NamesStayAlong named (appliedInRun env .go config named [block 2 [createPost 2 100 2]]) namedLater ∧
    ∀ ord names, named.clone ord names = named :=
  names_permanent genesis_ok (Except.ok_value named_run.1) (Except.ok_value named_run.2.1)

end

end Drana
