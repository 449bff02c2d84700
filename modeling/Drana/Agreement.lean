/-
Agreement: no two honest nodes commit different blocks at one height. It rests
on what the handlers leave to chance: that a node votes once a height, and that
every block a node commits has a certificate.
-/
import Drana.Slots
import Drana.Accountability
import Mathlib.Tactic.FinCases

namespace Drana

open Network
variable {ι : Type} [DecidableEq ι] {E : Env} {params : GenesisConfig} {nodes : ι → Engine}
  {run before rest : List (ι × Event)} {i j : ι} {ev : Event} {e : Engine} {c c' : Block × WorldState}

/-! ## States -/

/-- The node has just been set up. -/
structure AtGenesis (E : Env) (params : GenesisConfig) (e : Engine) : Prop where
  config : e.params = params
  genesisValSet : e.genesisValSet = params.validators
  state : initializeState E params = .ok e.state
  lastBlock : e.lastBlock = none
  currentHeight : e.currentHeight = 0

theorem Reachable.apply {ws ws' : WorldState} {ord : Nat → RangeOrder} {block : Block} (hr : Reachable E params ws)
    (h : applyBlock E .go params ord ws block = .ok ws') : Reachable E params ws' := by
  obtain ⟨ws₀, es, kv, h₀, hrun⟩ := hr
  refine ⟨ws₀, es ++ [.apply ord block], kv, h₀, ?_⟩
  have hstep : NodeEvent.run E params (ws, kv) (.apply ord block) = .ok (ws', kv) := by
    rw [NodeEvent.run, h]
    rfl
  rw [List.foldlM_append, hrun]
  exact Except.foldlM_cons_ok_iff.mpr ⟨_, hstep, Except.foldlM_nil_ok_iff.mpr rfl⟩

/-- An accepted block executes, to the root in its header. -/
theorem validateBlock_root {o : Orders} {now : Int64} {block : Block} {u : Unit}
    (h : e.validateBlock E o now block = .ok u) :
    ∃ newState, applyBlock E .go e.params o.block e.state block = .ok newState ∧
      block.header.stateRoot = computeStateRoot E o.root newState := by
  simp only [Engine.validateBlock, validateProposedBlock, Except.bind_ok_iff, Except.throwIf_ok_iff,
    Except.wrapErr_ok_iff, ne_eq, not_not] at h
  obtain ⟨-, -, -, -, -, -, -, -, -, -, -, -, -, -, newState, happly, hroot⟩ := h
  exact ⟨newState, happly, hroot⟩

/-- What a commit leaves: the outcome of a block, with the root in its header. -/
structure Executes (E : Env) (e : Engine) (c : Block × WorldState) : Prop where
  applies : ∃ ord block, applyBlock E .go e.params ord e.state block = .ok c.2
  root : ∃ ord, c.1.header.stateRoot = computeStateRoot E ord c.2

theorem executes_of_valid {o : Orders} {ord : Nat → RangeOrder} {now : Int64} {block : Block} {newState : WorldState}
    {u : Unit} (hk : Keyed e.state) (hv : e.validateBlock E o now block = .ok u)
    (h : applyBlock E .go e.params ord e.state block = .ok newState) {qc : Option QuorumCertificate} :
    Executes E e ({ block with qc := qc }, newState) := by
  refine ⟨⟨ord, block, h⟩, o.root, ?_⟩
  obtain ⟨trial, htrial, hroot⟩ := validateBlock_root hv
  obtain ⟨newState', h', hsame⟩ := @Engine.root_agrees E e.params e.state trial block o ⟨ord, o.root⟩ hk htrial
  rw [h] at h'
  cases h'
  show block.header.stateRoot = _
  rw [hroot, hsame]

theorem commits_executes (hk : Keyed e.state) (hc : e.commits E ev = some c) : Executes E e c := by
  cases ev with
  | propose o height txs timestamp replies =>
    obtain ⟨block, hr, hheader⟩ := commits_propose hc
    obtain ⟨hblock, happly⟩ := Engine.assembleBlock_ok hr
    refine ⟨⟨o.block, block, happly⟩, o.root, ?_⟩
    dsimp only at hblock
    rw [hheader, hblock]
  | proposal o now block => cases hc
  | finalized o ord now fb =>
    simp only [Engine.commits, Option.join_eq_some_iff, Except.toOption_eq_some_iff] at hc
    obtain ⟨qc, -, hblock, -, hvalid, happly⟩ := acceptFinalized_ok hc
    have hexec := @executes_of_valid E e o ord now _ _ _ hk hvalid happly (some qc)
    rwa [← hblock] at hexec
  | synced o ord now fb =>
    simp only [Engine.commits, Except.toOption_eq_some_iff] at hc
    obtain ⟨-, -, hvalid, happly⟩ := acceptSynced_ok hc
    exact @executes_of_valid E e o ord now _ _ _ hk hvalid happly c.1.qc

theorem after_params : (after E nodes run i).params = (nodes i).params := by
  rcases after_cases E nodes run i with h | ⟨c, -, h⟩
  · rw [h]
  · rw [h]
    rfl

theorem after_genesisValSet : (after E nodes run i).genesisValSet = (nodes i).genesisValSet := by
  rcases after_cases E nodes run i with h | ⟨c, -, h⟩
  · rw [h]
  · rw [h]
    rfl

/-- The nodes' states are reached from genesis. -/
theorem after_reachable (hg : AtGenesis E params (nodes i)) : Reachable E params (after E nodes run i).state := by
  induction run using List.reverseRecOn with
  | nil => exact ⟨_, [], ∅, hg.state, rfl⟩
  | append_singleton before s ih =>
    obtain ⟨j, ev⟩ := s
    by_cases hj : j = i
    · subst hj
      rw [after_same]
      cases hc : (after E nodes before j).commits E ev with
      | none => rwa [Engine.next_of_none hc]
      | some c =>
        rw [Engine.next_of_commits hc]
        obtain ⟨ord, block, happly⟩ := (commits_executes ih.indexed.keyed hc).applies
        rw [after_params, hg.config] at happly
        exact ih.apply happly
    · rwa [after_other hj]

/-! ## Certificates -/

/-- Every block a peer sends is sent with a certificate, and a proposer's votes
make no quorum that its voters do not make. -/
def WellCertified (E : Env) (e : Engine) : Event → Prop
  | .propose o height txs timestamp replies =>
    ∀ r ∈ (e.assembleBlock E o height txs timestamp).toOption,
      ¬ (voterStake E e.activeValidators r.1.header.height (r.1.header.hash E)
          (e.proposalVotes E r.1 replies) % 2 ^ 64 < (quorumThreshold e.activeValidators).toNat ∧
        (quorumThreshold e.activeValidators).toNat ≤ repeatedStake E e.activeValidators r.1.header.height
          (r.1.header.hash E) (e.proposalVotes E r.1 replies) % 2 ^ 64)
  | .proposal _ _ _ => True
  | .finalized _ _ _ _ => True
  | .synced _ _ _ fb => fb.qc.isSome = true

/-- Who backs a commit: votes from the message, or the node's own. -/
theorem commits_certified (hcert : WellCertified E e ev) (hc : e.commits E ev = some c) :
    ∃ qc, validateQuorumCertificate E qc (c.1.header.hash E) e.activeValidators = .ok () ∧
      ∀ vote ∈ qc.votes, vote ∈ ev.votes ∨ vote = e.castVote E c.1.header ∧ e.votesFor E ev = some c.1.header := by
  cases ev with
  | propose o height txs timestamp replies =>
    simp only [Engine.commits] at hc
    split at hc
    · next block newState hblock =>
      rw [Except.toOption_eq_some_iff] at hc
      obtain ⟨hvotes, rfl⟩ := certifyProposal_ok_iff.mp hc
      have hcert := hcert (block, newState) (Except.toOption_eq_some_iff.mpr hblock)
      refine ⟨⟨block.header.height, block.header.hash E, e.proposalVotes E block replies⟩, ?_, fun vote hmem => ?_⟩
      · refine validateQuorumCertificate_ok_iff.mpr ⟨rfl, ?_⟩
        rw [weight_backers]
        by_contra hlt
        exact hcert ⟨Nat.not_le.mp hlt, hvotes⟩
      · rcases List.mem_cons.mp hmem with rfl | hmem
        · exact .inr ⟨rfl, by rw [Engine.votesFor, hblock]; rfl⟩
        · exact .inl hmem
    · cases hc
  | proposal o now block => cases hc
  | finalized o ord now fb =>
    simp only [Engine.commits, Option.join_eq_some_iff, Except.toOption_eq_some_iff] at hc
    obtain ⟨qc, hgiven, -, hvalid, -⟩ := acceptFinalized_ok hc
    refine ⟨qc, hvalid, fun vote hmem => .inl ?_⟩
    rw [Event.votes, hgiven]
    exact List.mem_append_right _ hmem
  | synced o ord now fb =>
    simp only [Engine.commits, Except.toOption_eq_some_iff] at hc
    obtain ⟨-, hvalid, -⟩ := acceptSynced_ok hc
    obtain ⟨qc, hgiven⟩ := Option.isSome_iff_exists.mp hcert
    refine ⟨qc, hvalid qc hgiven, fun vote hmem => .inl ?_⟩
    rw [Event.votes, hgiven]
    exact List.mem_append_right _ hmem

/-- An honest vote behind a commit has been signed. -/
theorem backer_signed {vote : BlockVote} {k : ι} (haddr : Function.Injective fun i => (nodes i).address)
    (hunforged : Unforged E nodes run) (hrun : run = before ++ (i, ev) :: rest)
    (hvote : vote ∈ ev.votes ∨ vote = (after E nodes before i).castVote E c.1.header ∧
      (after E nodes before i).votesFor E ev = some c.1.header)
    (hverify : verifyBlockVote E vote = true) (hk : (nodes k).address = vote.voterAddr) :
    ∃ w ∈ signed E nodes run k, w.height = vote.height ∧ w.blockHash = vote.blockHash := by
  rcases hvote with hsent | ⟨rfl, hown⟩
  · obtain ⟨w, hw, hsame⟩ := hunforged before i ev rest hrun vote hsent hverify k hk
    rw [hrun]
    exact ⟨w, signed_mono hw, hsame⟩
  · have hik : (nodes k).address = (nodes i).address := hk.trans after_address
    obtain rfl := haddr hik
    rw [hrun]
    exact ⟨_, castVote_signed hown, rfl, rfl⟩

/-- Whoever in the active set is not an honest node has less than a third of it. -/
def Minority (nodes : ι → Engine) (e : Engine) : Prop :=
  ∀ B ⊆ members e.activeValidators, (∀ a ∈ B, ∀ k, (nodes k).address ≠ a) →
    3 * Quorum.weight (stakeOf e.activeValidators) B <
      Quorum.weight (stakeOf e.activeValidators) (members e.activeValidators)

omit [DecidableEq ι] in
/-- Two certificates of one set share an honest backer. -/
theorem honest_backer {qc qc' : QuorumCertificate} {hash hash' : Hash} {u u' : Unit} (hminority : Minority nodes e)
    (hT : (e.activeValidators.map (·.stakedBalance.toNat)).sum < 2 ^ 64)
    (h : validateQuorumCertificate E qc hash e.activeValidators = .ok u)
    (h' : validateQuorumCertificate E qc' hash' e.activeValidators = .ok u') :
    ∃ k, (nodes k).address ∈ backers E e.activeValidators qc ∧ (nodes k).address ∈ backers E e.activeValidators qc' := by
  by_contra hnone
  have hshare := backers_share hT h h'
  have hall : Quorum.weight (stakeOf e.activeValidators) (members e.activeValidators) ≤
      (e.activeValidators.map (·.stakedBalance.toNat)).sum := weight_members_le
  have hless := hminority (backers E e.activeValidators qc ∩ backers E e.activeValidators qc')
    (Finset.inter_subset_left.trans Finset.inter_subset_right) fun a ha k hk =>
      hnone ⟨k, by rw [hk]; exact (Finset.mem_inter.mp ha).1, by rw [hk]; exact (Finset.mem_inter.mp ha).2⟩
  omega

/-! ## Heights -/

theorem VotesOnceAlong.at {lock : Option BlockHeader} {evs evs' : List Event}
    (h : VotesOnceAlong E e lock (evs ++ ev :: evs')) : ∃ lock', VotesOnce E (e.run E evs) lock' ev := by
  induction evs generalizing e lock with
  | nil => exact ⟨lock, h.1⟩
  | cons ev' evs ih => exact ih h.2

/-- A node's votes of one height are for one block. -/
theorem signed_once {v w : BlockVote} (hcur : (nodes i).Current)
    (honce : VotesOnceAlong E (nodes i) none (eventsAt run i))
    (hv : v ∈ signed E nodes run i) (hw : w ∈ signed E nodes run i) (hheight : v.height = w.height) :
    v.blockHash = w.blockHash := by
  have hsymm : Std.Symm fun v w : BlockVote => v.height = w.height → v.blockHash = w.blockHash :=
    ⟨fun v w hvw heq => (hvw heq.symm).symm⟩
  exact (signed_agree hcur honce).forall_of_forall (fun v _ _ => rfl) hv hw hheight

theorem AtGenesis.current (h : AtGenesis E params e) : e.Current := by
  rw [Engine.Current, h.lastBlock, h.currentHeight]
  rfl

theorem after_current (h : (nodes i).Current) : (after E nodes run i).Current := by
  rcases after_cases E nodes run i with he | ⟨c, -, he⟩
  · rw [he]
    exact h
  · rw [he]
    rfl

/-- A commit is one above what the node had, however it got there. -/
theorem commit_above (hcur : ∀ i, (nodes i).Current) (honce : ∀ i, VotesOnceAlong E (nodes i) none (eventsAt run i))
    (hrun : run = before ++ (i, ev) :: rest) (hc : (after E nodes before i).commits E ev = some c) :
    c.1.header.height.toNat = (after E nodes before i).currentHeight.toNat + 1 := by
  have hi := honce i
  rw [hrun, eventsAt_append, eventsAt_same] at hi
  obtain ⟨lock, hvotes⟩ := hi.at
  rw [commits_height (after_current (hcur i)) hvotes hc, UInt64.toNat_add, UInt64.toNat_one]
  exact Nat.mod_eq_of_lt hvotes.1

/-! ## Agreement -/

/-- No two states committed in the run have roots that collide. -/
def RootsDistinct (E : Env) (nodes : ι → Engine) (run : List (ι × Event)) : Prop :=
  ∀ i c j c', Commits E nodes run i c → Commits E nodes run j c' → ∀ ord ord',
    E.sha256 (stateRootBytes ord c.2) = E.sha256 (stateRootBytes ord' c'.2) →
      stateRootBytes ord c.2 = stateRootBytes ord' c'.2

/-- A state that a node has committed, and its header's root. -/
theorem Network.Commits.state (hg : ∀ i, AtGenesis E params (nodes i)) (h : Commits E nodes run i c) :
    Reachable E params c.2 ∧ ∃ ord, c.1.header.stateRoot = computeStateRoot E ord c.2 := by
  obtain ⟨before, ev, rest, -, hc⟩ := h
  have hr := @after_reachable ι _ E params nodes before i (hg i)
  have hexec := commits_executes hr.indexed.keyed hc
  obtain ⟨ord, block, happly⟩ := hexec.applies
  rw [after_params, (hg i).config] at happly
  exact ⟨hr.apply happly, hexec.root⟩

/-- One header, one active set after it. -/
theorem sets_agree (hg : ∀ i, AtGenesis E params (nodes i)) (hroots : RootsDistinct E nodes run)
    (hsized : ∀ i c, Commits E nodes run i c → Sized c.2) (hc : Commits E nodes run i c) (hc' : Commits E nodes run j c')
    (heq : c.1.header = c'.1.header) : c.2.activeValidators = c'.2.activeValidators := by
  obtain ⟨hr, ord, hroot⟩ := hc.state hg
  obtain ⟨hr', ord', hroot'⟩ := hc'.state hg
  have hsame : computeStateRoot E ord c.2 = computeStateRoot E ord' c'.2 := by
    rw [← hroot, ← hroot', heq]
  have hbytes := hroots i c j c' hc hc' ord ord' hsame
  exact (twin_of_stateRootBytes hr.indexed hr'.indexed (hsized i c hc) (hsized j c' hc') hbytes).activeValidators.symm

/-- Two nodes about to commit at one height have one active set, if they have
one header at the height before. -/
theorem sets_before {before' rest' : List (ι × Event)} {ev' : Event} (hg : ∀ i, AtGenesis E params (nodes i))
    (hroots : RootsDistinct E nodes run) (hsized : ∀ i c, Commits E nodes run i c → Sized c.2)
    (honce : ∀ i, VotesOnceAlong E (nodes i) none (eventsAt run i)) (hrun : run = before ++ (i, ev) :: rest)
    (hrun' : run = before' ++ (j, ev') :: rest')
    (hheight : (after E nodes before i).currentHeight.toNat = (after E nodes before' j).currentHeight.toNat)
    (hprev : ∀ p p', Commits E nodes run i p → Commits E nodes run j p' → p.1.header.height = p'.1.header.height →
      p.1.header.height = (after E nodes before i).currentHeight → p.1.header = p'.1.header) :
    (after E nodes before i).activeValidators = (after E nodes before' j).activeValidators := by
  -- A node that has committed is above one that has not.
  have hpos : ∀ {k p b r}, run = b ++ r → Commits E nodes b k p → 0 < p.1.header.height.toNat := by
    rintro k p _ r hb ⟨b, ev, r', rfl, hp⟩
    have hab := commit_above (fun i => (hg i).current) honce (show run = b ++ (k, ev) :: (r' ++ r) by rw [hb]; simp) hp
    omega
  have hstate : (after E nodes before i).state.activeValidators = (after E nodes before' j).state.activeValidators := by
    rcases after_cases E nodes before i with he | ⟨p, hp, he⟩ <;>
      rcases after_cases E nodes before' j with he' | ⟨p', hp', he'⟩
    · rw [he, he', Except.ok.inj ((hg i).state.symm.trans (hg j).state)]
    · rw [he, he', (hg i).currentHeight] at hheight
      exact absurd hheight (hpos hrun' hp').ne
    · rw [he, he', (hg j).currentHeight] at hheight
      exact absurd hheight (hpos hrun hp).ne'
    · have hpr : Commits E nodes run i p := by
        rw [hrun]
        exact hp.mono
      have hpr' : Commits E nodes run j p' := by
        rw [hrun']
        exact hp'.mono
      rw [he, he'] at hheight
      have heq := hprev p p' hpr hpr' (UInt64.toNat_inj.mp hheight) (by rw [he]; rfl)
      rw [he, he']
      exact sets_agree hg hroots hsized hpr hpr' heq
  rw [Engine.activeValidators, Engine.activeValidators, hstate, after_genesisValSet, after_genesisValSet,
    (hg i).genesisValSet, (hg j).genesisValSet]

/-- Two blocks of one height that one active set has certified are one. -/
theorem certified_agree {before' rest' : List (ι × Event)} {ev' : Event} (hcur : ∀ i, (nodes i).Current)
    (haddr : Function.Injective fun i => (nodes i).address) (hunforged : Unforged E nodes run)
    (hdistinct : HeadersDistinct E nodes run) (honce : ∀ i, VotesOnceAlong E (nodes i) none (eventsAt run i))
    (hcert : Always (fun before i ev => WellCertified E (after E nodes before i) ev) run)
    (hminority : Minority nodes (after E nodes before i))
    (hstakes : ((after E nodes before i).activeValidators.map (·.stakedBalance.toNat)).sum < 2 ^ 64)
    (hrun : run = before ++ (i, ev) :: rest) (hrun' : run = before' ++ (j, ev') :: rest')
    (hset : (after E nodes before i).activeValidators = (after E nodes before' j).activeValidators)
    (hc : (after E nodes before i).commits E ev = some c) (hc' : (after E nodes before' j).commits E ev' = some c')
    (hheight : c.1.header.height = c'.1.header.height) : c.1.header = c'.1.header := by
  have hci : Commits E nodes run i c := ⟨before, ev, rest, hrun, hc⟩
  have hcj : Commits E nodes run j c' := ⟨before', ev', rest', hrun', hc'⟩
  obtain ⟨qc, hvalid, hvotes⟩ := commits_certified (hcert before i ev rest hrun) hc
  obtain ⟨qc', hvalid', hvotes'⟩ := commits_certified (hcert before' j ev' rest' hrun') hc'
  rw [← hset] at hvalid'
  obtain ⟨k, hk, hk'⟩ := honest_backer hminority hstakes hvalid hvalid'
  obtain ⟨vote, hmem, hvote, ha⟩ := mem_votersOf.mp (Finset.mem_inter.mp hk).1
  obtain ⟨vote', hmem', hvote', ha'⟩ := mem_votersOf.mp (Finset.mem_inter.mp hk').1
  have hhash := hvote.2.2.trans (validateQuorumCertificate_ok_iff.mp hvalid).1
  have hhash' := hvote'.2.2.trans (validateQuorumCertificate_ok_iff.mp hvalid').1
  -- The node has signed both votes, for the heights of the blocks.
  have hw := backer_signed haddr hunforged hrun (hvotes vote hmem) hvote.1 ha.symm
  have hw' := backer_signed haddr hunforged hrun' (hvotes' vote' hmem') hvote'.1 ha'.symm
  have hvh := vote_height hdistinct hci hw hhash
  have hvh' := vote_height hdistinct hcj hw' hhash'
  obtain ⟨w, hw, hwh, hwb⟩ := hw
  obtain ⟨w', hw', hwh', hwb'⟩ := hw'
  have hone : w.blockHash = w'.blockHash :=
    signed_once (hcur k) (honce k) hw hw' (by rw [hwh, hwh', hvh, hvh', hheight])
  rw [hwb, hwb', hhash, hhash'] at hone
  exact hdistinct.eq (.inr ⟨i, c, hci, rfl⟩) (.inr ⟨j, c', hcj, rfl⟩) hone

/-- **Agreement**: no two honest nodes commit different blocks at one height, in
every run in which each node votes once a height and what it commits is
certified. -/
theorem agreement (hg : ∀ i, AtGenesis E params (nodes i)) (haddr : Function.Injective fun i => (nodes i).address)
    (hunforged : Unforged E nodes run) (hdistinct : HeadersDistinct E nodes run) (hroots : RootsDistinct E nodes run)
    (hsized : ∀ i c, Commits E nodes run i c → Sized c.2)
    (hminority : Always (fun before i _ => Minority nodes (after E nodes before i)) run)
    (hstakes : Always (fun before i _ =>
      ((after E nodes before i).activeValidators.map (·.stakedBalance.toNat)).sum < 2 ^ 64) run)
    (honce : ∀ i, VotesOnceAlong E (nodes i) none (eventsAt run i))
    (hcert : Always (fun before i ev => WellCertified E (after E nodes before i) ev) run)
    (hc : Commits E nodes run i c) (hc' : Commits E nodes run j c')
    (hheight : c.1.header.height = c'.1.header.height) : c.1.header.hash E = c'.1.header.hash E := by
  have hcur : ∀ i, (nodes i).Current := fun i => (hg i).current
  -- Up the chain: one header makes one active set, which makes one header.
  have hheaders : ∀ n i j c c', Commits E nodes run i c → Commits E nodes run j c' →
      c.1.header.height = c'.1.header.height → c.1.header.height.toNat = n → c.1.header = c'.1.header := by
    intro n
    induction n with
    | zero =>
      rintro i j c c' ⟨before, ev, rest, hrun, hc⟩ - - hn
      have habove := commit_above hcur honce hrun hc
      omega
    | succ n ih =>
      rintro i j c c' ⟨before, ev, rest, hrun, hc⟩ ⟨before', ev', rest', hrun', hc'⟩ hheight hn
      have habove := commit_above hcur honce hrun hc
      have habove' := commit_above hcur honce hrun' hc'
      have hset : (after E nodes before i).activeValidators = (after E nodes before' j).activeValidators := by
        refine sets_before hg hroots hsized honce hrun hrun' (by rw [hheight] at habove; omega) ?_
        intro p p' hp hp' hpp hlast
        exact ih i j p p' hp hp' hpp (by rw [hlast]; omega)
      exact certified_agree hcur haddr hunforged hdistinct honce hcert (hminority before i ev rest hrun)
        (hstakes before i ev rest hrun) hrun hrun' hset hc hc' hheight
  rw [hheaders _ i j c c' hc hc' hheight rfl]

omit [DecidableEq ι] in
/-- All but a minority are honest nodes. -/
theorem minority_of_others {A : Finset Address} (h : ∀ a ∈ members e.activeValidators, a ∉ A → ∃ k, (nodes k).address = a)
    (hless : 3 * Quorum.weight (stakeOf e.activeValidators) A <
      Quorum.weight (stakeOf e.activeValidators) (members e.activeValidators)) : Minority nodes e := by
  intro B hB hothers
  have hsub : B ⊆ A := by
    intro a ha
    by_contra hnot
    obtain ⟨k, hk⟩ := h a (hB ha) hnot
    exact hothers a ha k hk
  have hmono : Quorum.weight (stakeOf e.activeValidators) B ≤ Quorum.weight (stakeOf e.activeValidators) A :=
    Quorum.weight_mono hsub
  omega

section

open Sample

theorem trio_atGenesis (i : Fin 3) : AtGenesis env config3 (trio i) := by
  have hok : (initializeState env config3).isOk = true := by decide +kernel
  exact ⟨rfl, rfl, Except.ok_value hok, rfl, rfl⟩

theorem trio_addresses : Function.Injective fun i => (trio i).address := by
  have haddr : ∀ i j : Fin 3, (trio i).address = (trio j).address → i = j := by decide +kernel
  exact haddr

/-- Three validators, the first with half of the stake. -/
def unevenConfig : GenesisConfig :=
  { config with validators := [(1, 200), (2, 100), (3, 100)].map fun v => ⟨address v.1, (key v.1).publicKey, v.2⟩ }

def unevenGenesis : WorldState := (initializeState env unevenConfig).value

def uneven (n : UInt8) : Engine :=
  { node n with params := unevenConfig, genesisValSet := unevenConfig.validators, state := unevenGenesis }

/-- The first two are honest nodes. -/
def honestTwo (i : Fin 2) : Engine := uneven (UInt8.ofNat (i + 1))

/-- The root of a state with these figures, under a hash that keeps the end. -/
def rootOf (epoch burned issued height : UInt64) : Hash :=
  ByteArr.copyFrom ([epoch, burned, issued, height].flatMap putUint64)

/-- Two blocks of node 1, and one for the height of the first that nobody has made. -/
def blockOne : PbBlock := ⟨⟨1, .zero, address 1, 10, rootOf 0 0 5 1, .zero⟩, [], none⟩

def blockTwo : PbBlock := ⟨⟨2, .zero, address 1, 20, rootOf 0 0 10 2, Vector.replicate 32 1⟩, [transfer 1 2 1], none⟩

def forgedOne : PbBlock := ⟨⟨1, .zero, address 1, 11, rootOf 0 0 5 1, .zero⟩, [], none⟩

/-- A block with votes for it. -/
def votedBy (block : PbBlock) (voters : List UInt8) : Event :=
  .finalized orders (fun _ => order) 20 ⟨block, some ⟨block.header.height, block.header.hash env,
    voters.map fun n => (uneven n).castVote env block.header⟩⟩

/-- Node 1 votes at both heights, and the third validator with it. At the first
that one votes for another block too, and shows the vote to node 2. -/
def twoHeights : List (Fin 2 × Event) :=
  [(0, .proposal orders 20 blockOne), (0, votedBy blockOne [1, 3]), (1, votedBy forgedOne [3]),
    (1, votedBy blockOne [1, 3]), (0, .proposal orders 20 blockTwo), (0, votedBy blockTwo [1, 3]),
    (1, votedBy blockTwo [1, 3])]

/-- The nodes after the first block. -/
def afterOne (i : Fin 2) : Engine := (honestTwo i).next env (votedBy blockOne [1, 3])

theorem twoHeights_run : Unforged env honestTwo twoHeights ∧
    (∀ i, VotesOnceAlong env (honestTwo i) none (eventsAt twoHeights i)) ∧
    ((honestTwo 1).commits env (votedBy forgedOne [3])).isNone = true ∧
    (∀ i, ((honestTwo i).commits env (votedBy blockOne [1, 3])).isSome = true) ∧
    ∀ i, ((afterOne i).commits env (votedBy blockTwo [1, 3])).isSome = true := by
  refine ⟨?_, ?_, ?_⟩ <;> decide +kernel

/-- The nodes when they get the blocks with the votes. -/
theorem after_twoHeights : after env honestTwo (twoHeights.take 1) 0 = honestTwo 0 ∧
    after env honestTwo (twoHeights.take 3) 1 = honestTwo 1 ∧
    after env honestTwo (twoHeights.take 5) 0 = afterOne 0 ∧ after env honestTwo (twoHeights.take 6) 1 = afterOne 1 := by
  have hproposal : ∀ (e : Engine) block, e.next env (.proposal orders 20 block) = e := fun _ _ => rfl
  have hforged : (honestTwo 1).next env (votedBy forgedOne [3]) = honestTwo 1 :=
    Engine.next_of_none (Option.isNone_iff_eq_none.mp twoHeights_run.2.2.1)
  have hevents₁ : eventsAt (twoHeights.take 1) 0 = [.proposal orders 20 blockOne] := rfl
  have hevents₂ : eventsAt (twoHeights.take 3) 1 = [votedBy forgedOne [3]] := rfl
  have hevents₃ : eventsAt (twoHeights.take 5) 0 =
      [.proposal orders 20 blockOne, votedBy blockOne [1, 3], .proposal orders 20 blockTwo] := rfl
  have hevents₄ : eventsAt (twoHeights.take 6) 1 = [votedBy forgedOne [3], votedBy blockOne [1, 3]] := rfl
  refine ⟨?_, ?_, ?_, ?_⟩
  · rw [after, hevents₁, Engine.run, List.foldl_cons, hproposal, List.foldl_nil]
  · rw [after, hevents₂, Engine.run, List.foldl_cons, hforged, List.foldl_nil]
  · rw [after, hevents₃, Engine.run, List.foldl_cons, hproposal, List.foldl_cons, List.foldl_cons, hproposal,
      List.foldl_nil, afterOne]
  · rw [after, hevents₄, Engine.run, List.foldl_cons, hforged, List.foldl_cons, List.foldl_nil, afterOne]

/-- The states after the blocks. -/
def stateOne : WorldState := (applyBlock env .go unevenConfig (fun _ => order) unevenGenesis
      (blockFromProto blockOne)).value

def stateTwo : WorldState := (applyBlock env .go unevenConfig (fun _ => order) stateOne (blockFromProto blockTwo)).value

theorem twoHeights_states : (Sized stateOne ∧ Sized stateTwo) ∧
    (stateOne.activeValidators = unevenGenesis.activeValidators ∧
      stateTwo.activeValidators = unevenGenesis.activeValidators) ∧
    env.sha256 (stateRootBytes order stateOne) ≠ env.sha256 (stateRootBytes order stateTwo) ∧
    blockOne.header.hash env ≠ blockTwo.header.hash env := by
  decide +kernel

/-- The third validator has a quarter of the stake. -/
theorem uneven_genesis : (initializeState env unevenConfig).isOk = true ∧
    (∀ i j, (honestTwo i).address = (honestTwo j).address → i = j) ∧
    unevenGenesis.activeValidators.length > 0 ∧
    (∀ a ∈ members unevenGenesis.activeValidators, a ∉ ({address 3} : Finset Address) →
      ∃ k, (honestTwo k).address = a) ∧
    3 * Quorum.weight (stakeOf unevenGenesis.activeValidators) {address 3} <
      Quorum.weight (stakeOf unevenGenesis.activeValidators) (members unevenGenesis.activeValidators) ∧
    (unevenGenesis.activeValidators.map (·.stakedBalance.toNat)).sum < 2 ^ 64 := by
  refine ⟨?_, ?_, ?_, ?_, ?_, ?_⟩ <;> decide +kernel

theorem honestTwo_atGenesis (i : Fin 2) : AtGenesis env unevenConfig (honestTwo i) :=
  ⟨rfl, rfl, Except.ok_value uneven_genesis.1, rfl, rfl⟩

/-- What a node commits with the votes is the block, and what it makes of the state. -/
theorem commits_votedBy {block : PbBlock} {voters : List UInt8} (hp : e.params = unevenConfig)
    (hc : e.commits env (votedBy block voters) = some c) : c.1.header = block.header ∧
      c.2 = (applyBlock env .go unevenConfig (fun _ => order) e.state (blockFromProto block)).value := by
  simp only [votedBy, Engine.commits, Option.join_eq_some_iff, Except.toOption_eq_some_iff] at hc
  obtain ⟨qc, -, hblock, -, -, happly⟩ := acceptFinalized_ok hc
  rw [hp] at happly
  rw [hblock, happly]
  exact ⟨rfl, rfl⟩

/-- The header of one of the blocks, with its state. -/
def OneOrTwo (header : BlockHeader) (ws : WorldState) : Prop :=
  header = blockOne.header ∧ ws = stateOne ∨ header = blockTwo.header ∧ ws = stateTwo

theorem afterOne_state (i : Fin 2) : (afterOne i).state = stateOne ∧ (afterOne i).params = unevenConfig := by
  obtain ⟨c, hc⟩ := Option.isSome_iff_exists.mp (twoHeights_run.2.2.2.1 i)
  rw [afterOne, Engine.next_of_commits hc]
  exact ⟨(commits_votedBy rfl hc).2, rfl⟩

theorem commits_twoHeights : Always (fun before i ev => ∀ c, (after env honestTwo before i).commits env ev = some c →
    OneOrTwo c.1.header c.2) twoHeights := by
  obtain ⟨h₁, h₂, h₃, h₄⟩ := after_twoHeights
  have hfirst : ∀ {i c}, (honestTwo i).commits env (votedBy blockOne [1, 3]) = some c → OneOrTwo c.1.header c.2 :=
    fun hc => .inl (commits_votedBy rfl hc)
  have hnext : ∀ {i c}, (afterOne i).commits env (votedBy blockTwo [1, 3]) = some c → OneOrTwo c.1.header c.2 := by
    intro i c hc
    obtain ⟨hstate, hparams⟩ := afterOne_state i
    have hmade := commits_votedBy hparams hc
    rw [hstate] at hmade
    exact .inr hmade
  refine always_iff.mpr fun n => ?_
  fin_cases n
  · intro c hc
    cases hc
  · exact fun c hc => hfirst (h₁ ▸ hc)
  · intro c hc
    cases (Option.isNone_iff_eq_none.mp twoHeights_run.2.2.1).symm.trans hc
  · exact fun c hc => hfirst (h₂ ▸ hc)
  · intro c hc
    cases hc
  · exact fun c hc => hnext (h₃ ▸ hc)
  · exact fun c hc => hnext (h₄ ▸ hc)

/-- Each of them is committed by both. -/
theorem twoHeights_commits : ∀ i, ∀ block ∈ [blockOne, blockTwo],
    ∃ c, Commits env honestTwo twoHeights i c ∧ c.1.header = block.header := by
  obtain ⟨-, -, -, hfirst, hnext⟩ := twoHeights_run
  obtain ⟨h₁, h₂, h₃, h₄⟩ := after_twoHeights
  have hcommits : ∀ (n : Nat) {i block rest}, twoHeights = twoHeights.take n ++ (i, votedBy block [1, 3]) :: rest →
      ((after env honestTwo (twoHeights.take n) i).commits env (votedBy block [1, 3])).isSome = true →
      ∃ c, Commits env honestTwo twoHeights i c ∧ c.1.header = block.header := by
    intro n i block rest hrun hsome
    obtain ⟨c, hc⟩ := Option.isSome_iff_exists.mp hsome
    exact ⟨c, ⟨_, _, _, hrun, hc⟩, (commits_votedBy after_params hc).1⟩
  intro i block hblock
  rcases List.mem_pair.mp hblock with rfl | rfl
  · fin_cases i
    · exact hcommits 1 rfl (h₁ ▸ hfirst 0)
    · exact hcommits 3 rfl (h₂ ▸ hfirst 1)
  · fin_cases i
    · exact hcommits 5 rfl (h₃ ▸ hnext 0)
    · exact hcommits 6 rfl (h₄ ▸ hnext 1)

theorem headers_twoHeights : Always (fun before i ev => ∀ header ∈ headersAt env (after env honestTwo before i) ev,
    header ∈ [blockOne.header, blockTwo.header]) twoHeights := by
  have hproposal : ∀ {e : Engine} {block header}, e.votesFor env (.proposal orders 20 block) = some header →
      block ∈ [blockOne, blockTwo] → header ∈ [blockOne.header, blockTwo.header] := by
    intro e block header h hblock
    rw [Engine.votesFor] at h
    split at h
    · rw [← Option.some.inj h]
      exact List.mem_map_of_mem hblock
    · cases h
  have hvotes : Always (fun before i ev => ∀ header, (after env honestTwo before i).votesFor env ev = some header →
      header ∈ [blockOne.header, blockTwo.header]) twoHeights := by
    refine always_iff.mpr fun n => ?_
    fin_cases n
    · exact fun header h => hproposal h List.mem_cons_self
    · intro header h
      cases h
    · intro header h
      cases h
    · intro header h
      cases h
    · exact fun header h => hproposal h (List.mem_cons_of_mem _ List.mem_cons_self)
    · intro header h
      cases h
    · intro header h
      cases h
  intro before i ev rest hrun header hmem
  rcases List.mem_append.mp hmem with hvote | hcommit
  · exact hvotes before i ev rest hrun header (Option.mem_toList.mp hvote)
  · obtain ⟨c, hc, rfl⟩ := Option.map_eq_some_iff.mp (Option.mem_toList.mp hcommit)
    rcases commits_twoHeights before i ev rest hrun c hc with ⟨h, -⟩ | ⟨h, -⟩
    · rw [h]
      exact List.mem_cons_self
    · rw [h]
      exact List.mem_cons_of_mem _ List.mem_cons_self

/-- The active set stays that of genesis. -/
theorem minority_twoHeights : Always (fun before i _ => Minority honestTwo (after env honestTwo before i) ∧
    ((after env honestTwo before i).activeValidators.map (·.stakedBalance.toNat)).sum < 2 ^ 64) twoHeights := by
  obtain ⟨-, hactive, -⟩ := twoHeights_states
  obtain ⟨-, -, hsome, hothers, hless, hsum⟩ := uneven_genesis
  intro before i ev rest hrun
  have hstate : (after env honestTwo before i).state.activeValidators = unevenGenesis.activeValidators := by
    rcases after_cases env honestTwo before i with h | ⟨c, hc, h⟩
    · rw [h]
      rfl
    · have hc : Commits env honestTwo twoHeights i c := by
        rw [hrun]
        exact hc.mono
      obtain ⟨before, ev, rest, hrun, hc⟩ := hc
      rw [h, Engine.commitBlock]
      rcases commits_twoHeights before i ev rest hrun c hc with ⟨-, h⟩ | ⟨-, h⟩
      · rw [h, hactive.1]
      · rw [h, hactive.2]
  have hset : (after env honestTwo before i).activeValidators = unevenGenesis.activeValidators := by
    rw [Engine.activeValidators, hstate, if_pos hsome]
  constructor
  · exact minority_of_others (by rw [hset]; exact hothers) (by rw [hset]; exact hless)
  · rw [hset]
    exact hsum

/-- Both nodes commit the same at both heights. -/
theorem agreement_honestTwo :
    (∃ c c', Commits env honestTwo twoHeights 0 c ∧ Commits env honestTwo twoHeights 1 c' ∧
      c.1.header = blockOne.header ∧ c.1.header.hash env = c'.1.header.hash env) ∧
    ∃ c c', Commits env honestTwo twoHeights 0 c ∧ Commits env honestTwo twoHeights 1 c' ∧
      c.1.header = blockTwo.header ∧ c.1.header.hash env = c'.1.header.hash env := by
  obtain ⟨hunforged, honce, -⟩ := twoHeights_run
  obtain ⟨⟨hsized₁, hsized₂⟩, -, hroot, hhash⟩ := twoHeights_states
  have haddr : Function.Injective fun i => (honestTwo i).address := uneven_genesis.2.1
  have hknown : ∀ {i c}, Commits env honestTwo twoHeights i c → OneOrTwo c.1.header c.2 := by
    rintro i c ⟨before, ev, rest, hrun, hc⟩
    exact commits_twoHeights before i ev rest hrun c hc
  have hdistinct : HeadersDistinct env honestTwo twoHeights := by
    refine headersDistinct_of_mem (fun header h header' h' heq => ?_) headers_twoHeights
    rcases List.mem_pair.mp h with rfl | rfl <;> rcases List.mem_pair.mp h' with rfl | rfl
    · rfl
    · exact absurd heq hhash
    · exact absurd heq.symm hhash
    · rfl
  have hroots : RootsDistinct env honestTwo twoHeights := by
    -- A root does not depend on the order of the maps.
    have hord : ∀ {i c}, Commits env honestTwo twoHeights i c →
        ∀ ord, stateRootBytes ord c.2 = stateRootBytes order c.2 := by
      intro i c hc ord
      have htwin : Twin true ∅ c.2 c.2 := .refl
      exact htwin.stateRootBytes (hc.state honestTwo_atGenesis).1.indexed.keyed
    intro i c j c' hc hc' ord ord' heq
    rw [hord hc, hord hc'] at heq ⊢
    rcases hknown hc with ⟨-, h⟩ | ⟨-, h⟩ <;> rcases hknown hc' with ⟨-, h'⟩ | ⟨-, h'⟩ <;> rw [h, h'] at heq ⊢
    · exact absurd heq hroot
    · exact absurd heq.symm hroot
  have hsized : ∀ i c, Commits env honestTwo twoHeights i c → Sized c.2 := by
    intro i c hc
    rcases hknown hc with ⟨-, h⟩ | ⟨-, h⟩ <;> rw [h]
    · exact hsized₁
    · exact hsized₂
  have hcert : Always (fun before i ev => WellCertified env (after env honestTwo before i) ev) twoHeights := by
    refine always_iff.mpr fun n => ?_
    fin_cases n <;> exact True.intro
  have hagree : ∀ block ∈ [blockOne, blockTwo], ∃ c c', Commits env honestTwo twoHeights 0 c ∧
      Commits env honestTwo twoHeights 1 c' ∧ c.1.header = block.header ∧ c.1.header.hash env = c'.1.header.hash env := by
    intro block hblock
    obtain ⟨c, hc, hheader⟩ := twoHeights_commits 0 block hblock
    obtain ⟨c', hc', hheader'⟩ := twoHeights_commits 1 block hblock
    refine ⟨c, c', hc, hc', hheader, ?_⟩
    exact agreement honestTwo_atGenesis haddr hunforged hdistinct hroots hsized
      (fun before i ev rest hrun => (minority_twoHeights before i ev rest hrun).1)
      (fun before i ev rest hrun => (minority_twoHeights before i ev rest hrun).2) honce hcert hc hc'
      (by rw [hheader, hheader'])
  exact ⟨hagree blockOne List.mem_cons_self, hagree blockTwo (List.mem_cons_of_mem _ List.mem_cons_self)⟩

/-- Two blocks that node 1 might have proposed at height 1. -/
def emptyHeight : PbBlock := ⟨((node 1).assembleBlock env orders 1 [] 10).value.1.header, [], none⟩

def postHeight : PbBlock :=
  ⟨((node 1).assembleBlock env orders 1 [createPost 1 100 1] 10).value.1.header, [createPost 1 100 1], none⟩

/-- Sent to a node that syncs, with no certificate. -/
def bare (block : PbBlock) : Event := .synced orders (fun _ => order) 10 ⟨block, none⟩

/-- Node 2 syncs one of them and node 3 the other. -/
def forkedRun : List (Fin 3 × Event) := [(second, bare emptyHeight), (third, bare postHeight)]

theorem forked_run : Unforged env trio forkedRun ∧
    Always (fun before i _ => AllHonest trio (after env trio before i)) forkedRun ∧
    ((node 2).acceptSynced env orders (fun _ => order) 10 ⟨emptyHeight, none⟩).isOk = true ∧
    ((node 3).acceptSynced env orders (fun _ => order) 10 ⟨postHeight, none⟩).isOk = true ∧
    emptyHeight.header.height = postHeight.header.height ∧
    emptyHeight.header.hash env ≠ postHeight.header.hash env := by
  decide +kernel

theorem commits_bare {e : Engine} {block : PbBlock}
    (h : (e.acceptSynced env orders (fun _ => order) 10 ⟨block, none⟩).isOk = true) :
    ∃ c, e.commits env (bare block) = some c ∧ c.1.header = block.header := by
  obtain ⟨c, hc⟩ := Except.exists_ok h
  exact ⟨c, Except.toOption_eq_some_iff.mpr hc, by rw [(acceptSynced_ok hc).1]; rfl⟩

/-- Blocks without certificates split three honest nodes. -/
theorem forked : (∀ i, AtGenesis env config3 (trio i)) ∧ (Function.Injective fun i => (trio i).address) ∧
    Unforged env trio forkedRun ∧ Always (fun before i _ => AllHonest trio (after env trio before i)) forkedRun ∧
    ∃ c c', Commits env trio forkedRun 1 c ∧ Commits env trio forkedRun 2 c' ∧
      c.1.header.height = c'.1.header.height ∧ c.1.header.hash env ≠ c'.1.header.hash env := by
  obtain ⟨hunforged, hhonest, h₂, h₃, hheight, hhash⟩ := forked_run
  obtain ⟨c, hc, hheader⟩ := commits_bare h₂
  obtain ⟨c', hc', hheader'⟩ := commits_bare h₃
  refine ⟨trio_atGenesis, trio_addresses, hunforged, hhonest, c, c', ⟨[], bare emptyHeight, _, rfl, hc⟩,
    ⟨[(second, bare emptyHeight)], bare postHeight, [], rfl, hc'⟩, ?_⟩
  rw [hheader, hheader']
  exact ⟨hheight, hhash⟩

end

end Drana
