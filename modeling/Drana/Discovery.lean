/-
How far discovery reaches (`discoverOnce` of `internal/p2p/peer.go`). A node
that has asked all its peers knows what they knew when it began, and they know
it. So each time every node has asked its peers, the distance at which nodes
know each other doubles, whatever else goes on in between.
-/
import Drana.Peers
import Drana.Lib.Trail

namespace Drana

namespace Net

variable {ι : Type} [DecidableEq ι] {s s' b : Net ι} {ev : Gossip ι} {evs evs' : List (Gossip ι)} {i j : ι} {a : String}

/-! ## What goes well -/

def advertised (s : Net ι) (i : ι) : String := (s.managers i).advertiseAddr

/-- An address is known, or is one that is never added. -/
def Has (s : Net ι) (i : ι) (a : String) : Prop :=
  a ∈ (s.managers i).knownAddrs ∨ a = (s.managers i).selfAddr ∨ a = (s.managers i).advertiseAddr ∨ a = ""

/-- Dialling succeeds, calls go to the node that advertises the address, and
fail, or are answered by an outsider, only if no node does. Outsiders may call. -/
def Healthy (s : Net ι) : Gossip ι → Prop
  | .connect _ dial _ | .serve _ dial | .add _ dial | .retry _ dial => ∀ a, dial a = true
  | .arrive k j => ∀ c ∈ s.calls[k]?, c.dest = s.advertised j
  | .fail i => ∀ k ps known, s.discovery i = .waiting k ps known → ∀ c ∈ s.calls[k]?, ∀ j, c.dest ≠ s.advertised j
  | .forgeReply k _ => ∀ c ∈ s.calls[k]?, ∀ j, c.dest ≠ s.advertised j
  | .close _ => False
  | _ => True

def HealthyAlong : Net ι → List (Gossip ι) → Prop
  | _, [] => True
  | s, ev :: evs => Healthy s ev ∧ ∀ s', s.step ev = some s' → HealthyAlong s' evs

/-- A node begins to ask its peers, and later is done. -/
def Completes (i : ι) (evs : List (Gossip ι)) : Prop :=
  ∃ e₁ peers e₂ dial e₃, evs = e₁ ++ .tick i peers :: e₂ ++ .retry i dial :: e₃

/-- Addresses tell nodes apart. -/
structure Addressed (s : Net ι) : Prop where
  nonempty : ∀ i, s.advertised i ≠ ""
  distinct : ∀ i j, s.advertised i = s.advertised j → i = j
  listens : ∀ i j, s.advertised i = (s.managers j).selfAddr → i = j

/-- A node knows another. -/
def Knows (s : Net ι) (i j : ι) : Prop := i = j ∨ s.advertised j ∈ (s.managers i).knownAddrs

theorem run_append_split (h : HealthyAlong s (evs ++ evs')) (hrun : s.run evs = some s') :
    HealthyAlong s evs ∧ HealthyAlong s' evs' := by
  induction evs generalizing s with
  | nil =>
    cases hrun
    exact ⟨trivial, h⟩
  | cons ev evs ih =>
    obtain ⟨s₁, hs₁, hrun⟩ := run_cons.mp hrun
    refine ⟨⟨h.1, fun s₂ hs₂ => ?_⟩, (ih (h.2 s₁ hs₁) hrun).2⟩
    rw [hs₁] at hs₂
    cases hs₂
    exact (ih (h.2 s₁ hs₁) hrun).1

theorem HealthyAlong.cons (hev : Healthy s ev) (hstep : s.step ev = some s') (h : HealthyAlong s' evs) :
    HealthyAlong s (ev :: evs) := by
  refine ⟨hev, fun s₁ hs₁ => ?_⟩
  rw [hstep] at hs₁
  cases hs₁
  exact h

/-- What healthy steps keep, a healthy run keeps. -/
theorem healthy_induct {P : Net ι → Prop} (hstep : ∀ ev s s', Steps s ev s' → Healthy s ev → P s → P s') (hP : P s)
    (hh : HealthyAlong s evs) (h : s.run evs = some s') : P s' := by
  induction evs generalizing s with
  | nil =>
    cases h
    exact hP
  | cons ev evs ih =>
    obtain ⟨s₁, hs₁, h⟩ := run_cons.mp h
    exact ih (hstep ev s s₁ (step_cases hs₁) hh.1 hP) (hh.2 s₁ hs₁) h

/-! ## What only grows -/

theorem Steps.advertised (h : Steps s ev s') (i : ι) : s'.advertised i = s.advertised i :=
  (h.managed i).grows.advertiseAddr

omit [DecidableEq ι] in
theorem Has.grows (h : Has s i a) (hg : (s.managers i).Grows (s'.managers i)) : Has s' i a := by
  unfold Has at h ⊢
  rw [hg.selfAddr, hg.advertiseAddr]
  exact h.imp_left fun hk => hg.known hk

theorem Steps.has (h : Steps s ev s') (ha : Has s i a) : Has s' i a := ha.grows (h.managed i).grows

/-- What `AddPeer` is given is there then. -/
theorem has_addPeer {dial : String → Bool} : Has (s.manage i (.addPeer dial a)) i a := by
  unfold Has
  rw [manage_same]
  rcases @PeerManager.addPeer_cases (s.managers i) dial a with ⟨hsame, hcases⟩ | ⟨-, hnew⟩
  · rw [hsame]
    tauto
  · rw [hnew]
    exact .inl (Finset.mem_insert_self _ _)

/-- Calls stay where they are, and what they were. -/
theorem Steps.call_kept (h : Steps s ev s') {k : Nat} {c : Call ι} (hc : s.calls[k]? = some c) :
    ∃ state, s'.calls[k]? = some { c with state } := by
  have hsame : ∃ state, some c = some { c with state } := ⟨c.state, rfl⟩
  have hpush : ∀ c', ∃ state, (s.calls ++ [c'])[k]? = some { c with state } := by
    intro c'
    rw [List.getElem?_append_left (List.getElem?_eq_some_iff.mp hc).1, hc]
    exact hsame
  have hset : ∀ k' c' state, s.calls[k']? = some c' →
      ∃ state', (s.calls.set k' { c' with state })[k]? = some { c with state := state' } := by
    intro k' c' state hc'
    rw [List.getElem?_set]
    split
    · next heq =>
      subst heq
      rw [hc] at hc'
      cases hc'
      rw [if_pos (List.getElem?_eq_some_iff.mp hc).1]
      exact ⟨state, rfl⟩
    · rw [hc]
      exact hsame
  cases h with
  | call => exact hpush _
  | forge => exact hpush _
  | arrive hc' _ => exact hset _ _ _ hc'
  | serve hc' _ => exact hset _ _ _ hc'
  | reply hc' _ _ => exact hset _ _ _ hc'
  | forgeReply hc' _ => exact hset _ _ _ hc'
  | connect | close | tick | readKnown | receive | fail | add | added | retry => exact ⟨c.state, hc⟩

theorem Steps.calls_length (h : Steps s ev s') : s.calls.length ≤ s'.calls.length := by
  cases h with
  | call => simp
  | forge => simp
  | arrive => simp [setCall]
  | serve => simp [setCall, manage]
  | reply => simp [setCall]
  | forgeReply => simp [setCall]
  | connect | close | tick | readKnown | receive | fail | add | added | retry => exact Nat.le_refl _

/-! ## Connections -/

/-- The node is connected to all it knows, and does not know itself. -/
structure Settled (pm : PeerManager) : Prop where
  self : pm.selfAddr ∉ pm.knownAddrs
  connected : pm.knownAddrs ⊆ pm.peers

theorem Settled.connectToKnown {pm : PeerManager} {dial : String → Bool} (hself : pm.selfAddr ∉ pm.knownAddrs)
    (hdial : ∀ a, dial a = true) : Settled (pm.connectToKnown dial) := by
  refine ⟨hself, fun a ha => ?_⟩
  have ha : a ∈ pm.knownAddrs := ha
  by_cases hp : a ∈ pm.peers
  · exact Finset.mem_union_left _ hp
  · refine Finset.mem_union_right _ (Finset.mem_filter.mpr ⟨ha, fun heq => hself (heq ▸ ha), hp, hdial a⟩)

theorem Settled.connect {pm : PeerManager} {dial : String → Bool} {endpoints : List String}
    (hself : pm.selfAddr ∉ pm.knownAddrs)
    (hdial : ∀ a, dial a = true) : Settled (pm.connect dial endpoints) :=
  .connectToKnown (by simp [hself]) hdial

theorem Settled.addPeer {pm : PeerManager} {dial : String → Bool} (h : Settled pm) (hdial : ∀ a, dial a = true) :
    Settled (pm.addPeer dial a) := by
  rcases @PeerManager.addPeer_cases pm dial a with ⟨hsame, -⟩ | ⟨⟨hself, -⟩, hnew⟩
  · rw [hsame]
    exact h
  · rw [hnew]
    refine ⟨by simp [h.self, hself.symm], ?_⟩
    dsimp only
    by_cases hp : a ∈ pm.peers
    · rw [if_neg (by simp [hp])]
      exact Finset.insert_subset hp h.connected
    · rw [if_pos ⟨hp, hdial a⟩]
      exact Finset.insert_subset_insert _ h.connected

theorem settled_manage {f : PeerManager → PeerManager} (hs : ∀ i, Settled (s.managers i))
    (hf : Settled (f (s.managers i))) (j : ι) :
    Settled ((s.manage i f).managers j) := by
  by_cases hj : j = i
  · subst hj
    rw [manage_same]
    exact hf
  · rw [manage_other hj]
    exact hs j

theorem Steps.settled (h : Steps s ev s') (hh : Healthy s ev) (hs : ∀ i, Settled (s.managers i)) (j : ι) :
    Settled (s'.managers j) := by
  cases h with
  | connect => exact settled_manage hs (.connect (hs _).self hh) j
  | close => exact hh.elim
  | serve => exact settled_manage hs ((hs _).addPeer hh) j
  | add => exact settled_manage hs ((hs _).addPeer hh) j
  | retry => exact settled_manage hs (.connectToKnown (hs _).self hh) j
  | tick | readKnown | call | arrive | reply | receive | fail | added | forge | forgeReply => exact hs j

/-! ## Calls -/

/-- What a call has come to: the node it is at has, or is about to add, all it was told. -/
def Heard (s : Net ι) (c : Call ι) : Prop :=
  match c.state with
  | .sent => True
  | .serving j rest => c.dest = s.advertised j ∧ ∀ a ∈ greeting c, a ∈ rest ∨ Has s j a
  | .replied (some j) _ => c.dest = s.advertised j ∧ ∀ a ∈ greeting c, Has s j a
  | .replied none _ => ∀ j, c.dest ≠ s.advertised j

theorem Heard.step {c : Call ι} (h : Heard s c) (hstep : Steps s ev s') : Heard s' c := by
  unfold Heard at h ⊢
  split
  · trivial
  · next j rest hc =>
    rw [hc] at h
    exact ⟨h.1.trans (hstep.advertised j).symm, fun a ha => (h.2 a ha).imp_right hstep.has⟩
  · next j peers hc =>
    rw [hc] at h
    exact ⟨h.1.trans (hstep.advertised j).symm, fun a ha => hstep.has (h.2 a ha)⟩
  · next hc =>
    rw [hc] at h
    intro j
    rw [hstep.advertised]
    exact h j

/-- Every call is heard. -/
def AllHeard (s : Net ι) : Prop := ∀ c ∈ s.calls, Heard s c

theorem AllHeard.step (h : AllHeard s) (hh : Healthy s ev) (hstep : Steps s ev s') : AllHeard s' := by
  have hkept : ∀ c ∈ s.calls, Heard s' c := fun c hc => (h c hc).step hstep
  have hset : ∀ {k : Nat} {c : Call ι}, Heard s' c → ∀ c' ∈ s.calls.set k c, Heard s' c' := by
    intro k c hc c' hc'
    rcases List.mem_or_eq_of_mem_set hc' with hold | rfl
    · exact hkept c' hold
    · exact hc
  have hpush : ∀ {dest sender : String} {known : List String}, ∀ c ∈ s.calls ++ [⟨dest, sender, known, .sent⟩],
      Heard s' c := by
    intro dest sender known c hc
    rcases List.mem_append.mp hc with hc | hc
    · exact hkept c hc
    · rw [List.mem_singleton.mp hc]
      trivial
  have hstep' := hstep
  cases hstep with
  | call => exact hpush
  | forge => exact hpush
  | @arrive k j c hc hsent =>
    have hdest := hh c hc
    exact hset ⟨hdest.trans (hstep'.advertised j).symm, fun a ha => .inl ha⟩
  | @serve k dial j c addr rest hc hserving =>
    have hheard := h c (List.mem_of_getElem? hc)
    rw [Heard, hserving] at hheard
    refine hset ⟨hheard.1.trans (hstep'.advertised j).symm, fun a ha => ?_⟩
    rcases hheard.2 a ha with hrest | hhas
    · rcases List.mem_cons.mp hrest with rfl | hrest
      · exact .inr has_addPeer
      · exact .inl hrest
    · exact .inr (hstep'.has hhas)
  | @reply k peers j c hc hserving hk =>
    have hheard := h c (List.mem_of_getElem? hc)
    rw [Heard, hserving] at hheard
    refine hset ⟨hheard.1.trans (hstep'.advertised j).symm, fun a ha => ?_⟩
    exact hstep'.has ((hheard.2 a ha).resolve_left List.not_mem_nil)
  | @forgeReply k peers c hc hsent =>
    refine hset fun j => ?_
    rw [hstep'.advertised]
    exact hh c hc j
  | connect | close | tick | readKnown | receive | fail | add | added | retry => exact hkept

/-- A call made since `b` that a node has answered brings what the node knew then. -/
def Answered (b s : Net ι) : Prop :=
  ∀ k c j peers, b.calls.length ≤ k → s.calls[k]? = some c → c.state = .replied (some j) peers →
    ∀ a ∈ (b.managers j).knownAddrs, a ∈ peers

theorem Answered.step (h : Answered b s) (hgrows : ∀ j, (b.managers j).Grows (s.managers j))
    (hstep : Steps s ev s') : Answered b s' := by
  have hset : ∀ {k' : Nat} {c' : Call ι}, (∀ j peers, c'.state = .replied (some j) peers →
      ∀ a ∈ (b.managers j).knownAddrs, a ∈ peers) →
      ∀ k c j peers, b.calls.length ≤ k → (s.calls.set k' c')[k]? = some c → c.state = .replied (some j) peers →
        ∀ a ∈ (b.managers j).knownAddrs, a ∈ peers := by
    intro k' c' hc' k c j peers hk hc hstate
    rw [List.getElem?_set] at hc
    split at hc
    · split at hc
      · cases hc
        exact hc' j peers hstate
      · cases hc
    · exact h k c j peers hk hc hstate
  have hpush : ∀ {dest sender : String} {known : List String}, ∀ k c j peers, b.calls.length ≤ k →
      (s.calls ++ [⟨dest, sender, known, .sent⟩])[k]? = some c → c.state = .replied (some j) peers →
        ∀ a ∈ (b.managers j).knownAddrs, a ∈ peers := by
    intro dest sender known k c j peers hk hc hstate
    rw [List.getElem?_append] at hc
    split at hc
    · exact h k c j peers hk hc hstate
    · rw [List.getElem?_singleton] at hc
      split at hc
      · cases hc
        cases hstate
      · cases hc
  cases hstep with
  | call => exact hpush
  | forge => exact hpush
  | arrive hc _ => exact hset fun j peers hstate => by cases hstate
  | serve hc _ => exact hset fun j peers hstate => by cases hstate
  | @reply k peers j c hc hserving hk =>
    refine hset fun j' peers' hstate a ha => ?_
    cases hstate
    rw [← List.mem_toFinset, hk]
    exact (hgrows j).known ha
  | forgeReply hc _ => exact hset fun j peers hstate => by cases hstate
  | connect | close | tick | readKnown | receive | fail | add | added | retry => exact h

/-! ## One node asks its peers -/

/-- Who advertises the address has told all it knew, and knows who asks. -/
def Done (b s : Net ι) (i : ι) (p : String) : Prop :=
  ∀ j, s.advertised j = p → (∀ a ∈ (b.managers j).knownAddrs, Has s i a) ∧ Has s j (s.advertised i)

/-- The peer is still to be asked, has been asked, or its answer is being added. -/
def Pending (b s : Net ι) (i : ι) (p : String) : Prop :=
  match s.discovery i with
  | .idle => False
  | .listed ps => p ∈ ps
  | .asking ps _ => p ∈ ps
  | .waiting k ps _ => p ∈ ps ∨ b.calls.length ≤ k ∧ ∃ c, s.calls[k]? = some c ∧ c.senderAddr = s.advertised i ∧
    c.dest = p
  | .adding resp ps _ =>
    p ∈ ps ∨ ∀ j, s.advertised j = p → (∀ a ∈ (b.managers j).knownAddrs, Has s i a ∨ a ∈ resp) ∧ Has s j (s.advertised i)

variable {p : String}

theorem Done.step (h : Done b s i p) (hstep : Steps s ev s') : Done b s' i p := by
  intro j hj
  rw [hstep.advertised] at hj ⊢
  exact ⟨fun a ha => hstep.has ((h j hj).1 a ha), hstep.has (h j hj).2⟩

/-- Where the node's own goroutine does not move. -/
theorem Pending.same (h : Pending b s i p) (hstep : Steps s ev s') (hd : s'.discovery i = s.discovery i) :
    Pending b s' i p := by
  unfold Pending at h ⊢
  rw [hd]
  split
  · next hi => rwa [hi] at h
  · next hi => rwa [hi] at h
  · next hi => rwa [hi] at h
  · next k ps known hi =>
    rw [hi] at h
    rcases h with h | ⟨hk, c, hc, hsender, hdest⟩
    · exact .inl h
    · obtain ⟨state, hc'⟩ := hstep.call_kept hc
      exact .inr ⟨hk, _, hc', hsender.trans (hstep.advertised i).symm, hdest⟩
  · next resp ps known hi =>
    rw [hi] at h
    refine h.imp_right fun h j hj => ?_
    rw [hstep.advertised] at hj ⊢
    exact ⟨fun a ha => ((h j hj).1 a ha).imp_left hstep.has, hstep.has (h j hj).2⟩

/-- What holds of the net all along. -/
structure Open (s : Net ι) : Prop where
  addressed : Addressed s
  settled : ∀ i, Settled (s.managers i)
  heard : AllHeard s

theorem Open.step (h : Open s) (hh : Healthy s ev) (hstep : Steps s ev s') : Open s' := by
  have hself : ∀ i, (s'.managers i).selfAddr = (s.managers i).selfAddr := fun i => (hstep.managed i).grows.selfAddr
  refine ⟨⟨fun i => ?_, fun i j hij => ?_, fun i j hij => ?_⟩, hstep.settled hh h.settled, h.heard.step hh hstep⟩
  · rw [hstep.advertised]
    exact h.addressed.nonempty i
  · rw [hstep.advertised, hstep.advertised] at hij
    exact h.addressed.distinct i j hij
  · rw [hstep.advertised, hself] at hij
    exact h.addressed.listens i j hij

/-- One step of asking: what was pending is pending, or done. -/
theorem Pending.step (h : Pending b s i p) (hopen : Open s) (hans : Answered b s) (hlen : b.calls.length ≤ s.calls.length)
    (hh : Healthy s ev) (hstep : Steps s ev s') : Done b s' i p ∨ Pending b s' i p := by
  have hother : ∀ {j : ι} {d : Discovery} {t : Net ι}, t.discovery = s.discovery → j ≠ i →
      (t.discover j d).discovery i = s.discovery i := by
    intro j d t ht hj
    rw [discover_other hj.symm, ht]
  have hstep' := hstep
  cases hstep with
  | connect | close | arrive | serve | reply | forge | forgeReply => exact .inr (h.same hstep' rfl)
  | @tick j peers hd hp =>
    by_cases hj : j = i
    · subst hj
      rw [Pending, hd] at h
      exact h.elim
    · exact .inr (h.same hstep' (hother rfl hj))
  | @readKnown j peers myKnown hd hk =>
    by_cases hj : j = i
    · subst hj
      rw [Pending, hd] at h
      refine .inr ?_
      rw [Pending, discover_same]
      exact h
    · exact .inr (h.same hstep' (hother rfl hj))
  | @call j peer peers myKnown hd =>
    by_cases hj : j = i
    · subst hj
      rw [Pending, hd] at h
      refine .inr ?_
      have hnew : ∀ c, (s.calls ++ [c])[s.calls.length]? = some c := fun c => by simp
      rw [Pending]
      simp only [discover_same]
      rcases List.mem_cons.mp h with rfl | h
      · exact .inr ⟨hlen, _, hnew _, rfl, rfl⟩
      · exact .inl h
    · exact .inr (h.same hstep' (hother rfl hj))
  | @receive j k peers myKnown c server resp hd hc hreplied =>
    by_cases hj : j = i
    · subst hj
      rw [Pending, hd] at h
      refine .inr ?_
      rw [Pending, discover_same]
      rcases h with h | ⟨hk, c', hc', hsender, hdest⟩
      · exact .inl h
      · rw [hc] at hc'
        cases hc'
        refine .inr fun j' hj' => ?_
        have hheard := hopen.heard c (List.mem_of_getElem? hc)
        rw [Heard, hreplied] at hheard
        have hj' : s.advertised j' = c.dest := hj'.trans hdest.symm
        cases server with
        | none => exact absurd hj'.symm (hheard j')
        | some server =>
          -- The peer is the one that has answered.
          have heq := hopen.addressed.distinct _ _ (hj'.trans hheard.1)
          subst heq
          refine ⟨fun a ha => .inr (hans k c j' resp hk hc hreplied a ha), hheard.2 _ ?_⟩
          refine List.mem_append_left _ ?_
          rw [if_neg (by rw [hsender]; exact hopen.addressed.nonempty j), hsender]
          exact List.mem_singleton_self _
    · exact .inr (h.same hstep' (hother rfl hj))
  | @fail j k peers myKnown hd =>
    by_cases hj : j = i
    · subst hj
      rw [Pending, hd] at h
      rcases h with h | ⟨-, c, hc, -, rfl⟩
      · refine .inr ?_
        rw [Pending, discover_same]
        exact h
      · exact .inl fun j' hj' => absurd hj'.symm (hh k peers myKnown hd c hc j')
    · exact .inr (h.same hstep' (hother rfl hj))
  | @add j dial addr resp peers myKnown hd =>
    by_cases hj : j = i
    · subst hj
      rw [Pending, hd] at h
      refine .inr ?_
      rw [Pending, discover_same]
      refine h.imp_right fun h j' hj' => ?_
      rw [hstep'.advertised] at hj' ⊢
      refine ⟨fun a ha => ?_, hstep'.has (h j' hj').2⟩
      rcases (h j' hj').1 a ha with hhas | hresp
      · exact .inl (hstep'.has hhas)
      · rcases List.mem_cons.mp hresp with rfl | hresp
        · exact .inl has_addPeer
        · exact .inr hresp
    · exact .inr (h.same hstep' (hother rfl hj))
  | @added j dial peers myKnown hd =>
    by_cases hj : j = i
    · subst hj
      rw [Pending, hd] at h
      rcases h with h | h
      · refine .inr ?_
        rw [Pending, discover_same]
        exact h
      · refine .inl fun j' hj' => ?_
        exact ⟨fun a ha => ((h j' hj').1 a ha).resolve_right List.not_mem_nil, (h j' hj').2⟩
    · exact .inr (h.same hstep' (hother rfl hj))
  | @retry j dial myKnown hd =>
    by_cases hj : j = i
    · subst hj
      rw [Pending, hd] at h
      exact absurd h List.not_mem_nil
    · exact .inr (h.same hstep' (hother rfl hj))

/-- While a node asks its peers, `b` being the net when it began. -/
structure Asking (b s : Net ι) (i : ι) (p : String) : Prop where
  isOpen : Open s
  grows : ∀ j, (b.managers j).Grows (s.managers j)
  answered : Answered b s
  length : b.calls.length ≤ s.calls.length
  asked : Done b s i p ∨ Pending b s i p

theorem Asking.step (h : Asking b s i p) (hh : Healthy s ev) (hstep : Steps s ev s') : Asking b s' i p where
  isOpen := h.isOpen.step hh hstep
  grows := fun j => (h.grows j).trans (hstep.managed j).grows
  answered := h.answered.step h.grows hstep
  length := h.length.trans hstep.calls_length
  asked := by
    rcases h.asked with hdone | hpending
    · exact .inl (hdone.step hstep)
    · exact hpending.step h.isOpen h.answered h.length hh hstep

/-- When it begins, all it knows is pending. -/
theorem Asking.begin {peers : List String} (hopen : Open s) (htick : s.step (.tick i peers) = some s')
    (hp : p ∈ (s.managers i).knownAddrs) :
    Asking s s' i p := by
  have hstep := step_cases htick
  have htrue : Healthy s (.tick i peers) := trivial
  refine ⟨hopen.step htrue hstep, fun j => (hstep.managed j).grows, ?_, hstep.calls_length, .inr ?_⟩
  · cases hstep with
    | tick hd hpeers =>
      intro k c j peers' hk hc
      rw [discover_calls, List.getElem?_eq_none hk] at hc
      cases hc
  · cases hstep with
    | tick hd hpeers =>
      rw [Pending, discover_same]
      show p ∈ peers
      rw [← List.mem_toFinset, hpeers]
      exact (hopen.settled i).connected hp

/-- When it ends, nothing is pending. -/
theorem Asking.done {dial : String → Bool} (h : Asking b s i p) (hh : Healthy s (.retry i dial))
    (hretry : s.step (.retry i dial) = some s') :
    Done b s' i p := by
  have hstep := step_cases hretry
  refine (h.step hh hstep).asked.resolve_right fun hpending => ?_
  cases hstep with
  | retry hd =>
    rw [Pending, discover_same] at hpending
    exact hpending

/-! ## All nodes ask their peers -/

omit [DecidableEq ι] in
theorem knows_of_has (haddr : Addressed s) (h : Has s i (s.advertised j)) : Knows s i j := by
  rcases h with hknown | hself | hadv | hempty
  · exact .inr hknown
  · exact .inl (haddr.listens j i hself).symm
  · exact .inl (haddr.distinct j i hadv).symm
  · exact absurd hempty (haddr.nonempty j)

theorem knows_run (h : Knows s i j) (hrun : s.run evs = some s') : Knows s' i j := by
  refine h.imp_right fun hknown => ?_
  have hadv : s'.advertised j = s.advertised j := (run_grows hrun j).advertiseAddr
  rw [hadv]
  exact (run_grows hrun i).known hknown

theorem open_run (h : Open s) (hh : HealthyAlong s evs) (hrun : s.run evs = some s') : Open s' :=
  healthy_induct (fun _ _ _ hstep hh h => h.step hh hstep) h hh hrun

/-- A node that has asked its peers knows what they knew, and they know it. -/
theorem completes_knows (hopen : Open s) (hh : HealthyAlong s evs) (hc : Completes i evs) (hrun : s.run evs = some s')
    (hij : Knows s i j) : Knows s' j i ∧ ∀ k, Knows s j k → Knows s' i k := by
  rcases hij with rfl | hij
  · exact ⟨.inl rfl, fun k hk => knows_run hk hrun⟩
  obtain ⟨e₁, peers, e₂, dial, e₃, rfl⟩ := hc
  have hopen' := open_run hopen hh hrun
  have hgrows := run_grows hrun
  have hadv : ∀ k, s'.advertised k = s.advertised k := fun k => (hgrows k).advertiseAddr
  -- The net when the node begins is `b`, and when it is about to end, `t`.
  obtain ⟨t, hbt, hend⟩ := run_append.mp hrun
  obtain ⟨b, hsb, hbt⟩ := run_append.mp hbt
  obtain ⟨b', htick, hbt⟩ := run_cons.mp hbt
  obtain ⟨t', hretry, hend⟩ := run_cons.mp hend
  obtain ⟨hh₁, hh₃⟩ := run_append_split hh (run_append.mpr ⟨b, hsb, run_cons.mpr ⟨b', htick, hbt⟩⟩)
  obtain ⟨hh₁, hh₂⟩ := run_append_split hh₁ hsb
  have hbegin : Asking b b' i (s.advertised j) :=
    .begin (open_run hopen hh₁ hsb) htick ((run_grows hsb i).known hij)
  have hasking : Asking b t i (s.advertised j) :=
    healthy_induct (P := fun u => Asking b u i (s.advertised j)) (fun _ _ _ hstep hh h => h.step hh hstep) hbegin
      (hh₂.2 b' htick) hbt
  have hdone : Done b s' i (s.advertised j) :=
    run_induct (P := fun u => Done b u i (s.advertised j)) (fun _ _ _ _ hstep h => h.step hstep)
      (hasking.done hh₃.1 hretry) hend
  obtain ⟨htold, hback⟩ := hdone j (hadv j)
  refine ⟨knows_of_has hopen'.addressed hback, fun k hk => ?_⟩
  rcases hk with rfl | hk
  · exact knows_run (.inr hij) hrun
  · refine knows_of_has hopen'.addressed ?_
    rw [hadv]
    exact htold _ ((run_grows hsb j).known hk)

omit [DecidableEq ι] in
theorem Open.fresh (hfresh : s.Fresh) (hsettled : ∀ i, Settled (s.managers i)) (haddr : Addressed s) : Open s := by
  refine ⟨haddr, hsettled, fun c hc => ?_⟩
  rw [hfresh.calls] at hc
  cases hc

/-- Rounds, each with a whole asking of the peers by every node: each halves the distance. -/
theorem rounds_know {rounds : List (List (Gossip ι))} (hopen : Open s) (hh : HealthyAlong s rounds.flatten)
    (hcompletes : ∀ evs ∈ rounds, ∀ i, Completes i evs) (hrun : s.run rounds.flatten = some s') {m : Nat}
    (hpath : Trail (Knows s) m i j)
    (hm : m ≤ 2 ^ rounds.length) : Knows s' i j := by
  induction rounds generalizing s m with
  | nil =>
    cases hrun
    cases hpath with
    | nil => exact .inl rfl
    | cons hij hrest =>
      cases hrest with
      | nil => exact hij
      | cons =>
        rw [List.length_nil, Nat.pow_zero] at hm
        omega
  | cons evs rounds ih =>
    rw [List.flatten_cons] at hh hrun
    obtain ⟨s₁, hround, hrest⟩ := run_append.mp hrun
    obtain ⟨hh₁, hh₂⟩ := run_append_split hh hround
    have hround' := fun i j => @completes_knows ι _ s s₁ evs i j hopen hh₁ (hcompletes evs List.mem_cons_self i) hround
    rw [List.length_cons, Nat.pow_succ'] at hm
    obtain ⟨m', hm', hpath'⟩ := hpath.halve (S := Knows s₁) (fun _ => .inl rfl)
      (fun i j k hij => (hround' i j hij).2 k) hm
    exact ih (open_run hopen hh₁ hround) hh₂ (fun evs hevs => hcompletes evs (List.mem_cons_of_mem _ hevs)) hrest hpath'
      hm'

/-- **Everyone knows everyone**: where a chain of at most `2 ^ n` nodes, each of
which knows the next or is known to it, joins two nodes, these know each other
after `n + 1` rounds, each of which holds a whole asking of the peers by every
node. All start connected to what they know, and no dial or call fails. -/
theorem everyone_knows {rounds : List (List (Gossip ι))} {m n : Nat} (hfresh : s.Fresh)
    (hsettled : ∀ i, Settled (s.managers i))
    (haddr : Addressed s) (hh : HealthyAlong s rounds.flatten) (hcompletes : ∀ evs ∈ rounds, ∀ i, Completes i evs)
    (hlen : rounds.length = n + 1) (hrun : s.run rounds.flatten = some s')
    (hpath : Trail (fun i j => Knows s i j ∨ Knows s j i) m i j) (hm : m ≤ 2 ^ n) : Knows s' i j := by
  obtain ⟨evs, rounds, rfl⟩ := List.exists_cons_of_length_eq_add_one hlen
  have hopen := Open.fresh hfresh hsettled haddr
  rw [List.flatten_cons] at hh hrun
  obtain ⟨s₁, hround, hrest⟩ := run_append.mp hrun
  obtain ⟨hh₁, hh₂⟩ := run_append_split hh hround
  -- After the first round, who is known knows back.
  have hboth : ∀ i j, Knows s i j ∨ Knows s j i → Knows s₁ i j := by
    rintro i j (hij | hji)
    · exact knows_run hij hround
    · exact (completes_knows hopen hh₁ (hcompletes evs List.mem_cons_self j) hround hji).1
  rw [List.length_cons] at hlen
  refine rounds_know (open_run hopen hh₁ hround) hh₂ (fun evs hevs => hcompletes evs (List.mem_cons_of_mem _ hevs)) hrest
    (hpath.mono hboth) ?_
  rwa [Nat.succ.inj hlen]

/-- The pair, connected. -/
def connected : Net Bool := { pair with managers := fun i => (pair.managers i).connect (fun _ => true) [] }

/-- One asks the other. -/
def asks (i : Bool) : List (Gossip Bool) :=
  let dial := fun _ => true
  let call := if i then 1 else 0
  let mine := if i then "b" else "a"
  let other := if i then "a" else "b"
  [.tick i [other], .readKnown i [other], .call i, .arrive call (!i), .serve call dial, .serve call dial,
    .reply call [mine], .receive i, .add i dial, .add i dial, .retry i dial]

theorem asks_healthy : HealthyAlong connected (asks false ++ asks true) := by
  have hdial : ∀ a : String, (fun _ => true) a = true := fun _ => rfl
  refine .cons trivial rfl (.cons trivial rfl (.cons trivial rfl (.cons ?_ rfl ?_)))
  · intro c hc
    cases hc
    rfl
  refine .cons hdial rfl (.cons hdial rfl (.cons trivial rfl (.cons trivial rfl ?_)))
  refine .cons hdial rfl (.cons hdial rfl (.cons hdial rfl ?_))
  refine .cons trivial rfl (.cons trivial rfl (.cons trivial rfl (.cons ?_ rfl ?_)))
  · intro c hc
    cases hc
    rfl
  refine .cons hdial rfl (.cons hdial rfl (.cons trivial rfl (.cons trivial rfl ?_)))
  exact .cons hdial rfl (.cons hdial rfl (.cons hdial rfl trivial))

/-- Once each has asked, the second knows the first too. -/
theorem everyone_knows_pair : ∃ s', connected.run (asks false ++ asks true) = some s' ∧ Knows s' true false := by
  have hcompletes : ∀ evs ∈ [asks false ++ asks true], ∀ i, Completes i evs := by
    intro evs hevs i
    rw [List.mem_singleton.mp hevs]
    cases i with
    | false => exact ⟨[], _, (asks false).tail.dropLast, _, asks true, rfl⟩
    | true => exact ⟨asks false, _, (asks true).tail.dropLast, _, [], rfl⟩
  have hsettled : ∀ i, Settled (connected.managers i) := by
    intro i
    refine .connect ?_ fun _ => rfl
    revert i
    decide
  have haddr : Addressed connected := ⟨by decide, by decide, by decide⟩
  have hknows : Knows connected false true := .inr (by decide)
  exact ⟨_, rfl, @everyone_knows Bool _ connected _ true false [asks false ++ asks true] 1 0
    ⟨fun _ => rfl, rfl⟩ hsettled haddr
    asks_healthy hcompletes rfl rfl (.cons (.inr hknows) .nil) (Nat.le_refl _)⟩

end Net

end Drana
