/-
How nodes find each other (`internal/p2p/peer.go`, `ExchangePeers` of
`internal/p2p/server.go`): each knows some addresses, asks those it is connected
to for theirs, and tells its own.

What runs under a manager's lock is one step; everything between may be
interleaved with whatever other nodes, handlers and outsiders do. A connection
is the address it is to, and dialling may fail each time.
-/
import Mathlib.Data.Finset.Basic
import Mathlib.Data.Finset.Filter
import Mathlib.Data.Finset.Union
import Mathlib.Logic.Function.Basic

namespace Drana

/-! ## One node -/

structure PeerManager where
  peers : Finset String := ∅
  knownAddrs : Finset String
  selfAddr : String
  advertiseAddr : String

namespace PeerManager

/-- `NewPeerManager`, from the addresses of the endpoints. -/
def newPeerManager (endpoints : List String) (selfListenAddr advertiseAddr : String) : PeerManager :=
  let advertiseAddr := if advertiseAddr = "" then selfListenAddr else advertiseAddr
  { knownAddrs := (endpoints.filter fun addr => addr ≠ selfListenAddr ∧ addr ≠ advertiseAddr).toFinset
    selfAddr := selfListenAddr
    advertiseAddr }

def connectToKnown (dial : String → Bool) (pm : PeerManager) : PeerManager :=
  { pm with peers := pm.peers ∪ pm.knownAddrs.filter fun addr => addr ≠ pm.selfAddr ∧ addr ∉ pm.peers ∧ dial addr }

def connect (dial : String → Bool) (endpoints : List String) (pm : PeerManager) : PeerManager :=
  connectToKnown dial { pm with knownAddrs := pm.knownAddrs ∪ (endpoints.filter fun addr => addr ≠ pm.selfAddr).toFinset }

def addPeer (dial : String → Bool) (addr : String) (pm : PeerManager) : PeerManager :=
  if addr = pm.selfAddr ∨ addr = pm.advertiseAddr ∨ addr = "" then pm
  else if addr ∈ pm.knownAddrs then pm
  else
    let pm := { pm with knownAddrs := insert addr pm.knownAddrs }
    if addr ∉ pm.peers ∧ dial addr then { pm with peers := insert addr pm.peers } else pm

def close (pm : PeerManager) : PeerManager := { pm with peers := ∅ }

end PeerManager

/-! ## The network -/

/-- A call of `ExchangePeers`: on its way, at a node that has some addresses
left to add, or answered, by a node or by somebody else. -/
inductive CallState (ι : Type)
  | sent
  | serving (j : ι) (rest : List String)
  | replied (server : Option ι) (peers : List String)

structure Call (ι : Type) where
  dest : String
  senderAddr : String
  knownPeers : List String
  state : CallState ι

/-- Where `discoverOnce` is: `peers` are those still to ask. -/
inductive Discovery
  | idle
  | listed (peers : List String)
  | asking (peers myKnown : List String)
  | waiting (call : Nat) (peers myKnown : List String)
  | adding (resp peers myKnown : List String)

structure Net (ι : Type) where
  managers : ι → PeerManager
  discovery : ι → Discovery
  calls : List (Call ι)

/-- One step somewhere. Lists of addresses are in the order in which a map was
ranged over. -/
inductive Gossip (ι : Type)
  | connect (i : ι) (dial : String → Bool) (endpoints : List String)
  | close (i : ι)
  /-- `discoverOnce` begins. -/
  | tick (i : ι) (peers : List String)
  | readKnown (i : ι) (myKnown : List String)
  | call (i : ι)
  | arrive (call : Nat) (j : ι)
  | serve (call : Nat) (dial : String → Bool)
  | reply (call : Nat) (peers : List String)
  | receive (i : ι)
  /-- The call returns an error, or its time is up. -/
  | fail (i : ι)
  | add (i : ι) (dial : String → Bool)
  /-- `discoverOnce` ends. -/
  | retry (i : ι) (dial : String → Bool)
  /-- An outsider calls. -/
  | forge (dest senderAddr : String) (knownPeers : List String)
  /-- An outsider answers. -/
  | forgeReply (call : Nat) (peers : List String)

section

variable {ι : Type}

/-- `Connect` is not given the node's own advertised address, or the empty one. -/
def Gossip.Clean (advertised : ι → String) : Gossip ι → Prop
  | .connect i _ endpoints => advertised i ∉ endpoints ∧ "" ∉ endpoints
  | _ => True

/-- The addresses that a step brings into the net. -/
def Gossip.names : Gossip ι → List String
  | .connect _ _ endpoints => endpoints
  | .forge _ senderAddr knownPeers => senderAddr :: knownPeers
  | .forgeReply _ peers => peers
  | _ => []

/-- The addresses a goroutine is about to tell or to add. -/
def Discovery.holds : Discovery → List String
  | .idle | .listed _ => []
  | .asking _ myKnown | .waiting _ _ myKnown => myKnown
  | .adding resp _ myKnown => resp ++ myKnown

def CallState.holds : CallState ι → List String
  | .sent => []
  | .serving _ rest => rest
  | .replied _ peers => peers

end

namespace Net

variable {ι : Type}

/-- `ExchangePeers` adds these, one by one. -/
def greeting (c : Call ι) : List String := (if c.senderAddr = "" then [] else [c.senderAddr]) ++ c.knownPeers

variable [DecidableEq ι]

def manage (s : Net ι) (i : ι) (f : PeerManager → PeerManager) : Net ι :=
  { s with managers := Function.update s.managers i (f (s.managers i)) }

def discover (s : Net ι) (i : ι) (d : Discovery) : Net ι := { s with discovery := Function.update s.discovery i d }

def setCall (s : Net ι) (k : Nat) (c : Call ι) : Net ι := { s with calls := s.calls.set k c }

section

variable {s : Net ι} {i j : ι} {f : PeerManager → PeerManager} {d : Discovery} {k : Nat} {c : Call ι}

@[simp] theorem manage_same : (s.manage i f).managers i = f (s.managers i) := Function.update_self ..

theorem manage_other (h : j ≠ i) : (s.manage i f).managers j = s.managers j := Function.update_of_ne h ..

@[simp] theorem manage_discovery : (s.manage i f).discovery = s.discovery := rfl

@[simp] theorem manage_calls : (s.manage i f).calls = s.calls := rfl

@[simp] theorem discover_same : (s.discover i d).discovery i = d := Function.update_self ..

theorem discover_other (h : j ≠ i) : (s.discover i d).discovery j = s.discovery j := Function.update_of_ne h ..

@[simp] theorem discover_managers : (s.discover i d).managers = s.managers := rfl

@[simp] theorem discover_calls : (s.discover i d).calls = s.calls := rfl

omit [DecidableEq ι] in
@[simp] theorem setCall_managers : (s.setCall k c).managers = s.managers := rfl

omit [DecidableEq ι] in
@[simp] theorem setCall_discovery : (s.setCall k c).discovery = s.discovery := rfl

end

/-- The net after a step, if the step can be made. -/
def step (s : Net ι) : Gossip ι → Option (Net ι)
  | .connect i dial endpoints => some (s.manage i (.connect dial endpoints))
  | .close i => some (s.manage i .close)
  | .tick i peers =>
    match s.discovery i with
    | .idle => if peers.toFinset = (s.managers i).peers then some (s.discover i (.listed peers)) else none
    | _ => none
  | .readKnown i myKnown =>
    match s.discovery i with
    | .listed peers =>
      if myKnown.toFinset = (s.managers i).knownAddrs then some (s.discover i (.asking peers myKnown)) else none
    | _ => none
  | .call i =>
    match s.discovery i with
    | .asking (peer :: peers) myKnown =>
      some { s.discover i (.waiting s.calls.length peers myKnown) with
        calls := s.calls ++ [⟨peer, (s.managers i).advertiseAddr, myKnown, .sent⟩] }
    | _ => none
  | .arrive k j =>
    match s.calls[k]? with
    | some ⟨dest, sender, known, .sent⟩ =>
      some (s.setCall k ⟨dest, sender, known, .serving j (greeting (⟨dest, sender, known, .sent⟩ : Call ι))⟩)
    | _ => none
  | .serve k dial =>
    match s.calls[k]? with
    | some ⟨dest, sender, known, .serving j (addr :: rest)⟩ =>
      some ((s.manage j (.addPeer dial addr)).setCall k ⟨dest, sender, known, .serving j rest⟩)
    | _ => none
  | .reply k peers =>
    match s.calls[k]? with
    | some ⟨dest, sender, known, .serving j []⟩ =>
      if peers.toFinset = (s.managers j).knownAddrs then some (s.setCall k ⟨dest, sender, known, .replied (some j) peers⟩)
      else none
    | _ => none
  | .receive i =>
    match s.discovery i with
    | .waiting k peers myKnown =>
      match s.calls[k]? with
      | some ⟨_, _, _, .replied _ resp⟩ => some (s.discover i (.adding resp peers myKnown))
      | _ => none
    | _ => none
  | .fail i =>
    match s.discovery i with
    | .waiting _ peers myKnown => some (s.discover i (.asking peers myKnown))
    | _ => none
  | .add i dial =>
    match s.discovery i with
    | .adding (addr :: resp) peers myKnown =>
      some ((s.manage i (.addPeer dial addr)).discover i (.adding resp peers myKnown))
    | .adding [] peers myKnown => some (s.discover i (.asking peers myKnown))
    | _ => none
  | .retry i dial =>
    match s.discovery i with
    | .asking [] _ => some ((s.manage i (.connectToKnown dial)).discover i .idle)
    | _ => none
  | .forge dest senderAddr knownPeers => some { s with calls := s.calls ++ [⟨dest, senderAddr, knownPeers, .sent⟩] }
  | .forgeReply k peers =>
    match s.calls[k]? with
    | some ⟨dest, sender, known, .sent⟩ => some (s.setCall k ⟨dest, sender, known, .replied none peers⟩)
    | _ => none

def run (s : Net ι) (evs : List (Gossip ι)) : Option (Net ι) := evs.foldlM step s

/-- What each step finds and what it leaves. -/
inductive Steps (s : Net ι) : Gossip ι → Net ι → Prop
  | connect {i dial endpoints} : Steps s (.connect i dial endpoints) (s.manage i (.connect dial endpoints))
  | close {i} : Steps s (.close i) (s.manage i .close)
  | tick {i peers} : s.discovery i = .idle → peers.toFinset = (s.managers i).peers →
    Steps s (.tick i peers) (s.discover i (.listed peers))
  | readKnown {i peers myKnown} : s.discovery i = .listed peers → myKnown.toFinset = (s.managers i).knownAddrs →
    Steps s (.readKnown i myKnown) (s.discover i (.asking peers myKnown))
  | call {i peer peers myKnown} : s.discovery i = .asking (peer :: peers) myKnown →
    Steps s (.call i) { s.discover i (.waiting s.calls.length peers myKnown) with
      calls := s.calls ++ [⟨peer, (s.managers i).advertiseAddr, myKnown, .sent⟩] }
  | arrive {k j c} : s.calls[k]? = some c → c.state = .sent →
    Steps s (.arrive k j) (s.setCall k { c with state := .serving j (greeting c) })
  | serve {k dial j c addr rest} : s.calls[k]? = some c → c.state = .serving j (addr :: rest) →
    Steps s (.serve k dial) ((s.manage j (.addPeer dial addr)).setCall k { c with state := .serving j rest })
  | reply {k peers j c} : s.calls[k]? = some c → c.state = .serving j [] → peers.toFinset = (s.managers j).knownAddrs →
    Steps s (.reply k peers) (s.setCall k { c with state := .replied (some j) peers })
  | receive {i k peers myKnown c server resp} : s.discovery i = .waiting k peers myKnown → s.calls[k]? = some c →
    c.state = .replied server resp → Steps s (.receive i) (s.discover i (.adding resp peers myKnown))
  | fail {i k peers myKnown} : s.discovery i = .waiting k peers myKnown →
    Steps s (.fail i) (s.discover i (.asking peers myKnown))
  | add {i dial addr resp peers myKnown} : s.discovery i = .adding (addr :: resp) peers myKnown →
    Steps s (.add i dial) ((s.manage i (.addPeer dial addr)).discover i (.adding resp peers myKnown))
  | added {i dial peers myKnown} : s.discovery i = .adding [] peers myKnown →
    Steps s (.add i dial) (s.discover i (.asking peers myKnown))
  | retry {i dial myKnown} : s.discovery i = .asking [] myKnown →
    Steps s (.retry i dial) ((s.manage i (.connectToKnown dial)).discover i .idle)
  | forge {dest senderAddr knownPeers} : Steps s (.forge dest senderAddr knownPeers)
      { s with calls := s.calls ++ [⟨dest, senderAddr, knownPeers, .sent⟩] }
  | forgeReply {k peers c} : s.calls[k]? = some c → c.state = .sent →
    Steps s (.forgeReply k peers) (s.setCall k { c with state := .replied none peers })

variable {s s' : Net ι} {ev : Gossip ι} {evs evs' : List (Gossip ι)}

theorem step_cases (h : s.step ev = some s') : Steps s ev s' := by
  cases ev with
  | connect i dial endpoints => cases h; exact .connect
  | close i => cases h; exact .close
  | tick i peers =>
    simp only [step] at h
    split at h
    · next hd =>
      split at h
      · next hp => cases h; exact .tick hd hp
      · cases h
    · cases h
  | readKnown i myKnown =>
    simp only [step] at h
    split at h
    · next peers hd =>
      split at h
      · next hk => cases h; exact .readKnown hd hk
      · cases h
    · cases h
  | call i =>
    simp only [step] at h
    split at h
    · next hd => cases h; exact .call hd
    · cases h
  | arrive k j =>
    simp only [step] at h
    split at h
    · next hc => cases h; exact .arrive hc rfl
    · cases h
  | serve k dial =>
    simp only [step] at h
    split at h
    · next hc => cases h; exact .serve hc rfl
    · cases h
  | reply k peers =>
    simp only [step] at h
    split at h
    · next hc =>
      split at h
      · next hk => cases h; exact .reply hc rfl hk
      · cases h
    · cases h
  | receive i =>
    simp only [step] at h
    split at h
    · next hd =>
      split at h
      · next hc => cases h; exact .receive hd hc rfl
      · cases h
    · cases h
  | fail i =>
    simp only [step] at h
    split at h
    · next hd => cases h; exact .fail hd
    · cases h
  | add i dial =>
    simp only [step] at h
    split at h
    · next hd => cases h; exact .add hd
    · next hd => cases h; exact .added hd
    · cases h
  | retry i dial =>
    simp only [step] at h
    split at h
    · next hd => cases h; exact .retry hd
    · cases h
  | forge dest senderAddr knownPeers => cases h; exact .forge
  | forgeReply k peers =>
    simp only [step] at h
    split at h
    · next hc => cases h; exact .forgeReply hc rfl
    · cases h

theorem run_cons : s.run (ev :: evs) = some s' ↔ ∃ s₁, s.step ev = some s₁ ∧ s₁.run evs = some s' := by
  rw [run, List.foldlM_cons]
  exact Option.bind_eq_some_iff

theorem run_append : s.run (evs ++ evs') = some s' ↔ ∃ s₁, s.run evs = some s₁ ∧ s₁.run evs' = some s' := by
  rw [run, List.foldlM_append]
  exact Option.bind_eq_some_iff

/-- What every step keeps, a run keeps. -/
theorem run_induct {P : Net ι → Prop} (hstep : ∀ ev ∈ evs, ∀ s s', Steps s ev s' → P s → P s') (hP : P s)
    (h : s.run evs = some s') : P s' := by
  induction evs generalizing s with
  | nil =>
    cases h
    exact hP
  | cons ev evs ih =>
    obtain ⟨s₁, hs₁, h⟩ := run_cons.mp h
    exact ih (fun ev hev => hstep ev (List.mem_cons_of_mem _ hev))
      (hstep ev List.mem_cons_self s s₁ (step_cases hs₁) hP) h

end Net

/-! ## What a manager never does -/

namespace PeerManager

variable {pm : PeerManager} {dial : String → Bool} {addr a : String} {endpoints : List String}

/-- A manager knows other nodes, by addresses that are some, and is connected to nodes it knows. -/
structure Sound (pm : PeerManager) : Prop where
  self : pm.selfAddr ∉ pm.knownAddrs
  advertised : pm.advertiseAddr ∉ pm.knownAddrs
  nonempty : "" ∉ pm.knownAddrs
  connected : pm.peers ⊆ pm.knownAddrs

theorem Sound.new {listen advertise : String} (hne : "" ∉ endpoints) :
    (newPeerManager endpoints listen advertise).Sound where
  self := by simp [newPeerManager]
  advertised := by simp [newPeerManager]
  nonempty := by simp [newPeerManager, hne]
  connected := Finset.empty_subset _

theorem Sound.connectToKnown (h : pm.Sound) : (pm.connectToKnown dial).Sound where
  self := h.self
  advertised := h.advertised
  nonempty := h.nonempty
  connected := Finset.union_subset h.connected (Finset.filter_subset _ _)

theorem Sound.connect (h : pm.Sound) (hadv : pm.advertiseAddr ∉ endpoints) (hne : "" ∉ endpoints) :
    (pm.connect dial endpoints).Sound := by
  refine Sound.connectToKnown ⟨?_, ?_, ?_, h.connected.trans Finset.subset_union_left⟩
  · simp [h.self]
  · simp [h.advertised, hadv]
  · simp [h.nonempty, hne]

/-- What `AddPeer` does with an address: nothing, to its own or one it knows; else it is known. -/
theorem addPeer_cases : (pm.addPeer dial addr = pm ∧
      (addr = pm.selfAddr ∨ addr = pm.advertiseAddr ∨ addr = "" ∨ addr ∈ pm.knownAddrs)) ∨
    ((addr ≠ pm.selfAddr ∧ addr ≠ pm.advertiseAddr ∧ addr ≠ "" ∧ addr ∉ pm.knownAddrs) ∧
      pm.addPeer dial addr = { pm with
        knownAddrs := insert addr pm.knownAddrs
        peers := if addr ∉ pm.peers ∧ dial addr then insert addr pm.peers else pm.peers }) := by
  unfold addPeer
  split
  · next hown => exact .inl ⟨rfl, by tauto⟩
  · next hown =>
    simp only [not_or] at hown
    split
    · next hknown => exact .inl ⟨rfl, by tauto⟩
    · next hknown =>
      refine .inr ⟨⟨hown.1, hown.2.1, hown.2.2, hknown⟩, ?_⟩
      dsimp only
      split <;> rfl

theorem Sound.addPeer (h : pm.Sound) : (pm.addPeer dial addr).Sound := by
  rcases @addPeer_cases pm dial addr with ⟨hsame, -⟩ | ⟨⟨hself, hadv, hne, -⟩, hnew⟩
  · rw [hsame]
    exact h
  · rw [hnew]
    refine ⟨?_, ?_, ?_, ?_⟩
    · simp [h.self, hself.symm]
    · simp [h.advertised, hadv.symm]
    · simp [h.nonempty, hne.symm]
    · dsimp only
      split
      · exact Finset.insert_subset_insert _ h.connected
      · exact h.connected.trans (Finset.subset_insert _ _)

theorem Sound.close (h : pm.Sound) : pm.close.Sound := ⟨h.self, h.advertised, h.nonempty, Finset.empty_subset _⟩

theorem mem_addPeer (h : a ∈ (pm.addPeer dial addr).knownAddrs) : a = addr ∨ a ∈ pm.knownAddrs := by
  rcases @addPeer_cases pm dial addr with ⟨hsame, -⟩ | ⟨-, hnew⟩
  · rw [hsame] at h
    exact .inr h
  · rw [hnew] at h
    exact Finset.mem_insert.mp h

theorem mem_connect (h : a ∈ (pm.connect dial endpoints).knownAddrs) : a ∈ endpoints ∨ a ∈ pm.knownAddrs := by
  rcases Finset.mem_union.mp h with h | h
  · exact .inr h
  · exact .inl (List.mem_filter.mp (List.mem_toFinset.mp h)).1

/-- Nothing a manager does changes its own addresses, or makes it forget one. -/
structure Grows (pm pm' : PeerManager) : Prop where
  selfAddr : pm'.selfAddr = pm.selfAddr
  advertiseAddr : pm'.advertiseAddr = pm.advertiseAddr
  known : pm.knownAddrs ⊆ pm'.knownAddrs

theorem Grows.refl : Grows pm pm := ⟨rfl, rfl, Finset.Subset.refl _⟩

theorem Grows.trans {pm' pm'' : PeerManager} (h : Grows pm pm') (h' : Grows pm' pm'') : Grows pm pm'' :=
  ⟨h'.selfAddr.trans h.selfAddr, h'.advertiseAddr.trans h.advertiseAddr, h.known.trans h'.known⟩

theorem Grows.connect : Grows pm (pm.connect dial endpoints) := ⟨rfl, rfl, Finset.subset_union_left⟩

theorem Grows.connectToKnown : Grows pm (pm.connectToKnown dial) := ⟨rfl, rfl, Finset.Subset.refl _⟩

theorem Grows.close : Grows pm pm.close := ⟨rfl, rfl, Finset.Subset.refl _⟩

theorem Grows.addPeer : Grows pm (pm.addPeer dial addr) := by
  rcases @addPeer_cases pm dial addr with ⟨hsame, -⟩ | ⟨-, hnew⟩
  · rw [hsame]
    exact .refl
  · rw [hnew]
    exact ⟨rfl, rfl, Finset.subset_insert _ _⟩

end PeerManager

namespace Net

variable {ι : Type} [DecidableEq ι] {s s' : Net ι} {ev : Gossip ι} {evs : List (Gossip ι)} {i : ι}

/-- What a step does to the manager of a node. -/
inductive Managed (ev : Gossip ι) (i : ι) (pm : PeerManager) : PeerManager → Prop
  | same : Managed ev i pm pm
  | connect {dial endpoints} : ev = .connect i dial endpoints → Managed ev i pm (pm.connect dial endpoints)
  | addPeer {dial addr} : Managed ev i pm (pm.addPeer dial addr)
  | connectToKnown {dial} : Managed ev i pm (pm.connectToKnown dial)
  | close : ev = .close i → Managed ev i pm pm.close

theorem managed_update {j : ι} {f : PeerManager → PeerManager} (h : Managed ev j (s.managers j) (f (s.managers j))) :
    Managed ev i (s.managers i) ((s.manage j f).managers i) := by
  by_cases hij : i = j
  · subst hij
    rw [manage_same]
    exact h
  · rw [manage_other hij]
    exact .same

theorem Steps.managed (h : Steps s ev s') (i : ι) : Managed ev i (s.managers i) (s'.managers i) := by
  cases h with
  | connect => exact managed_update (.connect rfl)
  | close => exact managed_update (.close rfl)
  | serve => exact managed_update .addPeer
  | add => exact managed_update .addPeer
  | retry => exact managed_update .connectToKnown
  | tick | readKnown | call | arrive | reply | receive | fail | added | forge | forgeReply => exact .same

omit [DecidableEq ι] in
theorem Managed.grows {pm pm' : PeerManager} (h : Managed ev i pm pm') : pm.Grows pm' := by
  cases h with
  | same => exact .refl
  | connect => exact .connect
  | addPeer => exact .addPeer
  | connectToKnown => exact .connectToKnown
  | close => exact .close

theorem run_grows (h : s.run evs = some s') (i : ι) : (s.managers i).Grows (s'.managers i) :=
  run_induct (P := fun t => (s.managers i).Grows (t.managers i))
    (fun _ _ _ _ hstep hP => hP.trans (hstep.managed i).grows)
    .refl h

/-- **No node knows or dials itself**: whatever others tell it, and in whatever
order, neither its listen address nor the one it advertises is ever among the
addresses it knows; and it is connected to addresses it knows only. It starts
so, and no endpoint it is to connect to is empty or the address it advertises. -/
theorem never_self (hsound : ∀ i, (s.managers i).Sound)
    (hclean : ∀ ev ∈ evs, Gossip.Clean (fun i => (s.managers i).advertiseAddr) ev) (h : s.run evs = some s') (i : ι) :
    (s'.managers i).Sound := by
  have hboth : (s'.managers i).Sound ∧ (s.managers i).Grows (s'.managers i) := by
    refine run_induct (P := fun t => (t.managers i).Sound ∧ (s.managers i).Grows (t.managers i))
      (fun ev hev t t' hstep hP => ?_) ⟨hsound i, .refl⟩ h
    obtain ⟨hP, hgrows⟩ := hP
    have hm := hstep.managed i
    refine ⟨?_, hgrows.trans hm.grows⟩
    generalize t'.managers i = pm' at hm
    cases hm with
    | same => exact hP
    | @connect dial endpoints heq =>
      obtain ⟨hadv, hne⟩ := heq ▸ hclean ev hev
      exact hP.connect (by rw [hgrows.advertiseAddr]; exact hadv) hne
    | addPeer => exact hP.addPeer
    | connectToKnown => exact hP.connectToKnown
    | close => exact hP.close
  exact hboth.1

/-- The first of two nodes knows the second. -/
def seeds (i : Bool) : List String := if i then [] else ["b"]

def pair : Net Bool where
  managers i := .newPeerManager (seeds i) (if i then "127.0.0.1:2" else "127.0.0.1:1") (if i then "b" else "a")
  discovery _ := .idle
  calls := []

def meeting : List (Gossip Bool) :=
  let dial := fun _ => true
  [.connect false dial ["b"], .tick false ["b"], .readKnown false ["b"], .call false, .arrive 0 true, .serve 0 dial,
    .serve 0 dial, .reply 0 ["a"], .receive false, .add false dial, .add false dial, .retry false dial]

/-- The two meet. -/
theorem never_self_pair : ∃ s', pair.run meeting = some s' ∧ ∀ i, (s'.managers i).Sound := by
  have hsound : ∀ i, (pair.managers i).Sound := fun i => .new (by revert i; decide)
  have hclean : ∀ ev ∈ meeting, ev.Clean fun i => (pair.managers i).advertiseAddr := by
    simp [meeting, Gossip.Clean, pair, PeerManager.newPeerManager]
  exact ⟨_, rfl, never_self hsound hclean rfl⟩

/-! ## Where addresses come from -/

/-- All addresses there are, known or told, are of `S`. -/
structure From (S : Set String) (s : Net ι) : Prop where
  known : ∀ i, ∀ a ∈ (s.managers i).knownAddrs, a ∈ S
  advertised : ∀ i, (s.managers i).advertiseAddr ∈ S
  discovery : ∀ i, ∀ a ∈ Discovery.holds (s.discovery i), a ∈ S
  told : ∀ c ∈ s.calls, c.senderAddr ∈ S ∧ (∀ a ∈ c.knownPeers, a ∈ S) ∧ ∀ a ∈ CallState.holds c.state, a ∈ S

variable {S : Set String}

/-- What a manager does with addresses of `S`. -/
theorem From.manage (h : From S s) {f : PeerManager → PeerManager} (hgrows : (s.managers i).Grows (f (s.managers i)))
    (hf : ∀ a ∈ (f (s.managers i)).knownAddrs, a ∈ S ∨ a ∈ (s.managers i).knownAddrs) : From S (s.manage i f) := by
  refine ⟨fun j a ha => ?_, fun j => ?_, h.discovery, h.told⟩
  · by_cases hj : j = i
    · subst hj
      rw [manage_same] at ha
      exact (hf a ha).elim id (h.known j a)
    · rw [manage_other hj] at ha
      exact h.known j a ha
  · by_cases hj : j = i
    · subst hj
      rw [manage_same, hgrows.advertiseAddr]
      exact h.advertised j
    · rw [manage_other hj]
      exact h.advertised j

theorem From.addPeer (h : From S s) {dial : String → Bool} {addr : String} (haddr : addr ∈ S) :
    From S (s.manage i (.addPeer dial addr)) := by
  refine h.manage .addPeer fun a ha => ?_
  rcases PeerManager.mem_addPeer ha with rfl | ha
  · exact .inl haddr
  · exact .inr ha

theorem From.discover (h : From S s) {d : Discovery} (hd : ∀ a ∈ d.holds, a ∈ S) : From S (s.discover i d) := by
  refine ⟨h.known, h.advertised, fun j a ha => ?_, h.told⟩
  by_cases hj : j = i
  · subst hj
    rw [discover_same] at ha
    exact hd a ha
  · rw [discover_other hj] at ha
    exact h.discovery j a ha

omit [DecidableEq ι] in
theorem From.setCall (h : From S s) {k : Nat} {c : Call ι} {state : CallState ι} (hc : s.calls[k]? = some c)
    (hstate : ∀ a ∈ state.holds, a ∈ S) : From S (s.setCall k { c with state }) := by
  refine ⟨h.known, h.advertised, h.discovery, fun c' hc' => ?_⟩
  rcases List.mem_or_eq_of_mem_set hc' with hold | rfl
  · exact h.told c' hold
  · obtain ⟨hsender, hknown, -⟩ := h.told c (List.mem_of_getElem? hc)
    exact ⟨hsender, hknown, hstate⟩

omit [DecidableEq ι] in
theorem From.push (h : From S s) {dest sender : String} {known : List String} (hsender : sender ∈ S)
    (hknown : ∀ a ∈ known, a ∈ S) :
    From S { s with calls := s.calls ++ [⟨dest, sender, known, .sent⟩] } := by
  refine ⟨h.known, h.advertised, h.discovery, fun c hc => ?_⟩
  rcases List.mem_append.mp hc with hc | hc
  · exact h.told c hc
  · rw [List.mem_singleton.mp hc]
    exact ⟨hsender, hknown, fun a ha => by cases ha⟩

/-- One step. -/
theorem From.step (h : From S s) (hnames : ∀ a ∈ ev.names, a ∈ S) (hstep : Steps s ev s') : From S s' := by
  cases hstep with
  | connect => exact h.manage .connect fun a ha => (PeerManager.mem_connect ha).imp_left (hnames a)
  | close => exact h.manage .close fun _ => .inr
  | tick hd hp => exact h.discover fun a ha => absurd ha List.not_mem_nil
  | @readKnown i peers myKnown hd hk =>
    refine h.discover fun a ha => h.known i a ?_
    rw [← hk]
    exact List.mem_toFinset.mpr ha
  | @call i peer peers myKnown hd =>
    have hheld : ∀ a ∈ myKnown, a ∈ S := fun a ha => h.discovery i a (by rw [hd]; exact ha)
    exact (h.discover (i := i) (d := .waiting s.calls.length peers myKnown) hheld).push (h.advertised i) hheld
  | @arrive k j c hc hsent =>
    obtain ⟨hsender, hknown, -⟩ := h.told c (List.mem_of_getElem? hc)
    refine h.setCall hc fun a ha => ?_
    rcases List.mem_append.mp ha with ha | ha
    · split at ha
      · cases ha
      · rw [List.mem_singleton.mp ha]
        exact hsender
    · exact hknown a ha
  | @serve k dial j c addr rest hc hserving =>
    have hheld := (h.told c (List.mem_of_getElem? hc)).2.2
    rw [hserving] at hheld
    exact (h.addPeer (hheld addr List.mem_cons_self)).setCall hc fun a ha => hheld a (List.mem_cons_of_mem _ ha)
  | @reply k peers j c hc hserving hk =>
    refine h.setCall hc fun a ha => h.known j a ?_
    rw [← hk]
    exact List.mem_toFinset.mpr ha
  | @receive i k peers myKnown c server resp hd hc hreplied =>
    refine h.discover fun a ha => ?_
    rcases List.mem_append.mp ha with ha | ha
    · have hheld := (h.told c (List.mem_of_getElem? hc)).2.2
      rw [hreplied] at hheld
      exact hheld a ha
    · exact h.discovery i a (by rw [hd]; exact ha)
  | @fail i k peers myKnown hd => exact h.discover fun a ha => h.discovery i a (by rw [hd]; exact ha)
  | @add i dial addr resp peers myKnown hd =>
    have hheld : ∀ a ∈ (addr :: resp) ++ myKnown, a ∈ S := fun a ha => h.discovery i a (by rw [hd]; exact ha)
    exact (h.addPeer (hheld addr List.mem_cons_self)).discover fun a ha => hheld a (List.mem_cons_of_mem _ ha)
  | @added i dial peers myKnown hd => exact h.discover fun a ha => h.discovery i a (by rw [hd]; exact ha)
  | retry hd => exact (h.manage .connectToKnown fun _ => .inr).discover fun a ha => absurd ha List.not_mem_nil
  | forge => exact h.push (hnames _ List.mem_cons_self) fun a ha => hnames a (List.mem_cons_of_mem _ ha)
  | forgeReply hc hsent => exact h.setCall hc hnames

/-- Nothing goes on yet. -/
structure Fresh (s : Net ι) : Prop where
  discovery : ∀ i, s.discovery i = .idle
  calls : s.calls = []

/-- **No address is made up**: along every run, an address a node knows is one
that some node was configured with or advertises, or that an outsider, or the
caller of `Connect`, has named. -/
theorem known_from {endpoints : ι → List String} {listen advertise : ι → String} (hfresh : s.Fresh)
    (hstart : ∀ i, s.managers i = .newPeerManager (endpoints i) (listen i) (advertise i)) (h : s.run evs = some s')
    {a : String}
    (ha : a ∈ (s'.managers i).knownAddrs) :
    (∃ j, a ∈ endpoints j) ∨ (∃ j, a = (s.managers j).advertiseAddr) ∨ ∃ ev ∈ evs, a ∈ ev.names := by
  have hfrom : From {a | (∃ j, a ∈ endpoints j) ∨ (∃ j, a = (s.managers j).advertiseAddr) ∨ ∃ ev ∈ evs, a ∈ ev.names}
      s := by
    refine ⟨fun j a ha => .inl ⟨j, ?_⟩, fun j => .inr (.inl ⟨j, rfl⟩), fun j a ha => ?_, fun c hc => ?_⟩
    · rw [hstart] at ha
      exact (List.mem_filter.mp (List.mem_toFinset.mp ha)).1
    · rw [hfresh.discovery] at ha
      exact absurd ha List.not_mem_nil
    · rw [hfresh.calls] at hc
      cases hc
  have hkept :=
    run_induct (fun ev hev t t' hstep hP => From.step hP (fun a ha => .inr (.inr ⟨ev, hev, ha⟩)) hstep) hfrom h
  exact hkept.known i a ha

/-- The second knows the first, which advertises the address. -/
theorem known_from_pair : (∃ j, "a" ∈ seeds j) ∨ (∃ j, "a" = (pair.managers j).advertiseAddr) ∨
    ∃ ev ∈ meeting, "a" ∈ ev.names :=
  @known_from Bool _ pair _ meeting true _ _ _ ⟨fun _ => rfl, rfl⟩ (fun _ => rfl) rfl "a" (by decide)

end Net

end Drana
