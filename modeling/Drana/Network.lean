/-
Honest nodes and an adversary on one network. The adversary delivers what it
likes, to whom and when it likes; the signatures of the honest nodes it has to
have seen. A run lists what happens at which node, in order.
-/
import Drana.NodeRuns
import Drana.Proposals
import Drana.Encodings
import Mathlib.Data.Fintype.Basic

namespace Drana

variable {ι : Type} [DecidableEq ι] {E : Env} {params : GenesisConfig} {nodes : ι → Engine}
  {run before rest : List (ι × Event)} {i j : ι} {ev : Event} {c : Block × WorldState}

/-- The votes in a message, or in the replies to a proposal. -/
def Event.votes : Event → List BlockVote
  | .propose _ _ _ _ replies => replies
  | .proposal _ _ block => block.qc.elim [] (·.votes)
  | .finalized _ _ _ fb => fb.block.qc.elim [] (·.votes) ++ fb.qc.elim [] (·.votes)
  | .synced _ _ _ fb => fb.block.qc.elim [] (·.votes) ++ fb.qc.elim [] (·.votes)

namespace Network

/-! ## Runs -/

/-- What happens at one node. -/
def eventsAt (run : List (ι × Event)) (i : ι) : List Event := run.filterMap fun s => if s.1 = i then some s.2 else none

/-- The node after the run. -/
def after (E : Env) (nodes : ι → Engine) (run : List (ι × Event)) (i : ι) : Engine := (nodes i).run E (eventsAt run i)

/-- The votes it has signed. -/
def signed (E : Env) (nodes : ι → Engine) (run : List (ι × Event)) (i : ι) : List BlockVote :=
  (nodes i).signed E (eventsAt run i)

/-- `P` of every step: of what has happened, the node, and what happens there. -/
def Always (P : List (ι × Event) → ι → Event → Prop) (run : List (ι × Event)) : Prop :=
  ∀ before i ev rest, run = before ++ (i, ev) :: rest → P before i ev

/-- The node commits the block. -/
def Commits (E : Env) (nodes : ι → Engine) (run : List (ι × Event)) (i : ι) (c : Block × WorldState) : Prop :=
  ∃ before ev rest, run = before ++ (i, ev) :: rest ∧ (after E nodes before i).commits E ev = some c

/-- The node votes for the header. -/
def Votes (E : Env) (nodes : ι → Engine) (run : List (ι × Event)) (i : ι) (header : BlockHeader) : Prop :=
  ∃ before ev rest, run = before ++ (i, ev) :: rest ∧ (after E nodes before i).votesFor E ev = some header

/-- **What the adversary cannot do**: a vote of an honest node that verifies is
for the height and hash of a vote that the node has signed. -/
def Unforged (E : Env) (nodes : ι → Engine) (run : List (ι × Event)) : Prop :=
  Always (fun before _ ev => ∀ vote ∈ ev.votes, verifyBlockVote E vote = true → ∀ k, (nodes k).address = vote.voterAddr →
    ∃ w ∈ signed E nodes before k, w.height = vote.height ∧ w.blockHash = vote.blockHash) run

/-- Some node votes for the header, or commits a block with it. -/
def Seen (E : Env) (nodes : ι → Engine) (run : List (ι × Event)) (header : BlockHeader) : Prop :=
  (∃ i, Votes E nodes run i header) ∨ ∃ i c, Commits E nodes run i c ∧ c.1.header = header

/-- No two headers of the run collide. -/
def HeadersDistinct (E : Env) (nodes : ι → Engine) (run : List (ι × Event)) : Prop :=
  ∀ header header', Seen E nodes run header → Seen E nodes run header' →
    E.sha256 header.hashBytes = E.sha256 header'.hashBytes → header.hashBytes = header'.hashBytes

/-- The headers of one step. -/
def headersAt (E : Env) (e : Engine) (ev : Event) : List BlockHeader :=
  (e.votesFor E ev).toList ++ ((e.commits E ev).map (·.1.header)).toList

omit [DecidableEq ι] in
/-- All steps, one after the other. -/
theorem always_iff {P : List (ι × Event) → ι → Event → Prop} : Always P run ↔
    ∀ n : Fin run.length, P (run.take n) (run.get n).1 (run.get n).2 := by
  constructor
  · intro h n
    refine h _ _ _ (run.drop (n + 1)) ?_
    rw [List.get_eq_getElem, Prod.mk.eta, List.getElem_cons_drop, List.take_append_drop]
  · rintro h before i ev rest rfl
    have hn := h ⟨before.length, by simp⟩
    simpa using hn

instance {P : List (ι × Event) → ι → Event → Prop} [∀ before i ev, Decidable (P before i ev)] :
    Decidable (Always P run) :=
  decidable_of_iff _ always_iff.symm

instance [Fintype ι] : Decidable (Unforged E nodes run) := inferInstanceAs (Decidable (Always _ run))

/-- Where the headers of all steps are among some that do not collide, none do. -/
theorem headersDistinct_of_mem {headers : List BlockHeader}
    (hdistinct : ∀ header ∈ headers, ∀ header' ∈ headers, header.hash E = header'.hash E → header = header')
    (h : Always (fun before i ev => ∀ header ∈ headersAt E (after E nodes before i) ev, header ∈ headers) run) :
    HeadersDistinct E nodes run := by
  have hmem : ∀ {header}, Seen E nodes run header → header ∈ headers := by
    rintro header (⟨i, before, ev, rest, hrun, hv⟩ | ⟨i, c, ⟨before, ev, rest, hrun, hc⟩, rfl⟩)
    · exact h before i ev rest hrun header (List.mem_append_left _ (by rw [hv]; exact List.mem_singleton_self _))
    · exact h before i ev rest hrun _ (List.mem_append_right _ (by rw [hc]; exact List.mem_singleton_self _))
  intro header header' hh hh' hhash
  rw [hdistinct header (hmem hh) header' (hmem hh') hhash]

/-! ## Steps -/

theorem eventsAt_append : eventsAt (before ++ rest) i = eventsAt before i ++ eventsAt rest i := List.filterMap_append

theorem eventsAt_same : eventsAt ((i, ev) :: rest) i = ev :: eventsAt rest i := by
  rw [eventsAt, List.filterMap_cons, if_pos rfl]
  rfl

theorem eventsAt_other (h : j ≠ i) : eventsAt ((j, ev) :: rest) i = eventsAt rest i := by
  rw [eventsAt, List.filterMap_cons, if_neg h]
  rfl

theorem after_same : after E nodes (before ++ [(i, ev)]) i = (after E nodes before i).next E ev := by
  rw [after, eventsAt_append, eventsAt_same, Engine.run, List.foldl_append]
  rfl

theorem after_other (h : j ≠ i) : after E nodes (before ++ [(j, ev)]) i = after E nodes before i := by
  rw [after, eventsAt_append, eventsAt_other h]
  exact congrArg ((nodes i).run E) (List.append_nil _)

end Network

theorem Engine.signed_append {e : Engine} {evs evs' : List Event} :
    e.signed E (evs ++ evs') = e.signed E evs ++ (e.run E evs).signed E evs' := by
  induction evs generalizing e with
  | nil => rfl
  | cons ev evs ih => rw [List.cons_append, Engine.signed, Engine.signed, ih, List.append_assoc]; rfl

namespace Network

theorem signed_append : signed E nodes (before ++ rest) i =
    signed E nodes before i ++ (after E nodes before i).signed E (eventsAt rest i) := by
  rw [signed, eventsAt_append, Engine.signed_append]
  rfl

/-- What has been signed stays signed. -/
theorem signed_mono {w : BlockVote} (h : w ∈ signed E nodes before i) : w ∈ signed E nodes (before ++ rest) i := by
  rw [signed_append]
  exact List.mem_append_left _ h

theorem Commits.mono (h : Commits E nodes before i c) : Commits E nodes (before ++ rest) i c := by
  obtain ⟨before', ev, rest', rfl, hc⟩ := h
  exact ⟨before', ev, rest' ++ rest, by simp, hc⟩

theorem Votes.mono {header : BlockHeader} (h : Votes E nodes before i header) :
    Votes E nodes (before ++ rest) i header := by
  obtain ⟨before', ev, rest', rfl, hc⟩ := h
  exact ⟨before', ev, rest' ++ rest, by simp, hc⟩

theorem commits_last (h : (after E nodes before i).commits E ev = some c) : Commits E nodes (before ++ [(i, ev)]) i c :=
  ⟨before, ev, [], rfl, h⟩

/-- **A node is its last commit**: after a run it is as it was, or as its last
commit has left it. -/
theorem after_cases (E : Env) (nodes : ι → Engine) (run : List (ι × Event)) (i : ι) : after E nodes run i = nodes i ∨
    ∃ c, Commits E nodes run i c ∧ after E nodes run i = (nodes i).commitBlock c.1 c.2 := by
  induction run using List.reverseRecOn with
  | nil => exact .inl rfl
  | append_singleton before s ih =>
    obtain ⟨j, ev⟩ := s
    have hkept : after E nodes (before ++ [(j, ev)]) i = after E nodes before i →
        after E nodes (before ++ [(j, ev)]) i = nodes i ∨
        ∃ c, Commits E nodes (before ++ [(j, ev)]) i c ∧
          after E nodes (before ++ [(j, ev)]) i = (nodes i).commitBlock c.1 c.2 := by
      intro hsame
      rw [hsame]
      exact ih.imp_right fun ⟨c, hc, he⟩ => ⟨c, hc.mono, he⟩
    by_cases hj : j = i
    · subst hj
      cases hc : (after E nodes before j).commits E ev with
      | none => exact hkept (by rw [after_same, Engine.next_of_none hc])
      | some c =>
        refine .inr ⟨c, commits_last hc, ?_⟩
        rw [after_same, Engine.next_of_commits hc]
        rcases ih with h | ⟨c', -, h⟩
        · rw [h]
        · rw [h]
          rfl
    · exact hkept (after_other hj)

/-- A signed vote is a vote for a header. -/
theorem signed_votes {w : BlockVote} (h : w ∈ signed E nodes run i) :
    ∃ header, Votes E nodes run i header ∧ w.height = header.height ∧ w.blockHash = header.hash E := by
  induction run using List.reverseRecOn with
  | nil => cases h
  | append_singleton before s ih =>
    obtain ⟨j, ev⟩ := s
    rw [signed_append, List.mem_append] at h
    rcases h with h | h
    · obtain ⟨header, hv, hw⟩ := ih h
      exact ⟨header, hv.mono, hw⟩
    · by_cases hj : j = i
      · subst hj
        rw [eventsAt_same, Engine.signed, List.mem_append] at h
        rcases h with h | h
        · simp only [Option.mem_toList, Option.map_eq_some_iff] at h
          obtain ⟨header, hheader, rfl⟩ := h
          exact ⟨header, ⟨before, ev, [], rfl, hheader⟩, rfl, rfl⟩
        · cases h
      · rw [eventsAt_other hj] at h
        cases h

/-- The node signs the vote it gives. -/
theorem castVote_signed {header : BlockHeader} (h : (after E nodes before i).votesFor E ev = some header) :
    (after E nodes before i).castVote E header ∈ signed E nodes (before ++ (i, ev) :: rest) i := by
  rw [signed_append, eventsAt_same, Engine.signed, h]
  exact List.mem_append_right _ (List.mem_append_left _ (by simp))

theorem after_address : (after E nodes run i).address = (nodes i).address := by
  rcases after_cases E nodes run i with h | ⟨c, -, h⟩
  · rw [h]
  · rw [h]
    rfl

end Network

/-! ## Headers -/

theorem Network.HeadersDistinct.eq {header header' : BlockHeader} (h : HeadersDistinct E nodes run)
    (hh : Seen E nodes run header) (hh' : Seen E nodes run header') (heq : header.hash E = header'.hash E) :
    header = header' :=
  BlockHeader.hashBytes_inj (h header header' hh hh' heq)

end Drana
