/-
The hash of a state (`internal/state/stateroot.go`). Maps are ranged over and
then sorted by key, so the root does not depend on the order of ranging.
-/
import Drana.StateFacts

namespace Drana

/-! ## Sorting by bytes -/

theorem compareBytes_neg_iff {x y : List UInt8} : compareBytes x y < 0 ↔ x < y := by
  induction x generalizing y with
  | nil =>
    cases y with
    | nil => simp [compareBytes]
    | cons b y => simp [compareBytes]; omega
  | cons a x ih =>
    cases y with
    | nil => simp [compareBytes]; omega
    | cons b y =>
      rw [compareBytes, List.cons_lt_cons_iff]
      split
      · next h => simp [h]
      · next h =>
        split
        · next h' =>
          have hne : a ≠ b := by
            rintro rfl
            exact h h'
          simp [h, hne]
        · next h' =>
          have heq : a = b := UInt8.le_antisymm (UInt8.not_lt.mp h') (UInt8.not_lt.mp h)
          rw [ih]
          simp [heq]

/-- `sort.Slice`, for a `less` no two elements of the slice are equal in. -/
def sortSlice {α : Type} (less : α → α → Bool) (l : List α) : List α :=
  l.insertionSort fun a b => less b a = false

/-- A slice with distinct keys is sorted one way. -/
theorem sortSlice_perm {α : Type} {key : α → List UInt8} {less : α → α → Bool}
    (hless : ∀ a b, less a b = true ↔ key a < key b) {l l' : List α} (hp : l.Perm l')
    (hkey : ∀ a ∈ l, ∀ b ∈ l, key a = key b → a = b) : sortSlice less l = sortSlice less l' := by
  have hle : ∀ a b, less b a = false ↔ key a ≤ key b := by
    intro a b
    rw [← Bool.not_eq_true, hless, List.not_lt]
  have : Std.Total fun a b => less b a = false := ⟨fun a b => by
    rw [hle, hle]
    exact List.le_total _ _⟩
  have : IsTrans α fun a b => less b a = false := ⟨fun a b c hab hbc => by
    rw [hle] at hab hbc ⊢
    exact List.le_trans hab hbc⟩
  have hs : (sortSlice less l).Perm l := List.perm_insertionSort _ l
  have hs' : (sortSlice less l').Perm l' := List.perm_insertionSort _ l'
  refine (hs.trans (hp.trans hs'.symm)).eq_of_pairwise (fun a b ha hb hab hba => ?_)
    (List.pairwise_insertionSort _ l) (List.pairwise_insertionSort _ l')
  rw [hle] at hab hba
  exact hkey a (hs.mem_iff.mp ha) b (hp.mem_iff.mpr (hs'.mem_iff.mp hb)) (List.le_antisymm hab hba)

/-! ## The root -/

def writeAccount (hw : HashWriter) (a : Account) : HashWriter :=
  hw |>.writeBytes a.address.toList
    |>.writeUint64 a.balance
    |>.writeUint64 a.nonce
    |>.writeString a.name
    |>.writeUint64 a.stakedBalance

def writePost (hw : HashWriter) (p : Post) : HashWriter :=
  hw |>.writeBytes p.postID.toList
    |>.writeBytes p.author.toList
    |>.writeString p.text
    |>.writeString p.channel
    |>.writeBytes p.parentPostID.toList
    |>.writeUint64 p.createdAtHeight
    |>.writeInt64 p.createdAtTime
    |>.writeUint64 p.totalStaked
    |>.writeUint64 p.totalBurned
    |>.writeUint64 p.stakerCount
    |>.writeUint64 (if p.withdrawn then 1 else 0)

def writePostStake (hw : HashWriter) (ps : PostStake) : HashWriter :=
  hw |>.writeBytes ps.postID.toList
    |>.writeBytes ps.staker.toList
    |>.writeUint64 ps.amount
    |>.writeUint64 ps.height

def writeValidator (hw : HashWriter) (v : ValidatorStake) : HashWriter :=
  hw |>.writeBytes v.address.toList
    |>.writeBytes v.pubKey.toList
    |>.writeUint64 v.stakedBalance

def writeUnbonding (hw : HashWriter) (u : UnbondingEntry) : HashWriter :=
  hw |>.writeBytes u.address.toList
    |>.writeUint64 u.amount
    |>.writeUint64 u.releaseHeight

/-- A length and the elements. -/
def writeList {α : Type} (write : HashWriter → α → HashWriter) (hw : HashWriter) (l : List α) : HashWriter :=
  l.foldl write (hw.writeUint64 (UInt64.ofNat l.length))

def lessAccount (a b : Account) : Bool := compareBytes a.address.toList b.address.toList < 0

def lessPost (a b : Post) : Bool := compareBytes a.postID.toList b.postID.toList < 0

def lessPostStake (a b : PostStake) : Bool :=
  let c := compareBytes a.postID.toList b.postID.toList
  if c ≠ 0 then c < 0 else compareBytes a.staker.toList b.staker.toList < 0

/-- The bytes `ComputeStateRoot` hashes. -/
def stateRootBytes (ord : RangeOrder) (ws : WorldState) : HashWriter :=
  let hw := writeList writeAccount newHashWriter (sortSlice lessAccount (ws.allAccounts ord))
  let hw := writeList writePost hw (sortSlice lessPost (ws.allPosts ord))
  let hw := writeList writePostStake hw (sortSlice lessPostStake (ws.allPostStakes ord))
  let hw := writeList writeValidator hw ws.activeValidators
  let hw := writeList writeUnbonding hw ws.unbondingQueue
  hw |>.writeUint64 ws.currentEpoch
    |>.writeUint64 ws.burnedSupply
    |>.writeUint64 ws.issuedSupply
    |>.writeUint64 ws.chainHeight

def computeStateRoot (E : Env) (ord : RangeOrder) (ws : WorldState) : Hash := (stateRootBytes ord ws).sum256 E

/-! ## What the root depends on -/

theorem lessAccount_iff (a b : Account) : lessAccount a b = true ↔ a.address.toList < b.address.toList := by
  rw [lessAccount, decide_eq_true_eq, compareBytes_neg_iff]

theorem lessPost_iff (a b : Post) : lessPost a b = true ↔ a.postID.toList < b.postID.toList := by
  rw [lessPost, decide_eq_true_eq, compareBytes_neg_iff]

theorem append_lt_append_iff {x x' y y' : List UInt8} (hlen : x.length = x'.length) :
    x ++ y < x' ++ y' ↔ x < x' ∨ x = x' ∧ y < y' := by
  induction x generalizing x' with
  | nil =>
    cases x' with
    | nil => simp
    | cons b x' => cases hlen
  | cons a x ih =>
    cases x' with
    | nil => cases hlen
    | cons b x' =>
      simp only [List.cons_append, List.cons_lt_cons_iff, ih (Nat.succ.inj hlen), List.cons.injEq]
      constructor
      · rintro (h | ⟨rfl, h | ⟨rfl, h⟩⟩)
        · exact .inl (.inl h)
        · exact .inl (.inr ⟨rfl, h⟩)
        · exact .inr ⟨⟨rfl, rfl⟩, h⟩
      · rintro ((h | ⟨rfl, h⟩) | ⟨⟨rfl, rfl⟩, h⟩)
        · exact .inl h
        · exact .inr ⟨rfl, .inl h⟩
        · exact .inr ⟨rfl, .inr ⟨rfl, h⟩⟩

theorem compareBytes_eq_zero_iff {x y : List UInt8} : compareBytes x y = 0 ↔ x = y := by
  induction x generalizing y with
  | nil =>
    cases y with
    | nil => simp [compareBytes]
    | cons b y => simp [compareBytes]; omega
  | cons a x ih =>
    cases y with
    | nil => simp [compareBytes]; omega
    | cons b y =>
      rw [compareBytes]
      split
      · next h => simp [UInt8.ne_of_lt h]
      · next h =>
        split
        · next h' => simp [(UInt8.ne_of_lt h').symm]
        · next h' =>
          have heq : a = b := UInt8.le_antisymm (UInt8.not_lt.mp h') (UInt8.not_lt.mp h)
          simp [ih, heq]

theorem lessPostStake_iff (a b : PostStake) : lessPostStake a b = true ↔
    a.postID.toList ++ a.staker.toList < b.postID.toList ++ b.staker.toList := by
  rw [append_lt_append_iff (by simp), lessPostStake]
  split
  · next h =>
    rw [decide_eq_true_eq, compareBytes_neg_iff]
    rw [ne_eq, compareBytes_eq_zero_iff] at h
    simp [h]
  · next h =>
    rw [decide_eq_true_eq, compareBytes_neg_iff]
    rw [ne_eq, Decidable.not_not, compareBytes_eq_zero_iff] at h
    simp [h, List.lt_irrefl]

/-- The fields the root is computed from. -/
structure SameRooted (ws ws' : WorldState) : Prop where
  accounts : ws'.accounts = ws.accounts
  posts : ws'.posts = ws.posts
  postStakes : ws'.postStakes = ws.postStakes
  activeValidators : ws'.activeValidators = ws.activeValidators
  unbondingQueue : ws'.unbondingQueue = ws.unbondingQueue
  currentEpoch : ws'.currentEpoch = ws.currentEpoch
  burnedSupply : ws'.burnedSupply = ws.burnedSupply
  issuedSupply : ws'.issuedSupply = ws.issuedSupply
  chainHeight : ws'.chainHeight = ws.chainHeight

/-- The records of a map whose keys they carry are told apart by their keys. -/
theorem values_injOn {K V : Type} [DecidableEq K] {r : MapRange K V} {m : GoMap K V} (key : V → K)
    (hkey : ∀ k v, m.lookup k = some v → key v = k) :
    ∀ v ∈ (r.list m).map (·.2), ∀ w ∈ (r.list m).map (·.2), key v = key w → v = w := by
  intro v hv w hw h
  obtain ⟨e, he, rfl⟩ := List.mem_map.mp hv
  obtain ⟨e', he', rfl⟩ := List.mem_map.mp hw
  have he := MapRange.mem_list.mp he
  have he' := MapRange.mem_list.mp he'
  rw [hkey _ _ he, hkey _ _ he'] at h
  rw [h, he'] at he
  exact (Option.some.inj he).symm

section

variable {E : Env} {ord ord' : RangeOrder} {ws ws' : WorldState}

theorem sortedPosts_congr (hk : Keyed ws) (h : ws'.posts = ws.posts) :
    sortSlice lessPost (ws'.allPosts ord') = sortSlice lessPost (ws.allPosts ord) := by
  rw [WorldState.allPosts, WorldState.allPosts, h]
  refine sortSlice_perm lessPost_iff ((MapRange.perm _ _ _).map _) fun a ha b hb he => ?_
  exact values_injOn Post.postID hk.post a ha b hb (ByteArr.toList_inj he)

theorem sortedPostStakes_congr (hk : Keyed ws) (h : ws'.postStakes = ws.postStakes) :
    sortSlice lessPostStake (ws'.allPostStakes ord') = sortSlice lessPostStake (ws.allPostStakes ord) := by
  rw [WorldState.allPostStakes, WorldState.allPostStakes, h]
  refine sortSlice_perm lessPostStake_iff ((MapRange.perm _ _ _).map _) fun a ha b hb he => ?_
  have he := List.append_inj he (by simp)
  exact values_injOn (fun s : PostStake => (s.postID, s.staker))
    (fun k s hs => Prod.ext (hk.stake k.1 k.2 s hs).1 (hk.stake k.1 k.2 s hs).2) a ha b hb
    (Prod.ext (ByteArr.toList_inj he.1) (ByteArr.toList_inj he.2))

/-- **The root depends on the state alone**, not on how its maps are ranged over. -/
theorem computeStateRoot_congr (hk : Keyed ws) (h : SameRooted ws ws') :
    computeStateRoot E ord' ws' = computeStateRoot E ord ws := by
  have haccounts : sortSlice lessAccount (ws'.allAccounts ord') = sortSlice lessAccount (ws.allAccounts ord) := by
    rw [WorldState.allAccounts, WorldState.allAccounts, h.accounts]
    refine sortSlice_perm lessAccount_iff ((MapRange.perm _ _ _).map _) fun a ha b hb he => ?_
    exact values_injOn Account.address hk.account a ha b hb (ByteArr.toList_inj he)
  rw [computeStateRoot, stateRootBytes, haccounts, sortedPosts_congr hk h.posts,
    sortedPostStakes_congr hk h.postStakes, h.activeValidators, h.unbondingQueue,
    h.currentEpoch, h.burnedSupply, h.issuedSupply, h.chainHeight]
  rfl

end

end Drana
