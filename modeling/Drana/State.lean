/-
The world state (`internal/state/state.go`): the maps and lists the chain is
about, and the methods that read and write them.

A method that ranges over a map takes the order the runtime happens to use.
Pointers into the maps become values: where Go changes a record in place and
then stores it, the record is read, changed and stored.
-/
import Drana.Types
import Drana.Lib.GoMap
import Mathlib.Tactic.Simps.Basic

namespace Drana

structure WorldState where
  accounts : GoMap Address Account := ∅
  posts : GoMap PostID Post := ∅
  nameIndex : GoMap GoString Address := ∅
  postStakes : GoMap (PostID × Address) PostStake := ∅
  activeValidators : List ValidatorStake := []
  unbondingQueue : List UnbondingEntry := []
  slashRecord : Finset (Address × UInt64) := ∅
  burnedSupply : UInt64 := 0
  issuedSupply : UInt64 := 0
  chainHeight : UInt64 := 0
  currentEpoch : UInt64 := 0
deriving DecidableEq

instance : Inhabited WorldState := ⟨{}⟩

/-- The orders in which one piece of code ranges over the maps. -/
structure RangeOrder where
  accounts : MapRange Address Account
  posts : MapRange PostID Post
  postStakes : MapRange (PostID × Address) PostStake

namespace WorldState

/-! ## Accounts and names -/

def getAccount (ws : WorldState) (addr : Address) : Option Account := ws.accounts.lookup addr

@[simps] def setAccount (ws : WorldState) (acct : Account) : WorldState :=
  { ws with
    accounts := ws.accounts.insert acct.address acct
    nameIndex := if acct.name ≠ .empty then ws.nameIndex.insert acct.name acct.address else ws.nameIndex }

def getAccountByName (ws : WorldState) (name : GoString) : Option Account :=
  match ws.nameIndex.lookup name with
  | none => none
  | some addr => ws.getAccount addr

@[simps] def registerName (ws : WorldState) (addr : Address) (name : GoString) : WorldState :=
  { ws with nameIndex := ws.nameIndex.insert name addr }

/-! ## Posts and their stakes -/

def getPost (ws : WorldState) (id : PostID) : Option Post := ws.posts.lookup id

@[simps] def setPost (ws : WorldState) (post : Post) : WorldState :=
  { ws with posts := ws.posts.insert post.postID post }

def getPostStake (ws : WorldState) (postID : PostID) (staker : Address) : Option PostStake :=
  ws.postStakes.lookup (postID, staker)

@[simps] def setPostStake (ws : WorldState) (ps : PostStake) : WorldState :=
  { ws with postStakes := ws.postStakes.insert (ps.postID, ps.staker) ps }

@[simps] def removePostStake (ws : WorldState) (postID : PostID) (staker : Address) : WorldState :=
  { ws with postStakes := ws.postStakes.erase (postID, staker) }

def getPostStakers (ord : RangeOrder) (ws : WorldState) (postID : PostID) : List PostStake :=
  ((ord.postStakes.list ws.postStakes).filter fun e => e.1.1 = postID).map (·.2)

def allAccounts (ord : RangeOrder) (ws : WorldState) : List Account :=
  (ord.accounts.list ws.accounts).map (·.2)

def allPosts (ord : RangeOrder) (ws : WorldState) : List Post :=
  (ord.posts.list ws.posts).map (·.2)

def allPostStakes (ord : RangeOrder) (ws : WorldState) : List PostStake :=
  (ord.postStakes.list ws.postStakes).map (·.2)

/-! ## The unbonding queue -/

@[simps] def addUnbondingEntry (ws : WorldState) (e : UnbondingEntry) : WorldState :=
  { ws with unbondingQueue := ws.unbondingQueue ++ [e] }

/-- The matured entries, and the state without them. -/
def removeMaturedUnbonding (ws : WorldState) (currentHeight : UInt64) :
    List UnbondingEntry × WorldState :=
  (ws.unbondingQueue.filter fun e => e.releaseHeight ≤ currentHeight,
    { ws with unbondingQueue := ws.unbondingQueue.filter fun e => ¬ e.releaseHeight ≤ currentHeight })

def unbondingBalanceFor (ar : Arith) (ws : WorldState) (addr : Address) : Except String UInt64 :=
  ws.unbondingQueue.foldlM (fun total e => if e.address = addr then ar.add total e.amount else .ok total) 0

/-- The first loop of `SlashUnbonding`: take `remaining` from the entries of
`addr`, first entries first. -/
def slashEntries (ar : Arith) (addr : Address) :
    UInt64 → List UnbondingEntry → Except String (List UnbondingEntry)
  | _, [] => .ok []
  | remaining, e :: es =>
    if remaining = 0 then .ok (e :: es)
    else if e.address = addr then
      if e.amount ≤ remaining then do
        let remaining ← ar.sub remaining e.amount
        let es ← slashEntries ar addr remaining es
        return { e with amount := 0 } :: es
      else do
        let amount ← ar.sub e.amount remaining
        return { e with amount } :: es
    else do
      let es ← slashEntries ar addr remaining es
      return e :: es

def slashUnbonding (ar : Arith) (ws : WorldState) (addr : Address) (amount : UInt64) :
    Except String WorldState := do
  let queue ← slashEntries ar addr amount ws.unbondingQueue
  return { ws with unbondingQueue := queue.filter fun e => e.amount > 0 }

/-! ## Slashing and validators -/

def hasBeenSlashed (ws : WorldState) (addr : Address) (height : UInt64) : Bool :=
  (addr, height) ∈ ws.slashRecord

@[simps] def recordSlash (ws : WorldState) (addr : Address) (height : UInt64) : WorldState :=
  { ws with slashRecord := insert (addr, height) ws.slashRecord }

end WorldState

/-- Byte order, shorter first. -/
def compareBytes : List UInt8 → List UInt8 → Int
  | x :: xs, y :: ys => if x < y then -1 else if x > y then 1 else compareBytes xs ys
  | xs, ys => xs.length - ys.length

/-- Addresses have one length, so only their bytes count. -/
def compareAddrs (a b : Address) : Int := compareBytes a.toList b.toList

/-- One step of the insertion sort: `v` moves left past the greater
validators of the sorted prefix, which is held last element first. -/
def insertValidator (v : ValidatorStake) : List ValidatorStake → List ValidatorStake
  | [] => [v]
  | u :: us =>
    if compareAddrs v.address u.address < 0 then u :: insertValidator v us else v :: u :: us

def sortValidatorSet (vs : List ValidatorStake) : List ValidatorStake :=
  (vs.foldl (fun sorted v => insertValidator v sorted) []).reverse

namespace WorldState

def pubKeyForAccount (ws : WorldState) (addr : Address) : PublicKey :=
  match ws.activeValidators.find? (·.address = addr) with
  | some v => v.pubKey
  | none => .zero

def computeActiveValidatorSet (ord : RangeOrder) (ws : WorldState) (minStake : UInt64) :
    List ValidatorStake :=
  sortValidatorSet <| (ws.allAccounts ord).filterMap fun acct =>
    if acct.stakedBalance ≥ minStake then
      some ⟨acct.address, ws.pubKeyForAccount acct.address, acct.stakedBalance⟩
    else none

/-- The loop of `SetValidatorPubKey`: the first entry of `addr` gets the key. -/
def setPubKey (addr : Address) (pubKey : PublicKey) : List ValidatorStake → List ValidatorStake
  | [] => []
  | v :: vs => if v.address = addr then { v with pubKey } :: vs else v :: setPubKey addr pubKey vs

@[simps] def setValidatorPubKey (ws : WorldState) (addr : Address) (pubKey : PublicKey) : WorldState :=
  { ws with activeValidators := setPubKey addr pubKey ws.activeValidators }

/-- A deep copy. The set of offences has no values to copy. -/
def clone (ord : RangeOrder) (names : MapRange GoString Address) (ws : WorldState) : WorldState where
  accounts := ord.accounts.copy ws.accounts
  posts := ord.posts.copy ws.posts
  nameIndex := names.copy ws.nameIndex
  postStakes := ord.postStakes.copy ws.postStakes
  slashRecord := ws.slashRecord
  burnedSupply := ws.burnedSupply
  issuedSupply := ws.issuedSupply
  chainHeight := ws.chainHeight
  currentEpoch := ws.currentEpoch
  activeValidators := ws.activeValidators
  unbondingQueue := ws.unbondingQueue

/-- A clone has the contents of the original. -/
theorem clone_eq {ord : RangeOrder} {names : MapRange GoString Address} {ws : WorldState} : ws.clone ord names = ws := by
  simp only [clone, MapRange.copy_eq]

end WorldState

end Drana
