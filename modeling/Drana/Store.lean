/-
The state on disk (`internal/store/kvstore.go`): the bytes of each record, and
saving and loading a state. Badger is a map from keys to values that is
iterated in ascending key order.
-/
import Drana.StateRoot

namespace Drana

open Except (orThrow throwIf)

/-- What each key was last set to. -/
abbrev KVStore := GoMap (List UInt8) (List UInt8)

/-! ## Keys -/

/-- `account:` -/
def prefixAccount : List UInt8 := [97, 99, 99, 111, 117, 110, 116, 58]

/-- `post:` -/
def prefixPost : List UInt8 := [112, 111, 115, 116, 58]

/-- `poststake:` -/
def prefixPostStake : List UInt8 := [112, 111, 115, 116, 115, 116, 97, 107, 101, 58]

/-- `meta:` -/
def prefixMeta : List UInt8 := [109, 101, 116, 97, 58]

/-- `meta:burned_supply` -/
def keyBurnedSupply : List UInt8 :=
  prefixMeta ++ [98, 117, 114, 110, 101, 100, 95, 115, 117, 112, 112, 108, 121]

/-- `meta:issued_supply` -/
def keyIssuedSupply : List UInt8 :=
  prefixMeta ++ [105, 115, 115, 117, 101, 100, 95, 115, 117, 112, 112, 108, 121]

/-- `meta:chain_height` -/
def keyChainHeight : List UInt8 :=
  prefixMeta ++ [99, 104, 97, 105, 110, 95, 104, 101, 105, 103, 104, 116]

/-- `meta:current_epoch` -/
def keyCurrentEpoch : List UInt8 :=
  prefixMeta ++ [99, 117, 114, 114, 101, 110, 116, 95, 101, 112, 111, 99, 104]

/-- `meta:active_validators` -/
def keyActiveValidators : List UInt8 :=
  prefixMeta ++ [97, 99, 116, 105, 118, 101, 95, 118, 97, 108, 105, 100, 97, 116, 111, 114, 115]

/-- `meta:unbonding_queue` -/
def keyUnbondingQueue : List UInt8 :=
  prefixMeta ++ [117, 110, 98, 111, 110, 100, 105, 110, 103, 95, 113, 117, 101, 117, 101]

/-! ## Records -/

def encodeAccount (a : Account) : List UInt8 :=
  a.address.toList ++ putUint64 a.balance ++ putUint64 a.nonce ++ putUint64 a.stakedBalance ++
    putUint64 a.postStakeBalance ++ putUint32 (UInt32.ofNat a.name.length) ++ a.name.bytes

/-- `binary.BigEndian.Uint64(b[off:])`, where too few bytes panic. -/
def readUint64 (b : List UInt8) : Except String UInt64 := orThrow (getUint64 b) "index out of range"

def readUint32 (b : List UInt8) : Except String UInt32 := orThrow (getUint32 b) "index out of range"

/-- The name at the end of an account, of which old data may have none. -/
def decodeName (b : List UInt8) : Except String GoString :=
  if b.length > 4 then do
    let nameLen ← readUint32 b
    let b := b.drop 4
    return if b.length ≥ nameLen.toNat then .ofTake nameLen b else .empty
  else return .empty

/-- `b` stands for `b[off:]` throughout. -/
def decodeAccount (b : List UInt8) : Except String Account := do
  throwIf (b.length < 24 + 8 + 8) s!"account data too short: {b.length} bytes"
  let address := ByteArr.copyFrom (b.take 24)
  let b := b.drop 24
  let balance ← readUint64 b
  let b := b.drop 8
  let nonce ← readUint64 b
  let b := b.drop 8
  let a : Account := { address, balance, nonce }
  if b.length > 8 then do
    let stakedBalance ← readUint64 b
    let b := b.drop 8
    if b.length > 8 then do
      let postStakeBalance ← readUint64 b
      let b := b.drop 8
      let name ← decodeName b
      return { a with stakedBalance, postStakeBalance, name }
    else return { a with stakedBalance }
  else return a

def encodePost (p : Post) : List UInt8 :=
  p.postID.toList ++ p.author.toList ++ putUint64 p.createdAtHeight ++ putUint64 p.createdAtTime.toUInt64 ++
    putUint64 p.totalStaked ++ putUint64 p.totalBurned ++ putUint64 p.stakerCount ++
    [if p.withdrawn then 1 else 0] ++ putUint32 (UInt32.ofNat p.text.length) ++ p.text.bytes ++
    putUint32 (UInt32.ofNat p.channel.length) ++ p.channel.bytes ++ p.parentPostID.toList

/-- Channel and parent, of which old data may have none. -/
def decodePostEnd (b : List UInt8) : Except String (GoString × PostID) :=
  if b.length ≥ 4 then do
    let chanLen ← readUint32 b
    let b := b.drop 4
    let channel : GoString := if b.length ≥ chanLen.toNat then .ofTake chanLen b else .empty
    let b := if b.length ≥ chanLen.toNat then b.drop chanLen.toNat else b
    return (channel, if b.length ≥ 32 then ByteArr.copyFrom (b.take 32) else .zero)
  else return (.empty, .zero)

def decodePost (b : List UInt8) : Except String Post := do
  throwIf (b.length < 32 + 24 + 8 + 8 + 8 + 8 + 8 + 1 + 4) s!"post data too short: {b.length} bytes"
  let postID := ByteArr.copyFrom (b.take 32)
  let b := b.drop 32
  let author := ByteArr.copyFrom (b.take 24)
  let b := b.drop 24
  let createdAtHeight ← readUint64 b
  let b := b.drop 8
  let createdAtTime ← readUint64 b
  let b := b.drop 8
  let totalStaked ← readUint64 b
  let b := b.drop 8
  let totalBurned ← readUint64 b
  let b := b.drop 8
  let stakerCount ← readUint64 b
  let b := b.drop 8
  let withdrawn := b.head? = some 1
  let b := b.drop 1
  let textLen ← readUint32 b
  let b := b.drop 4
  throwIf (b.length < textLen.toNat) "post text truncated"
  let text := GoString.ofTake textLen b
  let b := b.drop textLen.toNat
  let (channel, parentPostID) ← decodePostEnd b
  return { postID, author, text, channel, parentPostID, createdAtHeight
           createdAtTime := createdAtTime.toInt64, totalStaked, totalBurned, stakerCount, withdrawn }

def encodePostStake (ps : PostStake) : List UInt8 :=
  ps.postID.toList ++ ps.staker.toList ++ putUint64 ps.amount ++ putUint64 ps.height

def decodePostStake (b : List UInt8) : Except String PostStake := do
  throwIf (b.length < 32 + 24 + 8 + 8) "post stake data too short"
  let postID := ByteArr.copyFrom (b.take 32)
  let b := b.drop 32
  let staker := ByteArr.copyFrom (b.take 24)
  let b := b.drop 24
  let amount ← readUint64 b
  let b := b.drop 8
  let height ← readUint64 b
  return { postID, staker, amount, height }

/-! ## Lists of records -/

def encodeValidator (v : ValidatorStake) : List UInt8 :=
  v.address.toList ++ v.pubKey.toList ++ putUint64 v.stakedBalance

def encodeValidatorSet (vs : List ValidatorStake) : List UInt8 :=
  putUint32 (UInt32.ofNat vs.length) ++ vs.flatMap encodeValidator

def decodeValidator (b : List UInt8) : ValidatorStake where
  address := ByteArr.copyFrom (b.take 24)
  pubKey := ByteArr.copyFrom ((b.drop 24).take 32)
  stakedBalance := (getUint64 (b.drop 56)).getD 0

def encodeUnbonding (e : UnbondingEntry) : List UInt8 :=
  e.address.toList ++ putUint64 e.amount ++ putUint64 e.releaseHeight

def encodeUnbondingQueue (entries : List UnbondingEntry) : List UInt8 :=
  putUint32 (UInt32.ofNat entries.length) ++ entries.flatMap encodeUnbonding

def decodeUnbonding (b : List UInt8) : UnbondingEntry where
  address := ByteArr.copyFrom (b.take 24)
  amount := (getUint64 (b.drop 24)).getD 0
  releaseHeight := (getUint64 (b.drop 32)).getD 0

/-- The loop over `count` entries, which stops where one does not fit. -/
def decodeEntries {α : Type} (entrySize : Nat) (decode : List UInt8 → α) : Nat → List UInt8 → List α
  | 0, _ => []
  | count + 1, b =>
    if entrySize ≤ b.length then decode b :: decodeEntries entrySize decode count (b.drop entrySize) else []

/-- A count and the entries. -/
def decodeList {α : Type} (entrySize : Nat) (decode : List UInt8 → α) (b : List UInt8) : List α :=
  match getUint32 b with
  | none => []
  | some count => decodeEntries entrySize decode count.toNat (b.drop 4)

def decodeValidatorSet (b : List UInt8) : List ValidatorStake := decodeList (24 + 32 + 8) decodeValidator b

def decodeUnbondingQueue (b : List UInt8) : List UnbondingEntry := decodeList (24 + 8 + 8) decodeUnbonding b

/-! ## The state -/

/-- The `txn.Set` calls of `SaveState`, in their order. -/
def savedEntries (ord : RangeOrder) (ws : WorldState) : List (List UInt8 × List UInt8) :=
  (ws.allAccounts ord).map (fun a => (prefixAccount ++ a.address.toList, encodeAccount a)) ++
  (ws.allPosts ord).map (fun p => (prefixPost ++ p.postID.toList, encodePost p)) ++
  [(keyBurnedSupply, putUint64 ws.burnedSupply), (keyIssuedSupply, putUint64 ws.issuedSupply),
    (keyChainHeight, putUint64 ws.chainHeight), (keyCurrentEpoch, putUint64 ws.currentEpoch),
    (keyActiveValidators, encodeValidatorSet ws.activeValidators),
    (keyUnbondingQueue, encodeUnbondingQueue ws.unbondingQueue)] ++
  (ws.allPostStakes ord).map fun ps =>
    (prefixPostStake ++ ps.postID.toList ++ ps.staker.toList, encodePostStake ps)

def saveState (ord : RangeOrder) (ws : WorldState) (kv : KVStore) : KVStore :=
  GoMap.insertAll kv (savedEntries ord ws)

/-- The values under a prefix, as `Seek`, `ValidForPrefix` and `Next` visit them. -/
def itemsOf (kv : KVStore) (pre : List UInt8) : List (List UInt8) :=
  (((MapRange.ascending id Function.injective_id).list kv).filter fun e => pre.isPrefixOf e.1).map (·.2)

/-- A number stored under a key; without one the fresh state's stays. -/
def loadUint64 (kv : KVStore) (key : List UInt8) (fresh : UInt64) : Except String UInt64 :=
  match kv.lookup key with
  | none => return fresh
  | some val => readUint64 val

def loadState (kv : KVStore) : Except String WorldState := do
  let ws ← (itemsOf kv prefixAccount).foldlM
    (fun ws val => do let acct ← decodeAccount val; return ws.setAccount acct) ({} : WorldState)
  let ws ← (itemsOf kv prefixPost).foldlM
    (fun ws val => do let post ← decodePost val; return ws.setPost post) ws
  let burnedSupply ← loadUint64 kv keyBurnedSupply 0
  let issuedSupply ← loadUint64 kv keyIssuedSupply 0
  let chainHeight ← loadUint64 kv keyChainHeight 0
  let currentEpoch ← loadUint64 kv keyCurrentEpoch 0
  let activeValidators := (kv.lookup keyActiveValidators).elim [] decodeValidatorSet
  let unbondingQueue := (kv.lookup keyUnbondingQueue).elim [] decodeUnbondingQueue
  let ws := { ws with burnedSupply, issuedSupply, chainHeight, currentEpoch, activeValidators, unbondingQueue }
  -- A stake that does not decode is skipped.
  return (itemsOf kv prefixPostStake).foldl
    (fun ws val =>
      match decodePostStake val with
      | .ok ps => ws.setPostStake ps
      | .error _ => ws) ws

end Drana
