/-
The chain's data (`internal/types`, `internal/crypto`): addresses, accounts,
posts, transactions, blocks, votes, the genesis configuration, and the bytes
of each that are hashed and signed.

`Env` holds what the code takes from packages outside the repository:
SHA-256, Ed25519 and Unicode's NFC test.
-/
import Drana.Lib.Bytes
import Drana.Lib.Word

namespace Drana

abbrev Hash := ByteArr 32
abbrev Address := ByteArr 24
abbrev PostID := ByteArr 32
abbrev PublicKey := ByteArr 32
abbrev PrivateKey := ByteArr 64

/-- The packages outside the repository. -/
structure Env where
  /-- `sha256.Sum256` -/
  sha256 : List UInt8 → Hash
  /-- `ed25519.Sign` -/
  ed25519Sign : PrivateKey → List UInt8 → ByteArr 64
  /-- `ed25519.Verify` -/
  ed25519Verify : PublicKey → List UInt8 → List UInt8 → Bool
  /-- `norm.NFC.IsNormalString` -/
  isNormalString : List UInt8 → Bool

/-! ## Addresses and keys -/

def addressPrefix : String := "drana1"

def Address.toString (a : Address) : String := addressPrefix ++ hexEncode a.toList

def Address.isZero (a : Address) : Bool := a == ByteArr.zero

/-- The checksum of an address body. -/
def addressChecksum (E : Env) (body : List UInt8) : List UInt8 := (E.sha256 body).toList.take 4

def addressFromPublicKey (E : Env) (pubKey : PublicKey) : Address :=
  let body := (E.sha256 pubKey.toList).toList.take 20
  ByteArr.copyFrom (body ++ addressChecksum E body)

/-- `Address.Validate`: the checksum fits the body. -/
def Address.validate (E : Env) (a : Address) : Except String Unit :=
  Except.throwIf (a.toList.drop 20 ≠ addressChecksum E (a.toList.take 20)) "address checksum mismatch"

/-- `crypto.Verify`. -/
def verify (E : Env) (pubKey : PublicKey) (message : List UInt8) (sig : GoString) : Bool :=
  if sig.length ≠ 64 then false else E.ed25519Verify pubKey message sig.bytes

/-- `crypto.Sign`. -/
def sign (E : Env) (privKey : PrivateKey) (message : List UInt8) : GoString :=
  (E.ed25519Sign privKey message).toGoString (by decide)

/-- The public half of an Ed25519 private key. -/
def PrivateKey.publicKey (k : PrivateKey) : PublicKey := ByteArr.copyFrom (k.toList.drop 32)

/-! ## What is hashed -/

/-- A `HashWriter`: the bytes written so far. -/
abbrev HashWriter := List UInt8

def newHashWriter : HashWriter := []

namespace HashWriter

def writeBytes (hw : HashWriter) (b : List UInt8) : HashWriter :=
  hw ++ putUint64 (UInt64.ofNat b.length) ++ b

def writeUint64 (hw : HashWriter) (v : UInt64) : HashWriter := hw ++ putUint64 v
def writeUint32 (hw : HashWriter) (v : UInt32) : HashWriter := hw ++ putUint32 v
def writeInt64 (hw : HashWriter) (v : Int64) : HashWriter := hw.writeUint64 v.toUInt64
def writeString (hw : HashWriter) (s : GoString) : HashWriter := hw.writeBytes s.bytes
def sum256 (E : Env) (hw : HashWriter) : Hash := E.sha256 hw

end HashWriter

/-! ## Accounts and posts -/

structure Account where
  address : Address
  balance : UInt64 := 0
  nonce : UInt64 := 0
  name : GoString := .empty
  stakedBalance : UInt64 := 0
  postStakeBalance : UInt64 := 0
deriving DecidableEq

/-- The bytes `DerivePostID` hashes. -/
def postIDBytes (author : Address) (nonce : UInt64) : HashWriter :=
  (newHashWriter.writeBytes author.toList).writeUint64 nonce

def derivePostID (E : Env) (author : Address) (nonce : UInt64) : PostID :=
  (postIDBytes author nonce).sum256 E

structure Post where
  postID : PostID
  author : Address
  text : GoString
  channel : GoString
  parentPostID : PostID
  createdAtHeight : UInt64
  createdAtTime : Int64
  totalStaked : UInt64
  totalBurned : UInt64
  stakerCount : UInt64
  withdrawn : Bool := false
deriving DecidableEq

/-- One staker's position on a post. -/
structure PostStake where
  postID : PostID
  staker : Address
  amount : UInt64
  height : UInt64
deriving DecidableEq

structure ValidatorStake where
  address : Address
  pubKey : PublicKey
  stakedBalance : UInt64
deriving DecidableEq

structure UnbondingEntry where
  address : Address
  amount : UInt64
  releaseHeight : UInt64
deriving DecidableEq

/-! ## Transactions -/

/-- The transaction types `TxType` names; a `TxType` is any `uint8`. -/
inductive TxKind
  | transfer | createPost | boostPost | registerName | stake | unstake | unstakePost
deriving DecidableEq

/-- The case of `switch tx.Type` that is taken; none for `default`. -/
def txKind (t : UInt8) : Option TxKind :=
  match t.toNat with
  | 1 => some .transfer
  | 2 => some .createPost
  | 3 => some .boostPost
  | 4 => some .registerName
  | 5 => some .stake
  | 6 => some .unstake
  | 7 => some .unstakePost
  | _ => none

structure Transaction where
  type : UInt8
  sender : Address
  recipient : Address := .zero
  postID : PostID := .zero
  text : GoString := .empty
  channel : GoString := .empty
  amount : UInt64 := 0
  nonce : UInt64
  signature : GoString := .empty
  pubKey : PublicKey
deriving DecidableEq

def Transaction.kind (tx : Transaction) : Option TxKind := txKind tx.type

def Transaction.signableBytes (tx : Transaction) : HashWriter :=
  newHashWriter
    |>.writeUint32 tx.type.toUInt32
    |>.writeBytes tx.sender.toList
    |>.writeBytes tx.recipient.toList
    |>.writeBytes tx.postID.toList
    |>.writeString tx.text
    |>.writeString tx.channel
    |>.writeUint64 tx.amount
    |>.writeUint64 tx.nonce
    |>.writeBytes tx.pubKey.toList

/-- The bytes `Transaction.Hash` hashes. -/
def Transaction.hashBytes (tx : Transaction) : HashWriter :=
  (newHashWriter.writeBytes tx.signableBytes).writeBytes tx.signature.bytes

def Transaction.hash (E : Env) (tx : Transaction) : Hash := tx.hashBytes.sum256 E

/-! ## Blocks and votes -/

structure BlockHeader where
  height : UInt64
  prevHash : Hash
  proposerAddr : Address
  timestamp : Int64
  stateRoot : Hash
  txRoot : Hash
deriving DecidableEq

/-- The bytes `BlockHeader.Hash` hashes. -/
def BlockHeader.hashBytes (h : BlockHeader) : HashWriter :=
  newHashWriter
    |>.writeUint64 h.height
    |>.writeBytes h.prevHash.toList
    |>.writeBytes h.proposerAddr.toList
    |>.writeInt64 h.timestamp
    |>.writeBytes h.stateRoot.toList
    |>.writeBytes h.txRoot.toList

def BlockHeader.hash (E : Env) (h : BlockHeader) : Hash := h.hashBytes.sum256 E

structure BlockVote where
  height : UInt64
  blockHash : Hash
  voterAddr : Address
  voterPubKey : PublicKey
  signature : GoString
deriving DecidableEq

def BlockVote.signableBytes (v : BlockVote) : HashWriter :=
  (newHashWriter.writeUint64 v.height).writeBytes v.blockHash.toList

def signBlockVote (E : Env) (vote : BlockVote) (privKey : PrivateKey) : BlockVote :=
  { vote with voterPubKey := privKey.publicKey, signature := sign E privKey vote.signableBytes }

def verifyBlockVote (E : Env) (vote : BlockVote) : Bool :=
  if vote.signature.length = 0 then false
  else if addressFromPublicKey E vote.voterPubKey ≠ vote.voterAddr then false
  else verify E vote.voterPubKey vote.signableBytes vote.signature

structure SlashEvidence where
  voteA : BlockVote
  voteB : BlockVote
deriving DecidableEq

def SlashEvidence.isValid (E : Env) (se : SlashEvidence) : Bool :=
  if se.voteA.voterAddr ≠ se.voteB.voterAddr then false
  else if se.voteA.height ≠ se.voteB.height then false
  else if se.voteA.blockHash = se.voteB.blockHash then false
  else if !verifyBlockVote E se.voteA then false
  else if !verifyBlockVote E se.voteB then false
  else true

structure QuorumCertificate where
  height : UInt64
  blockHash : Hash
  votes : List BlockVote
deriving DecidableEq

structure Block where
  header : BlockHeader
  transactions : List Transaction
  evidence : List SlashEvidence := []
  qc : Option QuorumCertificate := none
deriving DecidableEq

/-- The bytes `ComputeTxRoot` hashes. -/
def txRootBytes (E : Env) (txs : List Transaction) : HashWriter :=
  txs.foldl (fun hw tx => hw.writeBytes (tx.hash E).toList)
    (newHashWriter.writeUint64 (UInt64.ofNat txs.length))

def computeTxRoot (E : Env) (txs : List Transaction) : Hash := (txRootBytes E txs).sum256 E

/-! ## The genesis configuration -/

structure GenesisAccount where
  address : Address
  balance : UInt64
deriving DecidableEq

structure GenesisValidator where
  address : Address
  pubKey : PublicKey
  stake : UInt64
deriving DecidableEq

/-- A Go `int` is 64 bits wide. -/
structure GenesisConfig where
  accounts : List GenesisAccount := []
  validators : List GenesisValidator := []
  maxPostLength : Int64 := 0
  maxPostBytes : Int64 := 0
  minPostCommitment : UInt64 := 0
  minBoostCommitment : UInt64 := 0
  maxTxPerBlock : Int64 := 0
  blockReward : UInt64 := 0
  minStake : UInt64 := 0
  epochLength : UInt64 := 0
  unbondingPeriod : UInt64 := 0
  slashFractionDoubleSign : UInt64 := 0
  postFeePercent : UInt64 := 0
  boostBurnPercent : UInt64 := 0
  boostAuthorPercent : UInt64 := 0
  boostStakerPercent : UInt64 := 0
deriving DecidableEq

/-! ## `MulDiv` -/

/-- `bits.Mul64`. -/
def mul64 (a b : UInt64) : UInt64 × UInt64 :=
  (UInt64.ofNat (a.toNat * b.toNat / 2 ^ 64), UInt64.ofNat (a.toNat * b.toNat))

/-- The quotient of `bits.Div64`, which panics unless `hi < y`. -/
def div64 (hi lo y : UInt64) : Option UInt64 :=
  if y ≤ hi then none else some (UInt64.ofNat ((hi.toNat * 2 ^ 64 + lo.toNat) / y.toNat))

/-- `MulDiv`, with its panics: division by zero and `div64`'s. -/
def mulDiv? (a b c : UInt64) : Option UInt64 :=
  let (hi, lo) := mul64 a b
  if hi = 0 then
    if c = 0 then none else some (lo / c)
  else if hi ≥ c then
    some (UInt64.ofNat (2 ^ 64 - 1))
  else
    div64 hi lo c

/-- `MulDiv` where it returns, which is at every `c` but zero. -/
def mulDiv (a b c : UInt64) : UInt64 := (mulDiv? a b c).getD 0

theorem mul64_spec (a b : UInt64) :
    (mul64 a b).1.toNat * 2 ^ 64 + (mul64 a b).2.toNat = a.toNat * b.toNat := by
  have h : a.toNat * b.toNat < 2 ^ 64 * 2 ^ 64 := Nat.mul_lt_mul'' a.toNat_lt b.toNat_lt
  simp only [mul64, UInt64.toNat_ofNat']
  omega

/-- `MulDiv` by a positive number returns the exact quotient, or the largest
`uint64` where that does not fit. -/
theorem mulDiv?_eq {a b c : UInt64} (hc : 0 < c.toNat) :
    ∃ q, mulDiv? a b c = some q ∧ q.toNat = min (a.toNat * b.toNat / c.toNat) (2 ^ 64 - 1) := by
  have hp := mul64_spec a b
  have hlo := (mul64 a b).2.toNat_lt
  unfold mulDiv?
  rcases hm : mul64 a b with ⟨hi, lo⟩
  rw [hm] at hp hlo
  simp only at hp hlo ⊢
  have hc0 : c ≠ 0 := by rintro rfl; simp at hc
  rw [if_neg hc0]
  split
  · next h0 =>
    subst h0
    refine ⟨lo / c, rfl, ?_⟩
    have := Nat.div_le_self lo.toNat c.toNat
    simp only [UInt64.toNat_zero, Nat.zero_mul, Nat.zero_add] at hp
    rw [UInt64.toNat_div, ← hp]
    omega
  split
  · next hge =>
    rw [ge_iff_le, UInt64.le_iff_toNat_le] at hge
    refine ⟨_, rfl, ?_⟩
    have : 2 ^ 64 ≤ a.toNat * b.toNat / c.toNat := by
      rw [Nat.le_div_iff_mul_le hc, ← hp]
      omega
    simp only [UInt64.toNat_ofNat']
    omega
  · next hlt =>
    have hlt' : hi.toNat < c.toNat := by
      rw [ge_iff_le, UInt64.le_iff_toNat_le] at hlt
      omega
    refine ⟨_, by rw [div64, if_neg hlt], ?_⟩
    have : a.toNat * b.toNat / c.toNat < 2 ^ 64 := by
      rw [Nat.div_lt_iff_lt_mul hc, ← hp]
      omega
    rw [UInt64.toNat_ofNat', hp, Nat.mod_eq_of_lt this]
    omega

theorem mulDiv_toNat {a b c : UInt64} (hc : 0 < c.toNat) :
    (mulDiv a b c).toNat = min (a.toNat * b.toNat / c.toNat) (2 ^ 64 - 1) := by
  obtain ⟨q, hq, hv⟩ := mulDiv?_eq (a := a) (b := b) hc
  rw [mulDiv, hq, Option.getD_some, hv]

/-- `MulDiv`, with any division in the place of `bits.Div64`. -/
def mulDivWith (div : UInt64 → UInt64 → UInt64 → Option UInt64) (a b c : UInt64) : Option UInt64 :=
  let (hi, lo) := mul64 a b
  if hi = 0 then
    if c = 0 then none else some (lo / c)
  else if hi ≥ c then
    some (UInt64.ofNat (2 ^ 64 - 1))
  else
    div hi lo c

theorem mulDivWith_div64 : mulDivWith div64 = mulDiv? := rfl

/-- What a division does where the high word is not below the divisor does not matter: it is never called there. -/
theorem mulDivWith_congr {div div' : UInt64 → UInt64 → UInt64 → Option UInt64}
    (h : ∀ hi lo y, hi < y → div hi lo y = div' hi lo y) (a b c : UInt64) :
    mulDivWith div a b c = mulDivWith div' a b c := by
  unfold mulDivWith
  dsimp only
  split
  · rfl
  split
  · rfl
  · next hlt => exact h _ _ _ (UInt64.not_le.mp hlt)

/-- **`MulDiv` is exact and saturates**: by a positive number it returns the
quotient of the whole product, or the largest `uint64`, and it divides by
`bits.Div64` only where that does not panic. -/
theorem mulDiv_exact (a b c : UInt64) (hc : 0 < c) :
    (∃ q, mulDiv? a b c = some q ∧ q.toNat = min (a.toNat * b.toNat / c.toNat) (2 ^ 64 - 1)) ∧
      ∀ div : UInt64 → UInt64 → UInt64 → Option UInt64, (∀ hi lo y, hi < y → div hi lo y = div64 hi lo y) →
        mulDivWith div a b c = mulDiv? a b c := by
  refine ⟨mulDiv?_eq (UInt64.lt_iff_toNat_lt.mp hc), fun div h => ?_⟩
  rw [← mulDivWith_div64]
  exact mulDivWith_congr h a b c

/-- The largest product by one does not fit. -/
theorem mulDiv_exact_largest : ∃ q, mulDiv? (-1) (-1) 1 = some q ∧ q.toNat = 2 ^ 64 - 1 :=
  (mulDiv_exact (-1) (-1) 1 (by decide)).1

/-- A share no larger than the whole divides exactly. -/
theorem mulDiv_toNat_of_le {a b c : UInt64} (hc : 0 < c.toNat) (h : b.toNat ≤ c.toNat) :
    (mulDiv a b c).toNat = a.toNat * b.toNat / c.toNat := by
  have hle : a.toNat * b.toNat / c.toNat ≤ a.toNat :=
    Nat.div_le_of_le_mul (by rw [Nat.mul_comm]; exact Nat.mul_le_mul_right _ h)
  have := a.toNat_lt
  rw [mulDiv_toNat hc]
  omega

end Drana
