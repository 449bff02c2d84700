/-
The protocol rules for a transaction (`internal/validation`): names, post
texts, and what `ValidateTransaction` checks against the state.
-/
import Drana.State

namespace Drana

open Except (orThrow throwIf wrapErr)

/-! ## UTF-8 -/

/-- A continuation byte `10xxxxxx`. -/
def isCont (b : UInt8) : Bool := 0x80 ≤ b && b ≤ 0xBF

/-- `utf8.DecodeRuneInString`: the code point, or none for an invalid byte
(Go's `RuneError`), and how many bytes it takes. -/
def decodeRune : List UInt8 → Option Nat × Nat
  | [] => (none, 0)
  | b₀ :: rest =>
    if b₀ < 0x80 then (some b₀.toNat, 1)
    else if 0xC2 ≤ b₀ && b₀ ≤ 0xDF then
      match rest with
      | b₁ :: _ =>
        if isCont b₁ then (some ((b₀.toNat - 0xC0) * 64 + (b₁.toNat - 0x80)), 2) else (none, 1)
      | _ => (none, 1)
    else if 0xE0 ≤ b₀ && b₀ ≤ 0xEF then
      match rest with
      | b₁ :: b₂ :: _ =>
        -- No overlong forms after `E0`, no surrogates after `ED`.
        if (if b₀ = 0xE0 then 0xA0 else 0x80) ≤ b₁ && b₁ ≤ (if b₀ = 0xED then 0x9F else 0xBF) && isCont b₂ then
          (some ((b₀.toNat - 0xE0) * 4096 + (b₁.toNat - 0x80) * 64 + (b₂.toNat - 0x80)), 3)
        else (none, 1)
      | _ => (none, 1)
    else if 0xF0 ≤ b₀ && b₀ ≤ 0xF4 then
      match rest with
      | b₁ :: b₂ :: b₃ :: _ =>
        -- No overlong forms after `F0`, nothing past U+10FFFF after `F4`.
        if (if b₀ = 0xF0 then 0x90 else 0x80) ≤ b₁ && b₁ ≤ (if b₀ = 0xF4 then 0x8F else 0xBF) &&
            isCont b₂ && isCont b₃ then
          (some ((b₀.toNat - 0xF0) * 262144 + (b₁.toNat - 0x80) * 4096 + (b₂.toNat - 0x80) * 64 +
            (b₃.toNat - 0x80)), 4)
        else (none, 1)
      | _ => (none, 1)
    else (none, 1)

/-- The iterations of `for i, r := range s`: offset and code point, from
offset `i` on, the first `skip` bytes belonging to the rune before. -/
def rangeRunes (i : Nat) : Nat → List UInt8 → List (Nat × Option Nat)
  | _, [] => []
  | skip + 1, _ :: bs => rangeRunes (i + 1) skip bs
  | 0, b :: bs => (i, (decodeRune (b :: bs)).1) :: rangeRunes (i + 1) ((decodeRune (b :: bs)).2 - 1) bs

def validString (s : GoString) : Bool := (rangeRunes 0 0 s.bytes).all (·.2.isSome)

def runeCountInString (s : GoString) : Nat := (rangeRunes 0 0 s.bytes).length

/-! ## Names and texts -/

def minNameLength : Nat := 3
def maxNameLength : Nat := 20

/-- `a`–`z`, `0`–`9` and `_`. -/
def isNameRune (c : Nat) : Bool := (97 ≤ c && c ≤ 122) || (48 ≤ c && c ≤ 57) || c = 95

/-- `utf8.RuneError`, what `range` yields for an invalid byte. -/
def runeError : Nat := 0xFFFD

/-- The loop of `ValidateName`. The code point stands in the error for its `%q`. -/
def checkNameRunes : List (Nat × Option Nat) → Except String Unit
  | [] => .ok ()
  | (i, r) :: rest => do
    let c := r.getD runeError
    throwIf (!isNameRune c) s!"invalid character {c} at position {i} (allowed: a-z, 0-9, _)"
    checkNameRunes rest

/-- `strings.Contains(name, "__")`. -/
def hasDoubleUnderscore : List UInt8 → Bool
  | b₀ :: b₁ :: bs => (b₀ = 95 && b₁ = 95) || hasDoubleUnderscore (b₁ :: bs)
  | _ => false

def validateName (name : GoString) : Except String Unit := do
  throwIf (name.length < minNameLength) s!"name too short: {name.length} characters (min {minNameLength})"
  throwIf (name.length > maxNameLength) s!"name too long: {name.length} characters (max {maxNameLength})"
  checkNameRunes (rangeRunes 0 0 name.bytes)
  throwIf (name.bytes.head? = some 95) "name must not start with underscore"
  throwIf (name.bytes.getLast? = some 95) "name must not end with underscore"
  throwIf (hasDoubleUnderscore name.bytes) "name must not contain consecutive underscores"

def validatePostText (E : Env) (text : GoString) (maxCodePoints maxBytes : Int64) : Except String Unit := do
  throwIf (!validString text) "post text is not valid UTF-8"
  throwIf (text = .empty) "post text is empty"
  throwIf (!E.isNormalString text.bytes) "post text is not NFC-normalized"
  let cpCount := runeCountInString text
  throwIf ((cpCount : Int) > maxCodePoints.toInt)
    s!"post text exceeds maximum length: {cpCount} code points (max {maxCodePoints})"
  throwIf ((text.length : Int) > maxBytes.toInt)
    s!"post text exceeds maximum byte size: {text.length} bytes (max {maxBytes})"

/-! ## Transactions -/

/-- What validation reads of the chain state. -/
structure StateReader where
  getAccount : Address → Option Account
  getPost : PostID → Option Post
  getAccountByName : GoString → Option Account
  getPostStake : PostID → Address → Option PostStake

def WorldState.reader (ws : WorldState) : StateReader where
  getAccount := ws.getAccount
  getPost := ws.getPost
  getAccountByName := ws.getAccountByName
  getPostStake := ws.getPostStake

def validateCommonNoBalanceCheck (E : Env) (tx : Transaction) (sr : StateReader) : Except String Account := do
  throwIf (addressFromPublicKey E tx.pubKey ≠ tx.sender) "public key does not match sender address"
  throwIf (!verify E tx.pubKey tx.signableBytes tx.signature) "invalid signature"
  let acct ← orThrow (sr.getAccount tx.sender) "sender account does not exist"
  throwIf (tx.nonce ≠ acct.nonce + 1) s!"invalid nonce: expected {acct.nonce + 1}, got {tx.nonce}"
  return acct

def validateCommon (E : Env) (tx : Transaction) (sr : StateReader) : Except String Account := do
  let acct ← validateCommonNoBalanceCheck E tx sr
  throwIf (acct.balance < tx.amount) s!"insufficient balance: have {acct.balance}, need {tx.amount}"
  return acct

def validateTransfer (E : Env) (tx : Transaction) (sr : StateReader) : Except String Unit := do
  throwIf (tx.amount = 0) "transfer amount must be greater than zero"
  throwIf (tx.sender = tx.recipient) "sender and recipient must be different"
  throwIf (Address.isZero tx.recipient) "recipient address is zero"
  let _ ← validateCommon E tx sr

/-- A reply names a post that is not itself a reply. -/
def validateParent (tx : Transaction) (sr : StateReader) : Except String Unit :=
  if tx.postID ≠ ByteArr.zero then do
    let parent ← orThrow (sr.getPost tx.postID) s!"parent post {hexEncode tx.postID.toList} does not exist"
    throwIf (parent.parentPostID ≠ ByteArr.zero) "cannot reply to a reply (flat replies only)"
  else .ok ()

def validateChannel (tx : Transaction) : Except String Unit :=
  if tx.channel ≠ .empty then wrapErr ("invalid channel: " ++ ·) (validateName tx.channel) else .ok ()

def validateCreatePost (E : Env) (tx : Transaction) (sr : StateReader) (params : GenesisConfig) :
    Except String Unit := do
  throwIf (tx.amount < params.minPostCommitment)
    s!"post commitment {tx.amount} below minimum {params.minPostCommitment}"
  wrapErr ("invalid post text: " ++ ·) (validatePostText E tx.text params.maxPostLength params.maxPostBytes)
  validateChannel tx
  validateParent tx sr
  let _ ← validateCommon E tx sr

def validateBoostPost (E : Env) (tx : Transaction) (sr : StateReader) (params : GenesisConfig) :
    Except String Unit := do
  throwIf (tx.amount < params.minBoostCommitment)
    s!"boost commitment {tx.amount} below minimum {params.minBoostCommitment}"
  let post ← orThrow (sr.getPost tx.postID) s!"post {hexEncode tx.postID.toList} does not exist"
  throwIf post.withdrawn "cannot boost a withdrawn post"
  let _ ← validateCommon E tx sr

def validateUnstakePost (E : Env) (tx : Transaction) (sr : StateReader) : Except String Unit := do
  let _ ← validateCommonNoBalanceCheck E tx sr
  let _ ← orThrow (sr.getPostStake tx.postID tx.sender) "no active stake on this post"
  let _ ← orThrow (sr.getPost tx.postID) "post does not exist"

/-- The name in the two last errors stands for its `%q`. -/
def validateRegisterName (E : Env) (tx : Transaction) (sr : StateReader) : Except String Unit := do
  throwIf (tx.amount ≠ 0) "name registration must have zero amount"
  wrapErr ("invalid name: " ++ ·) (validateName tx.text)
  let acct ← validateCommon E tx sr
  throwIf (acct.name ≠ .empty) s!"account already has a name: {hexEncode acct.name.bytes}"
  throwIf (sr.getAccountByName tx.text).isSome s!"name {hexEncode tx.text.bytes} is already taken"

def validateStake (E : Env) (tx : Transaction) (sr : StateReader) (params : GenesisConfig) :
    Except String Unit := do
  throwIf (tx.amount = 0) "stake amount must be greater than zero"
  let acct ← validateCommon E tx sr
  throwIf (acct.stakedBalance = 0 ∧ params.minStake > 0 ∧ tx.amount < params.minStake)
    s!"initial stake {tx.amount} below minimum {params.minStake}"

def validateUnstake (E : Env) (tx : Transaction) (sr : StateReader) (params : GenesisConfig) :
    Except String Unit := do
  throwIf (tx.amount = 0) "unstake amount must be greater than zero"
  let acct ← validateCommonNoBalanceCheck E tx sr
  throwIf (acct.stakedBalance < tx.amount)
    s!"insufficient staked balance: have {acct.stakedBalance}, want to unstake {tx.amount}"
  let remaining := acct.stakedBalance - tx.amount
  throwIf (remaining > 0 ∧ params.minStake > 0 ∧ remaining < params.minStake)
    s!"remaining stake {remaining} below minimum {params.minStake} (unstake all or keep >= minimum)"

def validateTransaction (E : Env) (tx : Transaction) (sr : StateReader) (params : GenesisConfig) :
    Except String Unit :=
  match tx.kind with
  | some .transfer => validateTransfer E tx sr
  | some .createPost => validateCreatePost E tx sr params
  | some .boostPost => validateBoostPost E tx sr params
  | some .registerName => validateRegisterName E tx sr
  | some .stake => validateStake E tx sr params
  | some .unstake => validateUnstake E tx sr params
  | some .unstakePost => validateUnstakePost E tx sr
  | none => .error s!"unknown transaction type: {tx.type}"

end Drana
