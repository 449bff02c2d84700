/-
A node's JSON interface (`internal/rpc`): the request that submits a
transaction, and what `handleSubmitTransaction` makes of it.

A JSON text is taken as the value it denotes. The two ends write and read
objects of strings; `json.Marshal` and `JSON.stringify` escape what is in a
string, and the decoder undoes it.
-/
import Mathlib
import Drana.Utf8

namespace Drana

open Except (orThrow throwIf wrapErr)

/-! ## JSON -/

/-- A JSON object whose members are strings, in the order they are written. -/
abbrev JsonObject := List (String × String)

/-- What a rune of a member's name is compared as. The two runes that are no
letters of English and fold to one are the long s and the Kelvin sign. -/
def foldRune (c : Char) : Char := if c = '\u017f' then 'S' else if c = '\u212a' then 'K' else c.toUpper

/-- `foldName` of `encoding/json`, as far as the names of the fields tell apart. -/
def foldName (name : String) : List Char := name.toList.map foldRune

/-- The members that are decoded into the field `name`: letter case is ignored. -/
def JsonObject.members (o : JsonObject) (name : String) : List String :=
  (o.filter fun m => foldName m.1 = foldName name).map (·.2)

/-- The string in the field `name`, the last of them if there are several; Go's zero value if there is none. -/
def JsonObject.member (o : JsonObject) (name : String) : String := (o.members name).getLast?.getD ""

/-- A member with `omitempty`. -/
def omitEmpty (name value : String) : JsonObject := if value = "" then [] else [(name, value)]

/-! ## Addresses -/

def parseAddress (E : Env) (s : String) : Except String Address := do
  throwIf (s.utf8ByteSize < 6) "address too short"
  throwIf (s.toList.take 6 ≠ addressPrefix.toList) s!"address must start with {addressPrefix}"
  let b ← orThrow (hexBytes (s.toList.drop 6)) "invalid hex in address"
  throwIf (b.length ≠ 24) s!"address hex must be 24 bytes, got {b.length}"
  let addr : Address := ByteArr.copyFrom b
  addr.validate E
  return addr

/-! ## Submitting a transaction -/

/-- The type's name in `txTypeString` and in the command line's `txTypeStr`. -/
def TxKind.name : TxKind → String
  | .transfer => "transfer"
  | .createPost => "create_post"
  | .boostPost => "boost_post"
  | .registerName => "register_name"
  | .stake => "stake"
  | .unstake => "unstake"
  | .unstakePost => "unstake_post"

/-- The value of the `TxType` constant. -/
def TxKind.type : TxKind → UInt8
  | .transfer => 1
  | .createPost => 2
  | .boostPost => 3
  | .registerName => 4
  | .stake => 5
  | .unstake => 6
  | .unstakePost => 7

def txTypeString (t : UInt8) : String :=
  match txKind t with
  | some k => k.name
  | none => s!"unknown({t})"

def parseTxType (s : String) : Except String UInt8 :=
  if s = "transfer" then .ok 1
  else if s = "create_post" then .ok 2
  else if s = "boost_post" then .ok 3
  else if s = "register_name" then .ok 4
  else if s = "stake" then .ok 5
  else if s = "unstake" then .ok 6
  else if s = "unstake_post" then .ok 7
  else .error s!"unknown tx type: {s}"

structure SubmitTxRequest where
  type : String
  sender : String
  recipient : String := ""
  postID : String := ""
  text : GoString := .empty
  channel : GoString := .empty
  parentPostID : String := ""
  amount : UInt64
  nonce : UInt64
  signature : String
  pubKey : String

/-- `json.Marshal` of a request. -/
def SubmitTxRequest.marshal (req : SubmitTxRequest) : JsonObject :=
  [("type", req.type), ("sender", req.sender)] ++ omitEmpty "recipient" req.recipient ++
    omitEmpty "postId" req.postID ++ omitEmpty "text" (jsonText req.text) ++
    omitEmpty "channel" (jsonText req.channel) ++ omitEmpty "parentPostId" req.parentPostID ++
    [("amount", formatUint req.amount.toNat), ("nonce", formatUint req.nonce.toNat),
      ("signature", req.signature), ("pubKey", req.pubKey)]

/-- A `uint64` written as a string; zero where the member is missing. A null changes nothing. -/
def decodeUint (o : JsonObject) (name : String) : Except String UInt64 :=
  (o.members name).foldlM (fun v s =>
    if s = "null" then .ok v else orThrow (parseUint s) s!"invalid use of ,string struct tag in {name}") 0

/-- `json.Decode` into a request. -/
def decodeRequest (o : JsonObject) : Except String SubmitTxRequest := do
  let text ← orThrow (GoString.ofText (o.member "text")) "text too long"
  let channel ← orThrow (GoString.ofText (o.member "channel")) "channel too long"
  let amount ← decodeUint o "amount"
  let nonce ← decodeUint o "nonce"
  return {
    type := o.member "type", sender := o.member "sender", recipient := o.member "recipient"
    postID := o.member "postId", text, channel, parentPostID := o.member "parentPostId"
    amount, nonce, signature := o.member "signature", pubKey := o.member "pubKey" }

/-- 32 bytes in hexadecimal. -/
def parseHash (s msg : String) : Except String Hash := do
  let b ← orThrow (hexDecode s) msg
  throwIf (b.length ≠ 32) msg
  return ByteArr.copyFrom b

/-- An optional post ID: `postID` where the member is empty. -/
def parsePostID (s msg : String) (postID : PostID) : Except String PostID :=
  if s = "" then .ok postID else parseHash s msg

def parseRecipient (E : Env) (s : String) : Except String Address :=
  if s = "" then .ok .zero else wrapErr ("invalid recipient: " ++ ·) (parseAddress E s)

/-- The transaction `handleSubmitTransaction` hands to the engine, or the error it answers with. -/
def handleSubmitTransaction (E : Env) (body : JsonObject) : Except String Transaction := do
  let req ← wrapErr ("invalid request body: " ++ ·) (decodeRequest body)
  let type ← parseTxType req.type
  let sender ← wrapErr ("invalid sender: " ++ ·) (parseAddress E req.sender)
  let recipient ← parseRecipient E req.recipient
  let postID ← parsePostID req.postID "invalid postId" .zero
  -- The parent of a reply takes the place of the post ID.
  let postID ← parsePostID req.parentPostID "invalid parentPostId" postID
  let signature ← orThrow ((hexDecode req.signature).bind GoString.ofBytes) "invalid signature hex"
  let pubKey ← parseHash req.pubKey "invalid pubKey"
  return { type, sender, recipient, postID, text := req.text, channel := req.channel
           amount := req.amount, nonce := req.nonce, signature, pubKey }

/-! ## What is written is read back -/

variable {E : Env}

theorem addressChecksum_length (body : List UInt8) : (addressChecksum E body).length = 4 := by
  simp [addressChecksum]

theorem addressFromPublicKey_validate (pubKey : PublicKey) :
    (addressFromPublicKey E pubKey).validate E = .ok () := by
  have hbody : ((E.sha256 pubKey.toList).toList.take 20).length = 20 := by simp
  have hlist : (addressFromPublicKey E pubKey).toList = (E.sha256 pubKey.toList).toList.take 20 ++
      addressChecksum E ((E.sha256 pubKey.toList).toList.take 20) := by
    refine ByteArr.toList_copyFrom ?_
    rw [List.length_append, hbody, addressChecksum_length]
  rw [Address.validate, Except.throwIf_ok_iff, hlist, List.take_left' hbody, List.drop_left' hbody]
  exact fun h => h rfl

theorem parseAddress_validate {s : String} {a : Address} (h : parseAddress E s = .ok a) :
    a.validate E = .ok () := by
  simp only [parseAddress, Except.bind_ok_iff, Except.pure_ok_iff] at h
  obtain ⟨_, _, _, _, b, _, _, _, u, hu, rfl⟩ := h
  exact hu

theorem addressPrefix_length : addressPrefix.toList.length = 6 := by decide

theorem parseAddress_toString {a : Address} (h : a.validate E = .ok ()) : parseAddress E a.toString = .ok a := by
  have hlist : a.toString.toList = addressPrefix.toList ++ (hexEncode a.toList).toList := by
    simp [Address.toString]
  have hsize : ¬ a.toString.utf8ByteSize < 6 := by
    simp only [Address.toString, String.utf8ByteSize_append, show addressPrefix.utf8ByteSize = 6 from rfl]
    omega
  have hlen : ¬ a.toList.length ≠ 24 := by simp
  simp only [parseAddress, Except.throwIf, hsize, hlist, List.take_left' addressPrefix_length,
    List.drop_left' addressPrefix_length, hexBytes_encode, hlen, not_true_eq_false, ne_eq, if_false, orThrow,
    ByteArr.copyFrom_toList, h, Except.ok_bind]
  rfl

theorem parseHash_encode (a : Hash) (msg : String) : parseHash (hexEncode a.toList) msg = .ok a := by
  have hlen : ¬ a.toList.length ≠ 32 := by simp
  simp only [parseHash, hexDecode_encode, orThrow, hlen, Except.throwIf, if_false, Except.ok_bind,
    ByteArr.copyFrom_toList]
  rfl

theorem hexEncode_ne_empty {n : Nat} {a : ByteArr n} (hn : 0 < n) : hexEncode a.toList ≠ "" := by
  intro h
  have hlen := length_hexEncode a.toList
  rw [h] at hlen
  simp at hlen
  omega

theorem parsePostID_empty (msg : String) (p : PostID) : parsePostID "" msg p = .ok p := rfl

theorem parsePostID_encode (a : PostID) (msg : String) (p : PostID) :
    parsePostID (hexEncode a.toList) msg p = .ok a := by
  rw [parsePostID, if_neg (hexEncode_ne_empty (by decide)), parseHash_encode]

theorem parseRecipient_empty : parseRecipient E "" = .ok .zero := rfl

theorem parseRecipient_toString {a : Address} (h : a.validate E = .ok ()) :
    parseRecipient E a.toString = .ok a := by
  have hne : a.toString ≠ "" := by
    intro h
    have := congrArg (·.toList.length) h
    simp [Address.toString, addressPrefix] at this
  rw [parseRecipient, if_neg hne, parseAddress_toString h]
  rfl

theorem txKind_eq_some {t : UInt8} {k : TxKind} : txKind t = some k ↔ t = k.type := by
  constructor
  · intro h
    unfold txKind at h
    apply UInt8.toNat_inj.mp
    split at h <;> cases h <;> assumption
  · rintro rfl
    cases k <;> rfl

@[simp] theorem members_nil {name : String} : JsonObject.members [] name = [] := rfl

theorem members_append {o o' : JsonObject} {name : String} :
    JsonObject.members (o ++ o') name = o.members name ++ o'.members name := by
  simp only [JsonObject.members, List.filter_append, List.map_append]

theorem members_cons {m : String × String} {o : JsonObject} {name : String} :
    JsonObject.members (m :: o) name = if foldName m.1 = foldName name then m.2 :: o.members name else o.members
    name := by
  simp only [JsonObject.members, List.filter_cons, decide_eq_true_iff]
  split <;> rfl

theorem members_omitEmpty {name value n : String} :
    (omitEmpty name value).members n = if foldName name = foldName n ∧ value ≠ "" then [value] else [] := by
  unfold omitEmpty
  split
  · next h => simp [JsonObject.members, h]
  · next h => simp [members_cons, members_nil, h]

/-- The string of a member with `omitempty`. -/
theorem getLast_omitted {value : String} : (if value = "" then [] else [value]).getLast?.getD "" = value := by
  split
  · next h => rw [h]; rfl
  · rfl

/-- The names of the fields, as they are compared. -/
theorem foldName_fields : ["type", "sender", "recipient", "postId", "text", "channel", "parentPostId", "amount", "nonce",
    "signature", "pubKey"].map foldName = ["TYPE", "SENDER", "RECIPIENT", "POSTID", "TEXT", "CHANNEL", "PARENTPOSTID",
      "AMOUNT", "NONCE", "SIGNATURE", "PUBKEY"].map String.toList := by
  decide

theorem formatUint_ne_null {n : Nat} (h : n < 2 ^ 64) : formatUint n ≠ "null" := by
  intro heq
  have hparse := parseUint_format h
  rw [heq] at hparse
  have hnone : parseUint "null" = none := by decide
  cases hnone.symm.trans hparse

/-- A request is decoded as it was, if its texts are valid UTF-8. -/
theorem decodeRequest_marshal {req : SubmitTxRequest} (ht : validString req.text = true)
    (hc : validString req.channel = true) : decodeRequest req.marshal = .ok req := by
  have hfold := foldName_fields
  simp only [List.map_cons, List.map_nil, List.cons.injEq, and_true] at hfold
  simp only [decodeRequest, decodeUint, JsonObject.member, SubmitTxRequest.marshal, members_append, members_cons,
    members_omitEmpty, members_nil, hfold]
  simp [getLast_omitted, ofText_jsonText ht, ofText_jsonText hc, formatUint_ne_null req.amount.toNat_lt,
    formatUint_ne_null req.nonce.toNat_lt, orThrow]

end Drana
