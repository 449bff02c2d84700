/-
The web wallet (`drana-app/src/wallet`): the bytes `computeSignableBytes`
writes for a transaction object, the request `signAndSubmit` sends for it, and
that the node rebuilds a transaction with the same bytes.

A JavaScript string is taken as the text it is; numbers are natural numbers,
which JavaScript's are below 2^53.
-/
import Drana.Rpc
import Drana.Run

namespace Drana

open Except (orThrow throwIf wrapErr)

variable {E : Env}

/-! ## Byte strings -/

/-- `fromHex` on pairs of hexadecimal digits; what `parseInt` makes of others is left out. -/
def fromHex (hex : String) : Option (List UInt8) := hexBytes hex.toList

def toHex (bytes : List UInt8) : String := hexEncode bytes

/-- The wallet's `parseAddress`, which leaves the checksum unchecked. -/
def walletParseAddress (addr : String) : Option (List UInt8) :=
  if addr.toList.take 6 ≠ "drana1".toList then none
  else if (addr.toList.drop 6).length ≠ 48 then none
  else hexBytes (addr.toList.drop 6)

def writeUint32 (v : Nat) : List UInt8 := putUint32 (UInt32.ofNat v)
def writeUint64 (v : Nat) : List UInt8 := putUint64 (UInt64.ofNat v)
def writeLenPrefixed (data : List UInt8) : List UInt8 := writeUint64 data.length ++ data

/-! ## Transactions -/

/-- A JavaScript string, which has fewer than 2^53 characters. -/
structure JsString where
  text : String
  fits : text.toList.length < 2 ^ 53

/-- The transaction object that is signed; an empty recipient or post ID is none. -/
structure WalletTx where
  type : Nat
  sender : String
  recipient : String
  postId : String
  text : JsString
  channel : JsString
  amount : Nat
  nonce : Nat
  pubKey : String

/-- `s ? parse(s) : new Uint8Array(n)`. -/
def orZeros (n : Nat) (s : String) (parse : String → Option (List UInt8)) : Option (List UInt8) :=
  if s ≠ "" then parse s else some (List.replicate n 0)

/-- `computeSignableBytes`; none where it throws. -/
def computeSignableBytes (tx : WalletTx) : Option (List UInt8) := do
  let sender ← walletParseAddress tx.sender
  let recipient ← orZeros 24 tx.recipient walletParseAddress
  let postId ← orZeros 32 tx.postId fromHex
  let pubKey ← fromHex tx.pubKey
  return writeUint32 tx.type ++ writeLenPrefixed sender ++ writeLenPrefixed recipient ++ writeLenPrefixed postId ++
    writeLenPrefixed (utf8Encode tx.text.text) ++ writeLenPrefixed (utf8Encode tx.channel.text) ++
    writeUint64 tx.amount ++ writeUint64 tx.nonce ++ writeLenPrefixed pubKey

/-- The names of the transaction types, by number. -/
def typeNames : List String :=
  ["", "transfer", "create_post", "boost_post", "register_name", "stake", "unstake", "unstake_post"]

/-- `names[type] || 'transfer'`. -/
def typeName (type : Nat) : String :=
  let name := typeNames.getD type ""
  if name = "" then "transfer" else name

/-- The request `signAndSubmit` makes of a signed object; `undefined` members are left out. -/
def WalletTx.request (tx : WalletTx) (signature : String) : JsonObject :=
  [("type", typeName tx.type), ("sender", tx.sender)] ++ omitEmpty "recipient" tx.recipient ++
    omitEmpty "postId" tx.postId ++ omitEmpty "text" tx.text.text ++ omitEmpty "channel" tx.channel.text ++
    [("amount", formatUint tx.amount), ("nonce", formatUint tx.nonce), ("signature", signature),
      ("pubKey", tx.pubKey)]

/-- `signAndSubmit`: the request sent; `edSign seed message` is `ed.sign` of `@noble/ed25519`. -/
def signAndSubmit (edSign : ByteArr 32 → List UInt8 → ByteArr 64) (privateKey : PrivateKey) (tx : WalletTx) :
    Option JsonObject := do
  let signable ← computeSignableBytes tx
  let signature := edSign (ByteArr.copyFrom (privateKey.toList.take 32)) signable
  return tx.request (toHex signature.toList)

/-- `2 n` hexadecimal digits. -/
def IsHex (n : Nat) (s : String) : Prop := ∃ b, hexDecode s = some b ∧ b.length = n

/-- The objects the wallet makes: a type there is, `drana1` addresses, safe integers. -/
structure WalletTx.Valid (E : Env) (tx : WalletTx) : Prop where
  type : 1 ≤ tx.type ∧ tx.type ≤ 7
  sender : ∃ a, parseAddress E tx.sender = .ok a
  recipient : tx.recipient = "" ∨ ∃ a, parseAddress E tx.recipient = .ok a
  postId : tx.postId = "" ∨ IsHex 32 tx.postId
  amount : tx.amount < 2 ^ 53
  nonce : tx.nonce < 2 ^ 53
  pubKey : IsHex 32 tx.pubKey

/-! ## The node reads what the wallet signed -/

/-- The text as a Go string. -/
def JsString.goString (s : JsString) : GoString :=
  ⟨utf8Encode s.text, by
    have hle := utf8Encode_length_le s.text
    have hfits := s.fits
    omega⟩

theorem ofText_goString (s : JsString) : GoString.ofText s.text = some s.goString := GoString.ofBytes_eq rfl

/-- An address the node accepts is the 24 bytes the wallet reads. -/
theorem walletParseAddress_eq {s : String} {a : Address} (h : parseAddress E s = .ok a) :
    walletParseAddress s = some a.toList := by
  simp only [parseAddress, Except.bind_ok_iff, Except.throwIf_ok_iff, Except.orThrow_ok_iff, Except.pure_ok_iff,
    not_not] at h
  obtain ⟨_, _, _, hprefix, b, hb, _, hlen, _, _, rfl⟩ := h
  have hlen' : (s.toList.drop 6).length = 48 := by rw [hexBytes_length hb, hlen]
  simp only [walletParseAddress, ← hlen', ne_eq, not_true_eq_false, if_false, hb]
  have hprefix : s.toList.take 6 = "drana1".toList := hprefix
  rw [if_neg (not_not.mpr hprefix), ByteArr.toList_copyFrom hlen]

theorem parseHash_isHex {s : String} (h : IsHex 32 s) (msg : String) :
    ∃ a, parseHash s msg = .ok a ∧ fromHex s = some a.toList := by
  obtain ⟨b, hb, hlen⟩ := h
  refine ⟨ByteArr.copyFrom b, ?_, ?_⟩
  · simp [parseHash, hb, hlen, orThrow, throwIf, pure, Except.pure]
  · rw [ByteArr.toList_copyFrom hlen]
    exact hb

theorem parseRecipient_eq {s : String} (h : s = "" ∨ ∃ a, parseAddress E s = .ok a) :
    ∃ a, parseRecipient E s = .ok a ∧ orZeros 24 s walletParseAddress = some a.toList := by
  by_cases hs : s = ""
  · exact ⟨.zero, by simp [parseRecipient, hs], by simp [orZeros, hs, ByteArr.zero]⟩
  · obtain ⟨a, ha⟩ := h.resolve_left hs
    exact ⟨a, by simp [parseRecipient, hs, ha, wrapErr], by simp [orZeros, hs, walletParseAddress_eq ha]⟩

theorem parsePostID_eq {s : String} (h : s = "" ∨ IsHex 32 s) (msg : String) :
    ∃ a, parsePostID s msg .zero = .ok a ∧ orZeros 32 s fromHex = some a.toList := by
  by_cases hs : s = ""
  · exact ⟨.zero, by simp [parsePostID, hs], by simp [orZeros, hs, ByteArr.zero]⟩
  · obtain ⟨a, ha, hb⟩ := parseHash_isHex (h.resolve_left hs) msg
    exact ⟨a, by simp [parsePostID, hs, ha], by simp [orZeros, hs, hb]⟩

/-- The members of the request the wallet sends, as the node decodes them. -/
theorem decodeRequest_wallet {tx : WalletTx} {signature : String} (ha : tx.amount < 2 ^ 53) (hn : tx.nonce < 2 ^ 53) :
    decodeRequest (tx.request signature) =
    .ok { type := typeName tx.type, sender := tx.sender, recipient := tx.recipient, postID := tx.postId
          text := tx.text.goString, channel := tx.channel.goString, amount := UInt64.ofNat tx.amount
          nonce := UInt64.ofNat tx.nonce, signature, pubKey := tx.pubKey } := by
  have hfold := foldName_fields
  simp only [List.map_cons, List.map_nil, List.cons.injEq, and_true] at hfold
  have hamount := parseUint_format (show tx.amount < 2 ^ 64 by omega)
  have hnonce := parseUint_format (show tx.nonce < 2 ^ 64 by omega)
  simp only [WalletTx.request, decodeRequest, decodeUint, JsonObject.member, members_append, members_cons,
    members_omitEmpty, members_nil, hfold]
  simp [getLast_omitted, ofText_goString, hamount, hnonce, formatUint_ne_null (show tx.amount < 2 ^ 64 by omega),
    formatUint_ne_null (show tx.nonce < 2 ^ 64 by omega), orThrow]

/-- The type's name, and the byte the node takes it for. -/
theorem parseTxType_typeName {n : Nat} (h : 1 ≤ n ∧ n ≤ 7) :
    ∃ t, parseTxType (typeName n) = .ok t ∧ t.toUInt32 = UInt32.ofNat n := by
  have hn : n = 1 ∨ n = 2 ∨ n = 3 ∨ n = 4 ∨ n = 5 ∨ n = 6 ∨ n = 7 := by omega
  rcases hn with rfl | rfl | rfl | rfl | rfl | rfl | rfl <;> exact ⟨_, rfl, rfl⟩

/-- The node decodes what the wallet sends, and signs the same bytes. -/
theorem wallet_signs_alike (edSign : ByteArr 32 → List UInt8 → ByteArr 64) (privateKey : PrivateKey) {tx : WalletTx}
    (h : tx.Valid E) :
    ∃ signable body tx', computeSignableBytes tx = some signable ∧ signAndSubmit edSign privateKey tx = some body ∧
      handleSubmitTransaction E body = .ok tx' ∧ tx'.signableBytes = signable := by
  obtain ⟨t, htype, ht⟩ := parseTxType_typeName h.type
  obtain ⟨sender, hsender⟩ := h.sender
  obtain ⟨recipient, hrecipient, hwr⟩ := parseRecipient_eq h.recipient
  obtain ⟨postID, hpost, hwp⟩ := parsePostID_eq h.postId "invalid postId"
  obtain ⟨pubKey, hkey, hwk⟩ := parseHash_isHex h.pubKey "invalid pubKey"
  have hcompute : computeSignableBytes tx = some (writeUint32 tx.type ++ writeLenPrefixed sender.toList ++
      writeLenPrefixed recipient.toList ++ writeLenPrefixed postID.toList ++
      writeLenPrefixed (utf8Encode tx.text.text) ++ writeLenPrefixed (utf8Encode tx.channel.text) ++
      writeUint64 tx.amount ++ writeUint64 tx.nonce ++ writeLenPrefixed pubKey.toList) := by
    simp only [computeSignableBytes, walletParseAddress_eq hsender, hwr, hwp, hwk, Option.bind_eq_bind,
      Option.bind_some, Option.pure_def]
  obtain ⟨signable, hsignable⟩ : ∃ b, b = writeUint32 tx.type ++ writeLenPrefixed sender.toList ++
      writeLenPrefixed recipient.toList ++ writeLenPrefixed postID.toList ++
      writeLenPrefixed (utf8Encode tx.text.text) ++ writeLenPrefixed (utf8Encode tx.channel.text) ++
      writeUint64 tx.amount ++ writeUint64 tx.nonce ++ writeLenPrefixed pubKey.toList := ⟨_, rfl⟩
  rw [← hsignable] at hcompute
  obtain ⟨signature, hsign⟩ : ∃ g, g = edSign (ByteArr.copyFrom (privateKey.toList.take 32)) signable := ⟨_, rfl⟩
  have hsig : (hexDecode (toHex signature.toList)).bind GoString.ofBytes = some (signature.toGoString (by decide)) := by
    rw [toHex, hexDecode_encode]
    exact GoString.ofBytes_eq rfl
  have hrequest : signAndSubmit edSign privateKey tx = some (tx.request (toHex signature.toList)) := by
    simp only [signAndSubmit, hcompute, hsign, Option.bind_eq_bind, Option.bind_some, Option.pure_def]
  refine ⟨signable, _, { type := t, sender, recipient, postID, text := tx.text.goString, channel := tx.channel.goString
                         amount := UInt64.ofNat tx.amount, nonce := UInt64.ofNat tx.nonce
                         signature := signature.toGoString (by decide), pubKey }, hcompute, hrequest, ?_, ?_⟩
  · simp only [handleSubmitTransaction, decodeRequest_wallet h.amount h.nonce, Except.wrapErr, Except.ok_bind, htype,
      hsender, hrecipient, hpost, parsePostID_empty, hsig, hkey, orThrow]
    rfl
  · rw [hsignable]
    simp only [Transaction.signableBytes, newHashWriter, HashWriter.writeUint32, HashWriter.writeUint64,
      HashWriter.writeBytes, HashWriter.writeString, JsString.goString, ht, writeUint32, writeUint64,
      writeLenPrefixed, List.nil_append, List.append_assoc]

namespace Sample

/-- Key 1 replies to the first post. -/
def walletReply : WalletTx where
  type := 2
  sender := (address 1).toString
  recipient := ""
  postId := hexEncode firstPost.toList
  text := ⟨"¡hola!", by decide⟩
  channel := ⟨"gaming", by decide⟩
  amount := 1000
  nonce := 2
  pubKey := hexEncode (key 1).publicKey.toList

/-- Signing with a seed that is also the public key, as it is in `key`. -/
def edSign (seed : ByteArr 32) (message : List UInt8) : ByteArr 64 :=
  env.ed25519Sign (ByteArr.copyFrom (seed.toList ++ seed.toList)) message

theorem wallet_signs_alike_reply :
    ∃ signable body tx', computeSignableBytes walletReply = some signable ∧
      signAndSubmit edSign (key 1) walletReply = some body ∧
      handleSubmitTransaction env body = .ok tx' ∧ tx'.signableBytes = signable :=
  wallet_signs_alike edSign (key 1)
    { type := by decide
      sender := ⟨address 1, parseAddress_toString (addressFromPublicKey_validate _)⟩
      recipient := .inl rfl
      postId := .inr ⟨firstPost.toList, hexDecode_encode _, by simp⟩
      amount := by decide
      nonce := by decide
      pubKey := ⟨(key 1).publicKey.toList, hexDecode_encode _, by simp⟩ }

end Sample

end Drana
