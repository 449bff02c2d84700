/-
Blocks as the block store keeps them (`internal/types/json.go`): byte arrays in
hexadecimal, texts as JSON strings. What is marshalled is what is unmarshalled,
if its texts are valid UTF-8; a JSON string has no other.

The members that `json.go` does not touch are the JSON library's.
-/
import Drana.Utf8
import Drana.Rpc
import Drana.BlockStore

namespace Drana

open Except (orThrow throwIf wrapErr)

/-! ## Marshalling -/

/-- `transactionJSON`. -/
structure TransactionJSON where
  type : UInt8
  sender : String
  recipient : String
  postId : String
  text : String
  channel : String
  amount : UInt64
  nonce : UInt64
  signature : String
  pubKey : String

/-- `blockHeaderJSON`. -/
structure BlockHeaderJSON where
  height : UInt64
  prevHash : String
  proposerAddr : String
  timestamp : Int64
  stateRoot : String
  txRoot : String

structure BlockJSON where
  header : BlockHeaderJSON
  transactions : List TransactionJSON
  evidence : List SlashEvidence
  qc : Option QuorumCertificate

def Transaction.marshalJSON (tx : Transaction) : TransactionJSON where
  type := tx.type
  sender := hexEncode tx.sender.toList
  recipient := hexEncode tx.recipient.toList
  postId := hexEncode tx.postID.toList
  text := jsonText tx.text
  channel := jsonText tx.channel
  amount := tx.amount
  nonce := tx.nonce
  signature := hexEncode tx.signature.bytes
  pubKey := hexEncode tx.pubKey.toList

def BlockHeader.marshalJSON (h : BlockHeader) : BlockHeaderJSON where
  height := h.height
  prevHash := hexEncode h.prevHash.toList
  proposerAddr := hexEncode h.proposerAddr.toList
  timestamp := h.timestamp
  stateRoot := hexEncode h.stateRoot.toList
  txRoot := hexEncode h.txRoot.toList

def Block.marshalJSON (b : Block) : BlockJSON where
  header := b.header.marshalJSON
  transactions := b.transactions.map Transaction.marshalJSON
  evidence := b.evidence
  qc := b.qc

/-! ## Unmarshalling -/

/-- An empty string leaves the bytes zero. -/
def decodeHexInto (n : Nat) (s : String) : Except String (ByteArr n) :=
  if s = "" then return .zero
  else do
    let b ← orThrow (hexDecode s) "encoding/hex: invalid hex string"
    throwIf (b.length ≠ n) s!"expected {n} bytes, got {b.length}"
    return .copyFrom b

def TransactionJSON.unmarshal (j : TransactionJSON) : Except String Transaction := do
  let text ← orThrow (GoString.ofText j.text) "text too long"
  let channel ← orThrow (GoString.ofText j.channel) "channel too long"
  let sender ← wrapErr ("sender: " ++ ·) (decodeHexInto 24 j.sender)
  let recipient ← wrapErr ("recipient: " ++ ·) (decodeHexInto 24 j.recipient)
  let postID ← wrapErr ("postId: " ++ ·) (decodeHexInto 32 j.postId)
  let pubKey ← wrapErr ("pubKey: " ++ ·) (decodeHexInto 32 j.pubKey)
  let signature ← orThrow ((hexDecode j.signature).bind GoString.ofBytes) "signature: encoding/hex: invalid hex string"
  return { type := j.type, sender, recipient, postID, text, channel, amount := j.amount, nonce := j.nonce
           signature, pubKey }

def BlockHeaderJSON.unmarshal (j : BlockHeaderJSON) : Except String BlockHeader := do
  let prevHash ← wrapErr ("prevHash: " ++ ·) (decodeHexInto 32 j.prevHash)
  let proposerAddr ← wrapErr ("proposerAddr: " ++ ·) (decodeHexInto 24 j.proposerAddr)
  let stateRoot ← wrapErr ("stateRoot: " ++ ·) (decodeHexInto 32 j.stateRoot)
  let txRoot ← wrapErr ("txRoot: " ++ ·) (decodeHexInto 32 j.txRoot)
  return { height := j.height, prevHash, proposerAddr, timestamp := j.timestamp, stateRoot, txRoot }

def BlockJSON.unmarshal (j : BlockJSON) : Except String Block := do
  let header ← j.header.unmarshal
  let transactions ← j.transactions.mapM TransactionJSON.unmarshal
  return { header, transactions, evidence := j.evidence, qc := j.qc }

/-! ## There and back -/

/-- The texts of a transaction are valid UTF-8. -/
def ValidTexts (tx : Transaction) : Prop := validString tx.text = true ∧ validString tx.channel = true

theorem decodeHexInto_encode {n : Nat} (hn : 0 < n) (a : ByteArr n) : decodeHexInto n (hexEncode a.toList) = .ok a := by
  have hlen : ¬ a.toList.length ≠ n := by simp
  rw [decodeHexInto, if_neg (hexEncode_ne_empty hn)]
  simp only [hexDecode_encode, orThrow, hlen, throwIf, if_false, Except.ok_bind, ByteArr.copyFrom_toList]
  rfl

theorem Transaction.unmarshal_marshal {tx : Transaction} (h : ValidTexts tx) : tx.marshalJSON.unmarshal = .ok tx := by
  have hsig : (hexDecode (hexEncode tx.signature.bytes)).bind GoString.ofBytes = some tx.signature := by
    rw [hexDecode_encode]
    exact GoString.ofBytes_eq rfl
  have htext := ofText_jsonText h.1
  have hchannel := ofText_jsonText h.2
  simp only [TransactionJSON.unmarshal, Transaction.marshalJSON, htext, hchannel, hsig, orThrow, Except.ok_bind,
    decodeHexInto_encode (show 0 < 24 by decide), decodeHexInto_encode (show 0 < 32 by decide), wrapErr]
  rfl

theorem BlockHeader.unmarshal_marshal (h : BlockHeader) : h.marshalJSON.unmarshal = .ok h := by
  simp only [BlockHeaderJSON.unmarshal, BlockHeader.marshalJSON, Except.ok_bind,
    decodeHexInto_encode (show 0 < 24 by decide), decodeHexInto_encode (show 0 < 32 by decide), wrapErr]
  rfl

/-- A block with valid texts is read as it was written. -/
theorem Block.unmarshal_marshal {b : Block} (h : ∀ tx ∈ b.transactions, ValidTexts tx) :
    b.marshalJSON.unmarshal = .ok b := by
  have htxs : (b.transactions.map Transaction.marshalJSON).mapM TransactionJSON.unmarshal = .ok b.transactions := by
    revert h
    induction b.transactions with
    | nil => exact fun _ => rfl
    | cons tx txs ih =>
      intro h
      rw [List.map_cons, List.mapM_cons, Transaction.unmarshal_marshal (h tx List.mem_cons_self),
        ih fun tx' htx' => h tx' (List.mem_cons_of_mem _ htx')]
      rfl
  simp only [BlockJSON.unmarshal, Block.marshalJSON, BlockHeader.unmarshal_marshal, htxs, Except.ok_bind]
  rfl

/-- `GetBlockByHeight`, by the JSON under the block's key. -/
def BlockStore.loadBlock (bs : BlockStore) (height : UInt64) : Except String Block := do
  let j ← orThrow ((bs.blockHeight.lookup height).map Block.marshalJSON) s!"block at height {height} not found"
  j.unmarshal

theorem BlockStore.loadBlock_eq {bs : BlockStore} {height : UInt64}
    (h : ∀ b, bs.blockHeight.lookup height = some b → ∀ tx ∈ b.transactions, ValidTexts tx) :
    bs.loadBlock height = bs.getBlockByHeight height := by
  rw [loadBlock, getBlockByHeight]
  cases hl : bs.blockHeight.lookup height with
  | none => rfl
  | some b => exact Block.unmarshal_marshal (h b hl)

end Drana
