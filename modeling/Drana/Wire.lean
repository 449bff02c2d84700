/-
Blocks on the wire (`internal/p2p/convert.go`): the messages of `types.proto`
and the conversions both ways. A block loses its evidence, which the messages
have no field for, and nothing else.

Marshalling is the protobuf library's. A missing submessage is a nil pointer;
a list has none.
-/
import Drana.Engine

namespace Drana

open Except (orThrow)

/-! ## Messages -/

namespace Pb

structure Transaction where
  type : UInt32
  sender : List UInt8
  recipient : List UInt8
  postId : List UInt8
  text : GoString
  amount : UInt64
  nonce : UInt64
  signature : GoString
  pubKey : List UInt8
  channel : GoString
deriving DecidableEq

structure BlockHeader where
  height : UInt64
  prevHash : List UInt8
  proposerAddr : List UInt8
  timestamp : Int64
  stateRoot : List UInt8
  txRoot : List UInt8
deriving DecidableEq

structure BlockVote where
  height : UInt64
  blockHash : List UInt8
  voterAddress : List UInt8
  voterPubKey : List UInt8
  signature : GoString
deriving DecidableEq

structure QuorumCertificate where
  height : UInt64
  blockHash : List UInt8
  votes : List BlockVote
deriving DecidableEq

structure Block where
  header : Option BlockHeader
  transactions : List Transaction
  qc : Option QuorumCertificate
deriving DecidableEq

end Pb

/-! ## To the wire -/

namespace P2p

def txToProto (tx : Transaction) : Pb.Transaction where
  type := tx.type.toUInt32
  sender := tx.sender.toList
  recipient := tx.recipient.toList
  postId := tx.postID.toList
  text := tx.text
  channel := tx.channel
  amount := tx.amount
  nonce := tx.nonce
  signature := tx.signature
  pubKey := tx.pubKey.toList

def voteToProto (v : BlockVote) : Pb.BlockVote where
  height := v.height
  blockHash := v.blockHash.toList
  voterAddress := v.voterAddr.toList
  voterPubKey := v.voterPubKey.toList
  signature := v.signature

def qcToProto (qc : QuorumCertificate) : Pb.QuorumCertificate where
  height := qc.height
  blockHash := qc.blockHash.toList
  votes := qc.votes.map voteToProto

def headerToProto (h : BlockHeader) : Pb.BlockHeader where
  height := h.height
  prevHash := h.prevHash.toList
  proposerAddr := h.proposerAddr.toList
  timestamp := h.timestamp
  stateRoot := h.stateRoot.toList
  txRoot := h.txRoot.toList

def blockToProto (b : Block) : Pb.Block where
  header := some (headerToProto b.header)
  transactions := b.transactions.map txToProto
  qc := b.qc.map qcToProto

/-! ## From the wire -/

def txFromProto (ptx : Pb.Transaction) : Transaction where
  type := ptx.type.toUInt8
  text := ptx.text
  channel := ptx.channel
  amount := ptx.amount
  nonce := ptx.nonce
  signature := ptx.signature
  sender := .copyFrom ptx.sender
  recipient := .copyFrom ptx.recipient
  postID := .copyFrom ptx.postId
  pubKey := .copyFrom ptx.pubKey

def voteFromProto (pv : Pb.BlockVote) : BlockVote where
  height := pv.height
  signature := pv.signature
  blockHash := .copyFrom pv.blockHash
  voterAddr := .copyFrom pv.voterAddress
  voterPubKey := .copyFrom pv.voterPubKey

def qcFromProto (pqc : Pb.QuorumCertificate) : QuorumCertificate where
  height := pqc.height
  blockHash := .copyFrom pqc.blockHash
  votes := pqc.votes.map voteFromProto

def headerFromProto (h : Pb.BlockHeader) : BlockHeader where
  height := h.height
  timestamp := h.timestamp
  prevHash := .copyFrom h.prevHash
  proposerAddr := .copyFrom h.proposerAddr
  stateRoot := .copyFrom h.stateRoot
  txRoot := .copyFrom h.txRoot

/-- A block without a header makes it panic. -/
def blockFromProto (pb : Pb.Block) : Except String Block := do
  let header ← orThrow pb.header "nil pointer dereference"
  return { header := headerFromProto header
           transactions := pb.transactions.map txFromProto
           qc := pb.qc.map qcFromProto }

/-! ## There and back -/

variable {b : Block}

@[simp] theorem txFromProto_to (tx : Transaction) : txFromProto (txToProto tx) = tx := by
  cases tx
  simp [txFromProto, txToProto]

@[simp] theorem voteFromProto_to (v : BlockVote) : voteFromProto (voteToProto v) = v := by
  cases v
  simp [voteFromProto, voteToProto]

@[simp] theorem qcFromProto_to (qc : QuorumCertificate) : qcFromProto (qcToProto qc) = qc := by
  cases qc
  simp [qcFromProto, qcToProto, Function.comp_def]

@[simp] theorem headerFromProto_to (h : BlockHeader) : headerFromProto (headerToProto h) = h := by
  cases h
  simp [headerFromProto, headerToProto]

/-- The engine's view of a `pb.Block`: the fields that are copied out of it. -/
def read (pb : Pb.Block) : Except String PbBlock := do
  let header ← orThrow pb.header "nil pointer dereference"
  return ⟨headerFromProto header, pb.transactions.map txFromProto, pb.qc.map qcFromProto⟩

theorem blockFromProto_read (pb : Pb.Block) :
    blockFromProto pb = (do let m ← read pb; return Drana.blockFromProto m) := by
  simp only [blockFromProto, read]
  cases pb.header <;> rfl

/-- A block sent is read as its header, transactions and certificate. -/
theorem read_to (b : Block) : read (blockToProto b) = .ok ⟨b.header, b.transactions, b.qc⟩ := by
  have htxs : (b.transactions.map txToProto).map txFromProto = b.transactions := by
    simp [Function.comp_def]
  have hqc : (b.qc.map qcToProto).map qcFromProto = b.qc := by
    simp [Function.comp_def]
  simp only [read, blockToProto, orThrow, Except.ok_bind, headerFromProto_to, htxs, hqc]
  rfl

/-- What arrives of a block: all but its evidence. -/
theorem blockFromProto_to (b : Block) : blockFromProto (blockToProto b) = .ok { b with evidence := [] } := by
  rw [blockFromProto_read, read_to]
  rfl

/-- **Blocks survive the wire** exactly when they have no evidence. -/
theorem block_survives_iff (b : Block) : blockFromProto (blockToProto b) = .ok b ↔ b.evidence = [] := by
  rw [blockFromProto_to]
  constructor
  · intro h
    have h : { b with evidence := [] } = b := Except.ok.inj h
    rw [← h]
  · intro h
    rw [← h]

/-- Two votes at height 5, for evidence. -/
def sampleEvidence : SlashEvidence :=
  ⟨⟨5, .copyFrom [1], .zero, .zero, .empty⟩, ⟨5, .copyFrom [2], .zero, .zero, .empty⟩⟩

/-- A block with it. -/
def accusingBlock : Block where
  header := ⟨6, .zero, .zero, 0, .zero, .zero⟩
  transactions := []
  evidence := [sampleEvidence]

theorem evidence_lost : blockFromProto (blockToProto accusingBlock) ≠ .ok accusingBlock := by
  rw [blockFromProto_to]
  intro h
  have h := congrArg Block.evidence (Except.ok.inj h)
  cases h

end P2p

end Drana
