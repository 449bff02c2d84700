/-
The command line (`cmd/drana-cli/commands`): the transactions its commands
build and sign, the request `submitTx` makes of one, and what of it reaches
the node.

A command's arguments are texts, so valid UTF-8. `nfc` stands for
`norm.NFC.String`, which is not in the repository.
-/
import Drana.Rpc
import Drana.Encodings
import Drana.Run

namespace Drana

open Except (orThrow throwIf wrapErr)

variable {E : Env} {nfc : String → String} {privKey : PrivateKey} {nonce : UInt64} {tx : Transaction}

/-! ## Post texts -/

/-- `unicode.IsSpace`. -/
def isSpace (c : Char) : Bool :=
  c.toNat ∈ [0x09, 0x0A, 0x0B, 0x0C, 0x0D, 0x20, 0x85, 0xA0, 0x1680, 0x2028, 0x2029, 0x202F, 0x205F, 0x3000] ∨
    (0x2000 ≤ c.toNat ∧ c.toNat ≤ 0x200A)

/-- `strings.TrimSpace`. -/
def trimSpace (s : List Char) : List Char := ((s.dropWhile isSpace).reverse.dropWhile isSpace).reverse

/-- The loop of `NormalizePostText`: a run of blanks becomes one space. -/
def collapseSpaces (prevSpace : Bool) : List Char → List Char
  | [] => []
  | r :: rs =>
    if r = ' ' ∨ r = '\t' ∨ r = '\n' ∨ r = '\r' then
      if prevSpace then collapseSpaces true rs else ' ' :: collapseSpaces true rs
    else r :: collapseSpaces false rs

def normalizePostText (nfc : String → String) (raw : String) : Except String String := do
  let result := String.ofList (collapseSpaces false (trimSpace (nfc raw).toList))
  throwIf (result = "") "post text is empty after normalization"
  return result

/-! ## Commands -/

/-- `types.SignTransaction`. -/
def signTransaction (E : Env) (tx : Transaction) (privKey : PrivateKey) : Transaction :=
  let tx := { tx with pubKey := privKey.publicKey }
  { tx with signature := sign E privKey tx.signableBytes }

/-- A command that sends a transaction, with its flags. -/
inductive Command
  | transfer (recipient : String) (amount : UInt64)
  | post (text channel replyTo : String) (amount : UInt64)
  | boost (postIDHex : String) (amount : UInt64)
  | registerName (name : String)
  | stake (amount : UInt64)
  | unstake (amount : UInt64)
  | unstakePost (postIDHex : String)

/-- The text of a flag as a field of a transaction. -/
def flagText (s : String) : Except String GoString := orThrow (GoString.ofText s) "argument too long"

/-- What `RunTransfer`, `RunPost`, … build, before it is signed. `nonce` is what `queryNonce` answers. -/
def Command.build (E : Env) (nfc : String → String) (sender : Address) (nonce : UInt64) :
    Command → Except String Transaction
  | .transfer recipient amount => do
    throwIf (recipient = "" ∨ amount = 0) "--to and --amount are required"
    let recipient ← wrapErr ("invalid recipient: " ++ ·) (parseAddress E recipient)
    return { type := 1, sender, recipient, amount, nonce := nonce + 1, pubKey := .zero }
  | .post text channel replyTo amount => do
    throwIf (text = "" ∨ amount = 0) "--text and --amount are required"
    let normalized ← wrapErr ("text normalization: " ++ ·) (normalizePostText nfc text)
    let text ← flagText normalized
    let channel ← flagText channel
    let postID ← parsePostID replyTo "invalid --reply-to: must be 32-byte hex" .zero
    return { type := 2, sender, text, channel, postID, amount, nonce := nonce + 1, pubKey := .zero }
  | .boost postIDHex amount => do
    throwIf (postIDHex = "" ∨ amount = 0) "--post and --amount are required"
    let postID ← parseHash postIDHex "invalid post ID: must be 32-byte hex"
    return { type := 3, sender, postID, amount, nonce := nonce + 1, pubKey := .zero }
  | .registerName name => do
    throwIf (name = "") "--name is required"
    let text ← flagText name
    wrapErr ("invalid name: " ++ ·) (validateName text)
    return { type := 4, sender, text, nonce := nonce + 1, pubKey := .zero }
  | .stake amount => do
    throwIf (amount = 0) "--amount is required"
    return { type := 5, sender, amount, nonce := nonce + 1, pubKey := .zero }
  | .unstake amount => do
    throwIf (amount = 0) "--amount is required"
    return { type := 6, sender, amount, nonce := nonce + 1, pubKey := .zero }
  | .unstakePost postIDHex => do
    throwIf (postIDHex = "") "--post is required"
    let postID ← parseHash postIDHex "invalid post ID: must be 32-byte hex"
    return { type := 7, sender, postID, nonce := nonce + 1, pubKey := .zero }

/-- The signed transaction a command submits. -/
def Command.run (E : Env) (nfc : String → String) (privKey : PrivateKey) (nonce : UInt64) (c : Command) :
    Except String Transaction := do
  let tx ← c.build E nfc (addressFromPublicKey E privKey.publicKey) nonce
  return signTransaction E tx privKey

/-! ## The request -/

def txTypeStr (t : UInt8) : String :=
  match txKind t with
  | some k => k.name
  | none => "unknown"

/-- The request `submitTx` posts. -/
def submitTx (tx : Transaction) : SubmitTxRequest :=
  let req : SubmitTxRequest :=
    { type := txTypeStr tx.type, sender := tx.sender.toString, amount := tx.amount, nonce := tx.nonce
      signature := hexEncode tx.signature.bytes, pubKey := hexEncode tx.pubKey.toList }
  match tx.kind with
  | some .transfer => { req with recipient := tx.recipient.toString }
  | some .createPost => { req with text := tx.text }
  | some .boostPost => { req with postID := hexEncode tx.postID.toList }
  | _ => req

/-- What of a transaction the request carries. -/
def carried (tx : Transaction) : Transaction :=
  let bare := { tx with recipient := .zero, postID := .zero, text := .empty, channel := .empty }
  match tx.kind with
  | some .transfer => { bare with recipient := tx.recipient }
  | some .createPost => { bare with text := tx.text }
  | some .boostPost => { bare with postID := tx.postID }
  | _ => bare

theorem bytes_eq_nil {s : GoString} : s.bytes = [] ↔ s = .empty :=
  ⟨fun h => GoString.ext h, fun h => h ▸ rfl⟩

/-- The server rebuilds what the request carries. -/
theorem handle_submitTx {k : TxKind} (hk : tx.kind = some k) (hs : tx.sender.validate E = .ok ())
    (hr : tx.kind = some .transfer → tx.recipient.validate E = .ok ()) (ht : validString tx.text = true) :
    handleSubmitTransaction E (submitTx tx).marshal = .ok (carried tx) := by
  have htype : parseTxType (txTypeStr tx.type) = .ok tx.type := by
    have ht := txKind_eq_some.mp hk
    rw [ht]
    cases k <;> rfl
  have hsig : (hexDecode (hexEncode tx.signature.bytes)).bind GoString.ofBytes = some tx.signature := by
    rw [hexDecode_encode]
    exact GoString.ofBytes_eq rfl
  have hdecode : decodeRequest (submitTx tx).marshal = .ok (submitTx tx) := by
    refine decodeRequest_marshal ?_ ?_
    all_goals
      simp only [submitTx, hk]
      cases k
    all_goals first | exact ht | rfl
  have hsender := parseAddress_toString hs
  simp only [handleSubmitTransaction, hdecode, Except.wrapErr, Except.ok_bind]
  cases k
  case transfer =>
    simp only [submitTx, carried, hk, htype, hsender, hsig, parseRecipient_toString (hr hk), parsePostID_empty,
      parseHash_encode, orThrow, Except.ok_bind]
    rfl
  case createPost =>
    simp only [submitTx, carried, hk, htype, hsender, hsig, parseRecipient_empty, parsePostID_empty,
      parseHash_encode, orThrow, Except.ok_bind]
    rfl
  case boostPost =>
    simp only [submitTx, carried, hk, htype, hsender, hsig, parseRecipient_empty, parsePostID_encode,
      parsePostID_empty, parseHash_encode, orThrow, Except.ok_bind]
    rfl
  all_goals
    simp only [submitTx, carried, hk, htype, hsender, hsig, parseRecipient_empty, parsePostID_empty,
      parseHash_encode, orThrow, Except.ok_bind]
    rfl

/-! ## What arrives -/

/-- The node rebuilds a transaction with the signed bytes, so with the hash,
and the signature verifies on it as on the signed one. -/
def ArrivesAsSigned (E : Env) (tx : Transaction) : Prop :=
  ∃ tx', handleSubmitTransaction E (submitTx tx).marshal = .ok tx' ∧ tx'.signableBytes = tx.signableBytes ∧
    tx'.hash E = tx.hash E ∧
    verify E tx'.pubKey tx'.signableBytes tx'.signature = verify E tx.pubKey tx.signableBytes tx.signature

/-- All that the command signs is sent: no channel, no parent and no post
to unstake from but the all-zero ID, and never a name. -/
def Command.SentInFull : Command → Prop
  | .transfer .. | .boost .. | .stake _ | .unstake _ => True
  | .post _ channel replyTo _ => channel = "" ∧ (replyTo = "" ∨ hexDecode replyTo = some (List.replicate 32 0))
  | .registerName _ => False
  | .unstakePost postIDHex => hexDecode postIDHex = some (List.replicate 32 0)

theorem arrivesAsSigned_iff_carried {k : TxKind} (hk : tx.kind = some k) (hs : tx.sender.validate E = .ok ())
    (hr : tx.kind = some .transfer → tx.recipient.validate E = .ok ()) (ht : validString tx.text = true) :
    ArrivesAsSigned E tx ↔ carried tx = tx := by
  have hh := handle_submitTx hk hs hr ht
  have hsig : (carried tx).signature = tx.signature := by
    simp only [carried]
    split <;> rfl
  constructor
  · intro h
    obtain ⟨tx', h', hbytes, -⟩ := h
    rw [hh] at h'
    obtain rfl := Except.ok.inj h'
    rw [signableBytes_inj hbytes.symm, hsig]
  · intro h
    rw [h] at hh
    exact ⟨tx, hh, rfl, rfl, rfl⟩

theorem parseHash_zero {s msg : String} {a : Hash} (h : parseHash s msg = .ok a) :
    a = .zero ↔ hexDecode s = some (List.replicate 32 0) := by
  simp only [parseHash, Except.bind_ok_iff, Except.orThrow_ok_iff, Except.throwIf_ok_iff, Except.pure_ok_iff,
    not_not] at h
  obtain ⟨b, hb, _, hlen, rfl⟩ := h
  have hlist := ByteArr.toList_copyFrom hlen
  rw [hb, Option.some.injEq]
  constructor
  · intro h
    rw [← hlist, h]
    rfl
  · intro h
    subst h
    rfl

theorem parsePostID_zero {s msg : String} {a : PostID} (h : parsePostID s msg .zero = .ok a) :
    a = .zero ↔ s = "" ∨ hexDecode s = some (List.replicate 32 0) := by
  unfold parsePostID at h
  split at h
  · next hs =>
    obtain rfl := Except.ok.inj h
    simp [hs]
  · next hs =>
    simp only [hs, false_or]
    exact parseHash_zero h

theorem flagText_empty {s : String} {t : GoString} (h : flagText s = .ok t) : t = .empty ↔ s = "" := by
  have hb := GoString.ofText_bytes (Except.orThrow_ok_iff.mp h)
  rw [← bytes_eq_nil, hb, utf8Encode, List.flatMap_eq_nil_iff]
  constructor
  · intro hs
    refine String.toList_eq_nil_iff.mp (List.eq_nil_iff_forall_not_mem.mpr fun c hc => ?_)
    exact String.utf8EncodeChar_ne_nil (hs c hc)
  · intro hs
    subst hs
    simp

theorem carried_sign_iff {tx : Transaction} :
    carried (signTransaction E tx privKey) = signTransaction E tx privKey ↔ carried tx = tx := by
  cases tx
  simp only [carried, signTransaction, Transaction.kind]
  split <;> simp

theorem arrivesAsSigned_sign_iff {k : TxKind} {tx : Transaction} (hk : tx.kind = some k)
    (hs : tx.sender.validate E = .ok ()) (hr : k = .transfer → tx.recipient.validate E = .ok ())
    (ht : validString tx.text = true) : ArrivesAsSigned E (signTransaction E tx privKey) ↔ carried tx = tx := by
  have hk' : (signTransaction E tx privKey).kind = some k := hk
  rw [arrivesAsSigned_iff_carried hk' hs (fun h => hr (Option.some.inj (hk'.symm.trans h))) ht, carried_sign_iff]

/-- A command's transaction arrives as signed exactly when the request has a
member for everything the command has set. -/
theorem arrivesAsSigned_iff {c : Command} (h : c.run E nfc privKey nonce = .ok tx) :
    ArrivesAsSigned E tx ↔ c.SentInFull := by
  have hsender := addressFromPublicKey_validate (E := E) privKey.publicKey
  simp only [Command.run, Except.bind_ok_iff, Except.pure_ok_iff] at h
  obtain ⟨unsigned, hbuild, rfl⟩ := h
  cases c
  case transfer recipient amount =>
    simp only [Command.build, Except.bind_ok_iff, Except.wrapErr_ok_iff, Except.pure_ok_iff] at hbuild
    obtain ⟨_, _, a, ha, rfl⟩ := hbuild
    rw [arrivesAsSigned_sign_iff (k := .transfer) rfl hsender (fun _ => parseAddress_validate ha) rfl]
    exact iff_of_true rfl trivial
  case post text channel replyTo amount =>
    simp only [Command.build, Except.bind_ok_iff, Except.wrapErr_ok_iff, Except.pure_ok_iff] at hbuild
    obtain ⟨_, _, normalized, _, t, ht, ch, hch, postID, hpost, rfl⟩ := hbuild
    have hvalid := validString_ofText (Except.orThrow_ok_iff.mp ht)
    rw [arrivesAsSigned_sign_iff (k := .createPost) rfl hsender (by simp) hvalid]
    simp only [Command.SentInFull, ← flagText_empty hch, ← parsePostID_zero hpost]
    simp [carried, Transaction.kind, txKind, and_comm, eq_comm]
  case boost postIDHex amount =>
    simp only [Command.build, Except.bind_ok_iff, Except.pure_ok_iff] at hbuild
    obtain ⟨_, _, postID, _, rfl⟩ := hbuild
    rw [arrivesAsSigned_sign_iff (k := .boostPost) rfl hsender (by simp) rfl]
    exact iff_of_true rfl trivial
  case registerName name =>
    simp only [Command.build, Except.bind_ok_iff, Except.wrapErr_ok_iff, Except.throwIf_ok_iff,
      Except.pure_ok_iff] at hbuild
    obtain ⟨_, hne, text, ht, _, _, rfl⟩ := hbuild
    have hvalid := validString_ofText (Except.orThrow_ok_iff.mp ht)
    rw [arrivesAsSigned_sign_iff (k := .registerName) rfl hsender (by simp) hvalid]
    simp only [← flagText_empty ht] at hne
    simpa [Command.SentInFull, carried, Transaction.kind, txKind, eq_comm] using hne
  case stake amount =>
    simp only [Command.build, Except.bind_ok_iff, Except.pure_ok_iff] at hbuild
    obtain ⟨_, _, rfl⟩ := hbuild
    rw [arrivesAsSigned_sign_iff (k := .stake) rfl hsender (by simp) rfl]
    exact iff_of_true rfl trivial
  case unstake amount =>
    simp only [Command.build, Except.bind_ok_iff, Except.pure_ok_iff] at hbuild
    obtain ⟨_, _, rfl⟩ := hbuild
    rw [arrivesAsSigned_sign_iff (k := .unstake) rfl hsender (by simp) rfl]
    exact iff_of_true rfl trivial
  case unstakePost postIDHex =>
    simp only [Command.build, Except.bind_ok_iff, Except.pure_ok_iff] at hbuild
    obtain ⟨_, _, postID, hpost, rfl⟩ := hbuild
    rw [arrivesAsSigned_sign_iff (k := .unstakePost) rfl hsender (by simp) rfl]
    simp only [Command.SentInFull, ← parseHash_zero hpost]
    simp [carried, Transaction.kind, txKind, eq_comm]

namespace Sample

/-- The transaction of `stake --amount 5`. -/
def stakeFive : Transaction :=
  signTransaction env { type := 5, sender := address 1, amount := 5, nonce := 1, pubKey := .zero } (key 1)

theorem arrivesAsSigned_iff_stake : ArrivesAsSigned env stakeFive ↔ (Command.stake 5).SentInFull :=
  @arrivesAsSigned_iff env id (key 1) 0 stakeFive (.stake 5) rfl

/-- The transaction of `register-name --name bob`. -/
def registerBob : Transaction :=
  signTransaction env
    { type := 4, sender := address 1, text := bob, nonce := 1, pubKey := .zero } (key 1)

/-- It is signed with the name, sent without it, and rebuilt without it. -/
theorem name_not_sent : (Command.registerName "bob").run env id (key 1) 0 = .ok registerBob ∧
    ¬ ArrivesAsSigned env registerBob := by
  constructor
  · rfl
  · intro h
    have hsender : (address 1).validate env = .ok () := addressFromPublicKey_validate _
    rw [arrivesAsSigned_iff_carried (k := .registerName) rfl hsender (by decide) rfl] at h
    revert h
    decide +kernel

end Sample

end Drana
