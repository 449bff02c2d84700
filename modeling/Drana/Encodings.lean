/-
What is hashed and signed can be read back: each field is written with its
length, or is of a fixed length.
-/
import Drana.Run
import Drana.Lib.Delimited

namespace Drana

namespace HashWriter

theorem writeBytes_eq (hw : HashWriter) (b : List UInt8) : hw.writeBytes b = hw ++ lenPrefixed b := by
  simp [writeBytes, lenPrefixed]

theorem writeString_eq (hw : HashWriter) (s : GoString) : hw.writeString s = hw ++ lenPrefixed s.bytes :=
  writeBytes_eq hw s.bytes

end HashWriter

theorem address_delimited : Delimited fun a : Address => lenPrefixed a.toList :=
  lenPrefixed_array_delimited (by decide)

theorem hash_delimited : Delimited fun h : Hash => lenPrefixed h.toList :=
  lenPrefixed_array_delimited (by decide)

/-- The signed bytes determine every field but the signature, whatever follows them. -/
theorem signableBytes_delimited {tx tx' : Transaction} {r r' : List UInt8}
    (h : tx.signableBytes ++ r = tx'.signableBytes ++ r') : tx' = { tx with signature := tx'.signature } ∧ r = r' := by
  simp only [Transaction.signableBytes, HashWriter.writeUint32, HashWriter.writeUint64, HashWriter.writeBytes_eq,
    HashWriter.writeString_eq, newHashWriter, List.nil_append, List.append_assoc] at h
  obtain ⟨htype, h⟩ := putUint32_delimited _ _ _ _ h
  obtain ⟨hsender, h⟩ := address_delimited _ _ _ _ h
  obtain ⟨hrecipient, h⟩ := address_delimited _ _ _ _ h
  obtain ⟨hpost, h⟩ := hash_delimited _ _ _ _ h
  obtain ⟨htext, h⟩ := lenPrefixed_string_delimited _ _ _ _ h
  obtain ⟨hchannel, h⟩ := lenPrefixed_string_delimited _ _ _ _ h
  obtain ⟨hamount, h⟩ := putUint64_delimited _ _ _ _ h
  obtain ⟨hnonce, h⟩ := putUint64_delimited _ _ _ _ h
  obtain ⟨hkey, h⟩ := hash_delimited _ _ _ _ h
  have htype : tx.type = tx'.type := by
    have := congrArg UInt32.toUInt8 htype
    simpa using this
  refine ⟨?_, h⟩
  cases tx
  cases tx'
  simp only at htype hsender hrecipient hpost htext hchannel hamount hnonce hkey
  simp [htype, hsender, hrecipient, hpost, htext, hchannel, hamount, hnonce, hkey]

theorem signableBytes_inj {tx tx' : Transaction} (h : tx.signableBytes = tx'.signableBytes) :
    tx' = { tx with signature := tx'.signature } :=
  (@signableBytes_delimited tx tx' [] [] (by rw [h])).1

/-- A length has a fixed length itself. -/
theorem lenPrefixed_append {b b' r r' : List UInt8} (h : lenPrefixed b ++ r = lenPrefixed b' ++ r') :
    b ++ r = b' ++ r' := by
  rw [lenPrefixed, lenPrefixed, List.append_assoc, List.append_assoc] at h
  exact (putUint64_delimited _ _ _ _ h).2

theorem hashBytes_split {tx tx' : Transaction} (h : tx.hashBytes = tx'.hashBytes) :
    tx' = { tx with signature := tx'.signature } ∧ lenPrefixed tx.signature.bytes = lenPrefixed tx'.signature.bytes := by
  simp only [Transaction.hashBytes, HashWriter.writeBytes_eq, newHashWriter, List.nil_append] at h
  exact signableBytes_delimited (lenPrefixed_append h)

theorem hashBytes_fields {tx tx' : Transaction} (h : tx.hashBytes = tx'.hashBytes) :
    tx' = { tx with signature := tx'.signature } := (hashBytes_split h).1

theorem hashBytes_inj {tx tx' : Transaction} (h : tx.hashBytes = tx'.hashBytes) : tx = tx' := by
  obtain ⟨hfields, hsig⟩ := hashBytes_split h
  have hsig : tx.signature = tx'.signature := lenPrefixed_string_delimited.injective hsig
  rw [hfields, ← hsig]

/-! ## Blocks and votes -/

theorem toUInt64_inj {x y : Int64} (h : x.toUInt64 = y.toUInt64) : x = y := by
  cases x
  cases y
  exact congrArg Int64.ofUInt64 h

/-- A header can be read back from what is hashed of it. -/
theorem BlockHeader.hashBytes_inj {header header' : BlockHeader} (h : header.hashBytes = header'.hashBytes) :
    header = header' := by
  simp only [BlockHeader.hashBytes, HashWriter.writeUint64, HashWriter.writeInt64, HashWriter.writeBytes_eq,
    newHashWriter, List.nil_append, List.append_assoc] at h
  obtain ⟨hheight, h⟩ := putUint64_delimited _ _ _ _ h
  obtain ⟨hprev, h⟩ := hash_delimited _ _ _ _ h
  obtain ⟨hproposer, h⟩ := address_delimited _ _ _ _ h
  obtain ⟨htime, h⟩ := putUint64_delimited _ _ _ _ h
  obtain ⟨hstate, h⟩ := hash_delimited _ _ _ _ h
  have htx := hash_delimited.injective h
  have htime := toUInt64_inj htime
  cases header
  cases header'
  simp only at hheight hprev hproposer htime hstate htx
  simp [hheight, hprev, hproposer, htime, hstate, htx]

theorem BlockVote.signableBytes_inj {v v' : BlockVote} (h : v.signableBytes = v'.signableBytes) :
    v.height = v'.height ∧ v.blockHash = v'.blockHash := by
  simp only [BlockVote.signableBytes, HashWriter.writeUint64, HashWriter.writeBytes_eq, newHashWriter,
    List.nil_append] at h
  obtain ⟨hheight, h⟩ := putUint64_delimited _ _ _ _ h
  exact ⟨hheight, hash_delimited.injective h⟩

theorem BlockVote.length_signableBytes (v : BlockVote) : v.signableBytes.length = 48 := by
  simp [BlockVote.signableBytes, HashWriter.writeUint64, HashWriter.writeBytes, newHashWriter]

/-- The fixed parts of a transaction alone are longer than a vote. -/
theorem Transaction.length_signableBytes (tx : Transaction) : 48 < tx.signableBytes.length := by
  simp only [Transaction.signableBytes, HashWriter.writeUint32, HashWriter.writeUint64, HashWriter.writeBytes,
    HashWriter.writeString, newHashWriter, List.nil_append, List.length_append, length_putUint32, length_putUint64,
    Vector.length_toList]
  omega

theorem BlockVote.signableBytes_ne (v : BlockVote) (tx : Transaction) : v.signableBytes ≠ tx.signableBytes := by
  intro h
  have hlong := tx.length_signableBytes
  rw [← h, v.length_signableBytes] at hlong
  omega

/-! ## Lists of transactions -/

section

variable {E : Env}

theorem foldl_writeHash (txs : List Transaction) (hw : HashWriter) :
    txs.foldl (fun hw tx => hw.writeBytes (tx.hash E).toList) hw =
      hw ++ (txs.map (·.hash E)).flatMap fun h => lenPrefixed h.toList := by
  induction txs generalizing hw with
  | nil => simp
  | cons tx txs ih =>
    rw [List.foldl_cons, ih, HashWriter.writeBytes_eq, List.map_cons, List.flatMap_cons, List.append_assoc]

theorem txRootBytes_eq (txs : List Transaction) :
    txRootBytes E txs = putUint64 (UInt64.ofNat txs.length) ++ (txs.map (·.hash E)).flatMap fun h =>
    lenPrefixed h.toList := by
  rw [txRootBytes, foldl_writeHash]
  rfl

theorem length_flatMap_hash (l : List Hash) : (l.flatMap fun h => lenPrefixed h.toList).length = 40 * l.length := by
  induction l with
  | nil => rfl
  | cons h l ih =>
    rw [List.flatMap_cons, List.length_append, ih, lenPrefixed, List.length_append, length_putUint64,
      Vector.length_toList, List.length_cons]
    omega

/-- The count wraps from `2^64` on; the bytes' length does not. -/
theorem txRootBytes_hashes {txs txs' : List Transaction} (h : txRootBytes E txs = txRootBytes E txs') :
    txs.map (·.hash E) = txs'.map (·.hash E) := by
  rw [txRootBytes_eq, txRootBytes_eq] at h
  obtain ⟨-, h⟩ := putUint64_delimited _ _ _ _ h
  have hlen := congrArg List.length h
  rw [length_flatMap_hash, length_flatMap_hash] at hlen
  have happ : (txs.map (·.hash E)).flatMap (fun h => lenPrefixed h.toList) ++ [] =
      (txs'.map (·.hash E)).flatMap (fun h => lenPrefixed h.toList) ++ [] := by rw [h]
  exact (hash_delimited.flatMap_inj (by omega) happ).1

end

/-- **Unambiguous.** What is signed and what is hashed differ where the data does, and a vote's bytes are never a
transaction's, so a signature for one message only is not for both. -/
theorem encodings_unambiguous :
    (∀ tx tx' : Transaction, { tx with signature := tx'.signature } ≠ tx' → tx.signableBytes ≠ tx'.signableBytes) ∧
    (∀ tx tx' : Transaction, tx ≠ tx' → tx.hashBytes ≠ tx'.hashBytes) ∧
    (∀ (E : Env) (txs txs' : List Transaction), txs.map (·.hash E) ≠ txs'.map (·.hash E) →
      txRootBytes E txs ≠ txRootBytes E txs') ∧
    (∀ header header' : BlockHeader, header ≠ header' → header.hashBytes ≠ header'.hashBytes) ∧
    (∀ v v' : BlockVote, v.height ≠ v'.height ∨ v.blockHash ≠ v'.blockHash → v.signableBytes ≠ v'.signableBytes) ∧
    (∀ (v : BlockVote) (tx : Transaction), v.signableBytes ≠ tx.signableBytes) ∧
    ∀ (E : Env) (pubKey : PublicKey) (sig : GoString),
      (∀ m m', verify E pubKey m sig = true → verify E pubKey m' sig = true → m = m') →
      ∀ (v : BlockVote) (tx : Transaction), verify E pubKey v.signableBytes sig = true →
        verify E pubKey tx.signableBytes sig = false := by
  refine ⟨fun tx tx' hne h => hne (signableBytes_inj h).symm, fun tx tx' hne h => hne (hashBytes_inj h),
    fun E txs txs' hne h => hne (txRootBytes_hashes h), fun header header' hne h => hne (BlockHeader.hashBytes_inj h),
    fun v v' hne h => ?_, BlockVote.signableBytes_ne, fun E pubKey sig hone v tx hv => ?_⟩
  · obtain ⟨hheight, hhash⟩ := BlockVote.signableBytes_inj h
    rcases hne with hne | hne
    · exact hne hheight
    · exact hne hhash
  · refine Bool.eq_false_iff.mpr fun htx => ?_
    exact v.signableBytes_ne tx (hone _ _ hv htx)

namespace Sample

/-- A vote of key 1. -/
def firstVote : BlockVote := signBlockVote env ⟨1, .zero, address 1, .zero, .empty⟩ (key 1)

/-- Signatures of a world where that vote is all that was signed. -/
def voteOnly : Env :=
  { env with
    ed25519Verify := fun k m sig =>
      decide (k = (key 1).publicKey ∧ m = firstVote.signableBytes ∧ sig = firstVote.signature.bytes) }

theorem voteOnly_verify {m : List UInt8}
    (h : verify voteOnly (key 1).publicKey m firstVote.signature = true) : m = firstVote.signableBytes := by
  unfold verify at h
  split at h
  · cases h
  · exact (of_decide_eq_true h).2.1

end Sample

theorem encodings_unambiguous_signed :
    (Sample.createPost 1 100 1).signableBytes ≠ (Sample.createPost 1 100 2).signableBytes ∧
    (Sample.createPost 1 100 1).hashBytes ≠ { Sample.createPost 1 100 1 with signature := .empty }.hashBytes ∧
    txRootBytes Sample.env [Sample.createPost 1 100 1] ≠ txRootBytes Sample.env [] ∧
    (Sample.block 1 []).2.header.hashBytes ≠ (Sample.block 2 []).2.header.hashBytes ∧
    Sample.firstVote.signableBytes ≠ { Sample.firstVote with height := 2 }.signableBytes ∧
    verify Sample.voteOnly (Sample.key 1).publicKey (Sample.createPost 1 100 1).signableBytes Sample.firstVote.signature =
      false := by
  obtain ⟨htx, hhash, hroot, hheader, hvote, -, hsig⟩ := encodings_unambiguous
  refine ⟨htx _ _ (by decide +kernel), hhash _ _ (by decide +kernel), hroot _ _ _ (by simp),
    hheader _ _ (by decide +kernel),
    hvote _ _ (.inl (by decide +kernel)), ?_⟩
  exact hsig _ _ _ (fun m m' h h' => (Sample.voteOnly_verify h).trans (Sample.voteOnly_verify h').symm) Sample.firstVote _
    (by decide +kernel)

end Drana
