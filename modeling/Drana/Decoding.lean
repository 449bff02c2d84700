/-
The decoders of `internal/store/kvstore.go` once more, with their offsets and
with the panics of the slices they take. On any bytes they come to their end
with what the decoders of `Drana.Store` return, so what was encoded is decoded
and nothing is read past the end.
-/
import Drana.Lib.Panic
import Drana.StoreFacts
import Drana.Run

namespace Drana
namespace Checked

open Except (throwIf)

/-! ## Reads -/

/-- `b[i:j]`. Go allows a `j` up to the capacity; here the bytes of `b` are all there is. -/
def slice (b : List UInt8) (i j : Nat) : Go (List UInt8) :=
  if i ≤ j ∧ j ≤ b.length then pure ((b.drop i).take (j - i)) else Go.panic .indexOutOfRange

/-- `binary.BigEndian.Uint64(b[off:])` -/
def uint64 (b : List UInt8) (off : Nat) : Go UInt64 := do
  match getUint64 (← slice b off b.length) with
  | some v => pure v
  | none => Go.panic .indexOutOfRange

/-- `binary.BigEndian.Uint32(b[off:])` -/
def uint32 (b : List UInt8) (off : Nat) : Go UInt32 := do
  match getUint32 (← slice b off b.length) with
  | some v => pure v
  | none => Go.panic .indexOutOfRange

/-- `string(b[off : off+int(n)])` -/
def text (b : List UInt8) (off : Nat) (n : UInt32) : Go GoString := do
  return .ofTake n (← slice b off (off + n.toNat))

/-- `copy(a[:], b[off:off+n])` -/
def array (n : Nat) (b : List UInt8) (off : Nat) : Go (ByteArr n) := do
  return .copyFrom (← slice b off (off + n))

/-! ## Decoders -/

def decodeName (b : List UInt8) (off : Nat) : Go GoString :=
  if b.length > off + 4 then do
    let nameLen ← uint32 b off
    let off := off + 4
    if b.length ≥ off + nameLen.toNat then text b off nameLen else return .empty
  else return .empty

def decodeAccount (b : List UInt8) : Go Account :=
  if b.length < 24 + 8 + 8 then Go.returned (.error s!"account data too short: {b.length} bytes") else do
    let address ← array 24 b 0
    let balance ← uint64 b 24
    let nonce ← uint64 b 32
    let a : Account := { address, balance, nonce }
    if b.length > 40 + 8 then do
      let stakedBalance ← uint64 b 40
      if b.length > 48 + 8 then do
        let postStakeBalance ← uint64 b 48
        let name ← decodeName b 56
        return { a with stakedBalance, postStakeBalance, name }
      else return { a with stakedBalance }
    else return a

def decodePostEnd (b : List UInt8) (off : Nat) : Go (GoString × PostID) :=
  if b.length ≥ off + 4 then do
    let chanLen ← uint32 b off
    let off := off + 4
    let channel ← (if b.length ≥ off + chanLen.toNat then text b off chanLen else pure .empty)
    let off := if b.length ≥ off + chanLen.toNat then off + chanLen.toNat else off
    let parentPostID ← (if b.length ≥ off + 32 then array 32 b off else pure .zero)
    return (channel, parentPostID)
  else return (.empty, .zero)

def decodePost (b : List UInt8) : Go Post :=
  if b.length < 32 + 24 + 8 + 8 + 8 + 8 + 8 + 1 + 4 then
    Go.returned (.error s!"post data too short: {b.length} bytes")
  else do
    let postID ← array 32 b 0
    let author ← array 24 b 32
    let createdAtHeight ← uint64 b 56
    let createdAtTime ← uint64 b 64
    let totalStaked ← uint64 b 72
    let totalBurned ← uint64 b 80
    let stakerCount ← uint64 b 88
    let withdrawn ← (if b.length > 96 then do return decide ((← Go.index b 96) = 1) else pure false)
    let off := if b.length > 96 then 97 else 96
    let textLen ← uint32 b off
    let off := off + 4
    if b.length < off + textLen.toNat then Go.returned (.error "post text truncated") else do
      let text ← text b off textLen
      let (channel, parentPostID) ← decodePostEnd b (off + textLen.toNat)
      return { postID, author, text, channel, parentPostID, createdAtHeight
               createdAtTime := createdAtTime.toInt64, totalStaked, totalBurned, stakerCount, withdrawn }

def decodePostStake (b : List UInt8) : Go PostStake :=
  if b.length < 32 + 24 + 8 + 8 then Go.returned (.error "post stake data too short") else do
    let postID ← array 32 b 0
    let staker ← array 24 b 32
    let amount ← uint64 b 56
    let height ← uint64 b 64
    return { postID, staker, amount, height }

/-- The loop over `count` entries. -/
def decodeEntries {α : Type} (entrySize : Nat) (entry : List UInt8 → Nat → Go α) (b : List UInt8) :
    Nat → Nat → Go (List α)
  | 0, _ => return []
  | count + 1, off =>
    if off + entrySize ≤ b.length then do
      let v ← entry b off
      let vs ← decodeEntries entrySize entry b count (off + entrySize)
      return v :: vs
    else return []

def decodeList {α : Type} (entrySize : Nat) (entry : List UInt8 → Nat → Go α) (b : List UInt8) : Go (List α) :=
  if b.length < 4 then return [] else do
    let count ← uint32 b 0
    decodeEntries entrySize entry b count.toNat 4

def decodeValidator (b : List UInt8) (off : Nat) : Go ValidatorStake := do
  let address ← array 24 b off
  let pubKey ← array 32 b (off + 24)
  let stakedBalance ← uint64 b (off + 24 + 32)
  return { address, pubKey, stakedBalance }

def decodeValidatorSet (b : List UInt8) : Go (List ValidatorStake) := decodeList (24 + 32 + 8) decodeValidator b

def decodeUnbonding (b : List UInt8) (off : Nat) : Go UnbondingEntry := do
  let address ← array 24 b off
  let amount ← uint64 b (off + 24)
  let releaseHeight ← uint64 b (off + 24 + 8)
  return { address, amount, releaseHeight }

def decodeUnbondingQueue (b : List UInt8) : Go (List UnbondingEntry) := decodeList (24 + 8 + 8) decodeUnbonding b

/-! ## No read is past the end -/

section

variable {b : List UInt8} {off : Nat}

theorem slice_eq {j : Nat} (hij : off ≤ j) (hj : j ≤ b.length) :
    slice b off j = Go.returned (.ok ((b.drop off).take (j - off))) := if_pos ⟨hij, hj⟩

theorem getUint64_isSome {l : List UInt8} (h : 8 ≤ l.length) : ∃ v, getUint64 l = some v := by
  rcases l with _ | ⟨_, _ | ⟨_, _ | ⟨_, _ | ⟨_, _ | ⟨_, _ | ⟨_, _ | ⟨_, _ | ⟨_, _⟩⟩⟩⟩⟩⟩⟩⟩
  all_goals simp at h
  exact ⟨_, rfl⟩

theorem getUint32_isSome {l : List UInt8} (h : 4 ≤ l.length) : ∃ v, getUint32 l = some v := by
  rcases l with _ | ⟨_, _ | ⟨_, _ | ⟨_, _ | ⟨_, _⟩⟩⟩⟩
  all_goals simp at h
  exact ⟨_, rfl⟩

theorem uint64_eq (h : off + 8 ≤ b.length) :
    ∃ v, uint64 b off = Go.returned (.ok v) ∧ getUint64 (b.drop off) = some v := by
  obtain ⟨v, hv⟩ := @getUint64_isSome (b.drop off) (by rw [List.length_drop]; omega)
  have hall : (b.drop off).take (b.length - off) = b.drop off := List.take_of_length_le (by simp)
  refine ⟨v, ?_, hv⟩
  rw [uint64, slice_eq (by omega) (Nat.le_refl _), Go.ok_bind, hall, hv]
  rfl

theorem uint32_eq (h : off + 4 ≤ b.length) :
    ∃ v, uint32 b off = Go.returned (.ok v) ∧ getUint32 (b.drop off) = some v := by
  obtain ⟨v, hv⟩ := @getUint32_isSome (b.drop off) (by rw [List.length_drop]; omega)
  have hall : (b.drop off).take (b.length - off) = b.drop off := List.take_of_length_le (by simp)
  refine ⟨v, ?_, hv⟩
  rw [uint32, slice_eq (by omega) (Nat.le_refl _), Go.ok_bind, hall, hv]
  rfl

theorem array_eq {n : Nat} (h : off + n ≤ b.length) :
    array n b off = Go.returned (.ok (.copyFrom ((b.drop off).take n))) := by
  rw [array, slice_eq (by omega) h, Go.ok_bind, Nat.add_sub_cancel_left]
  rfl

theorem text_eq {n : UInt32} (h : off + n.toNat ≤ b.length) :
    text b off n = Go.returned (.ok (.ofTake n (b.drop off))) := by
  have htake : GoString.ofTake n ((b.drop off).take n.toNat) = .ofTake n (b.drop off) :=
    GoString.ext (by simp [GoString.ofTake])
  rw [text, slice_eq (by omega) h, Go.ok_bind, Nat.add_sub_cancel_left, htake]
  rfl

theorem uint64_read (h : off + 8 ≤ b.length) :
    ∃ v, uint64 b off = Go.returned (.ok v) ∧ readUint64 (b.drop off) = .ok v := by
  obtain ⟨v, hv, hget⟩ := uint64_eq h
  exact ⟨v, hv, by rw [readUint64, hget]; rfl⟩

theorem uint32_read (h : off + 4 ≤ b.length) :
    ∃ v, uint32 b off = Go.returned (.ok v) ∧ readUint32 (b.drop off) = .ok v := by
  obtain ⟨v, hv, hget⟩ := uint32_eq h
  exact ⟨v, hv, by rw [readUint32, hget]; rfl⟩

theorem decodeName_eq : decodeName b off = Go.returned (Drana.decodeName (b.drop off)) := by
  rw [decodeName, Drana.decodeName, List.length_drop]
  by_cases hlen : b.length > off + 4
  · obtain ⟨n, hn, hread⟩ := @uint32_read b off (by omega)
    rw [if_pos hlen, if_pos (by omega), hn, hread, Go.ok_bind]
    simp only [Except.ok_bind, List.drop_drop, List.length_drop]
    by_cases hname : b.length ≥ off + 4 + n.toNat
    · rw [if_pos hname, if_pos (by omega), text_eq hname]
      rfl
    · rw [if_neg hname, if_neg (by omega)]
      rfl
  · rw [if_neg hlen, if_neg (by omega)]
    rfl

theorem decodeAccount_eq : decodeAccount b = Go.returned (Drana.decodeAccount b) := by
  rw [decodeAccount, Drana.decodeAccount]
  by_cases hlen : b.length < 24 + 8 + 8
  · rw [if_pos hlen, throwIf, if_pos hlen]
    rfl
  · obtain ⟨balance, hb, hb'⟩ := @uint64_read b 24 (by omega)
    obtain ⟨nonce, hn, hn'⟩ := @uint64_read b 32 (by omega)
    rw [if_neg hlen, throwIf, if_neg hlen, array_eq (by omega)]
    simp only [Go.ok_bind, hb, hn, Except.ok_bind, List.drop_drop, List.drop_zero, hb', Nat.reduceAdd, hn',
      List.length_drop]
    by_cases h48 : b.length > 48
    · obtain ⟨staked, hs, hs'⟩ := @uint64_read b 40 (by omega)
      rw [if_pos h48, if_pos (by omega), hs, hs', Go.ok_bind, Except.ok_bind]
      by_cases h56 : b.length > 56
      · obtain ⟨postStake, hp, hp'⟩ := @uint64_read b 48 (by omega)
        rw [if_pos h56, if_pos (by omega), hp, hp', Go.ok_bind, Except.ok_bind, decodeName_eq]
        exact Go.returned_bind
      · rw [if_neg h56, if_neg (by omega)]
        rfl
    · rw [if_neg h48, if_neg (by omega)]
      rfl

theorem decodePostEnd_eq : decodePostEnd b off = Go.returned (Drana.decodePostEnd (b.drop off)) := by
  rw [decodePostEnd, Drana.decodePostEnd, List.length_drop]
  by_cases hlen : b.length ≥ off + 4
  · obtain ⟨n, hn, hread⟩ := uint32_read hlen
    rw [if_pos hlen, if_pos (by omega), hn, hread, Go.ok_bind]
    simp only [Except.ok_bind, List.drop_drop, List.length_drop]
    by_cases hchan : b.length ≥ off + 4 + n.toNat
    · simp only [if_pos hchan, if_pos (show b.length - (off + 4) ≥ n.toNat by omega), text_eq hchan, Go.ok_bind,
        List.length_drop]
      by_cases hparent : b.length ≥ off + 4 + n.toNat + 32
      · rw [if_pos hparent, if_pos (by omega), array_eq hparent]
        rfl
      · rw [if_neg hparent, if_neg (by omega)]
        rfl
    · simp only [if_neg hchan, if_neg (show ¬ b.length - (off + 4) ≥ n.toNat by omega), Go.pure_eq, Go.ok_bind,
        List.length_drop]
      by_cases hparent : b.length ≥ off + 4 + 32
      · rw [if_pos hparent, if_pos (by omega), array_eq hparent]
        rfl
      · rw [if_neg hparent, if_neg (by omega)]
        rfl
  · rw [if_neg hlen, if_neg (by omega)]
    rfl

theorem decodePost_eq : decodePost b = Go.returned (Drana.decodePost b) := by
  rw [decodePost, Drana.decodePost]
  by_cases hlen : b.length < 32 + 24 + 8 + 8 + 8 + 8 + 8 + 1 + 4
  · rw [if_pos hlen, throwIf, if_pos hlen]
    rfl
  · obtain ⟨height, hh, hh'⟩ := @uint64_read b 56 (by omega)
    obtain ⟨time, ht, ht'⟩ := @uint64_read b 64 (by omega)
    obtain ⟨staked, hs, hs'⟩ := @uint64_read b 72 (by omega)
    obtain ⟨burned, hb, hb'⟩ := @uint64_read b 80 (by omega)
    obtain ⟨count, hc, hc'⟩ := @uint64_read b 88 (by omega)
    obtain ⟨n, hn, hn'⟩ := @uint32_read b 97 (by omega)
    have hflag : Go.index b 96 = Go.returned (.ok b[96]) := by
      rw [Go.index, List.getElem?_eq_getElem]
      rfl
    have hhead : (b.drop 96).head? = some b[96] := by
      rw [List.head?_drop, List.getElem?_eq_getElem]
    rw [if_neg hlen, throwIf, if_neg hlen, array_eq (by omega), array_eq (by omega)]
    simp only [Go.ok_bind, hh, ht, hs, hb, hc, if_pos (show b.length > 96 by omega), hflag, hn, Go.pure_eq,
      Except.ok_bind, List.drop_drop, List.drop_zero, hh', ht', hs', hb', hc', Nat.reduceAdd, hn', hhead,
      List.length_drop, Option.some.injEq]
    by_cases htext : b.length < 101 + n.toNat
    · rw [if_pos htext, throwIf, if_pos (by omega)]
      rfl
    · rw [if_neg htext, throwIf, if_neg (by omega), text_eq (by omega), decodePostEnd_eq]
      exact Go.returned_bind

theorem decodePostStake_eq : decodePostStake b = Go.returned (Drana.decodePostStake b) := by
  rw [decodePostStake, Drana.decodePostStake]
  by_cases hlen : b.length < 32 + 24 + 8 + 8
  · rw [if_pos hlen, throwIf, if_pos hlen]
    rfl
  · obtain ⟨amount, ha, ha'⟩ := @uint64_read b 56 (by omega)
    obtain ⟨height, hh, hh'⟩ := @uint64_read b 64 (by omega)
    rw [if_neg hlen, throwIf, if_neg hlen, array_eq (by omega), array_eq (by omega)]
    simp only [Go.ok_bind, ha, hh, Except.ok_bind, List.drop_drop, List.drop_zero, ha', hh', Nat.reduceAdd]
    rfl

/-- The loop stays inside the bytes if an entry does. -/
theorem decodeEntries_eq {α : Type} {entrySize : Nat} {entry : List UInt8 → Nat → Go α} {decode : List UInt8 → α}
    (hpos : 0 < entrySize)
    (hentry : ∀ off, off + entrySize ≤ b.length → entry b off = Go.returned (.ok (decode (b.drop off)))) (count : Nat) :
    decodeEntries entrySize entry b count off =
      Go.returned (.ok (Drana.decodeEntries entrySize decode count (b.drop off))) := by
  induction count generalizing off with
  | zero => rfl
  | succ count ih =>
    rw [decodeEntries, Drana.decodeEntries, List.length_drop]
    by_cases hfits : off + entrySize ≤ b.length
    · rw [if_pos hfits, hentry off hfits, Go.ok_bind, ih, Go.ok_bind, List.drop_drop]
      split
      · rfl
      · omega
    · rw [if_neg hfits, if_neg (by omega)]
      rfl

theorem decodeList_eq {α : Type} {entrySize : Nat} {entry : List UInt8 → Nat → Go α} {decode : List UInt8 → α}
    (hpos : 0 < entrySize)
    (hentry : ∀ off, off + entrySize ≤ b.length → entry b off = Go.returned (.ok (decode (b.drop off)))) :
    decodeList entrySize entry b = Go.returned (.ok (Drana.decodeList entrySize decode b)) := by
  rw [decodeList, Drana.decodeList]
  by_cases hlen : b.length < 4
  · have hnone : getUint32 b = none := by
      rcases b with _ | ⟨_, _ | ⟨_, _ | ⟨_, _ | ⟨_, _⟩⟩⟩⟩
      all_goals first | rfl | (simp at hlen; omega)
    rw [if_pos hlen, hnone]
    rfl
  · obtain ⟨count, hc, hget⟩ := @uint32_eq b 0 (by omega)
    rw [List.drop_zero] at hget
    rw [if_neg hlen, hc, Go.ok_bind, hget]
    exact decodeEntries_eq hpos hentry count.toNat

theorem decodeValidatorSet_eq : decodeValidatorSet b = Go.returned (.ok (Drana.decodeValidatorSet b)) := by
  refine decodeList_eq (by decide) fun off hoff => ?_
  obtain ⟨stake, hs, hget⟩ := @uint64_eq b (off + 24 + 32) (by omega)
  have hget : getUint64 ((b.drop off).drop 56) = some stake := by
    rw [List.drop_drop]
    exact hget
  rw [decodeValidator, array_eq (by omega), array_eq (by omega), Drana.decodeValidator, hget]
  simp only [Go.ok_bind, hs, List.drop_drop]
  rfl

theorem decodeUnbondingQueue_eq : decodeUnbondingQueue b = Go.returned (.ok (Drana.decodeUnbondingQueue b)) := by
  refine decodeList_eq (by decide) fun off hoff => ?_
  obtain ⟨amount, ha, hget⟩ := @uint64_eq b (off + 24) (by omega)
  obtain ⟨height, hh, hget'⟩ := @uint64_eq b (off + 24 + 8) (by omega)
  have hget' : getUint64 ((b.drop off).drop 32) = some height := by
    rw [List.drop_drop]
    exact hget'
  rw [decodeUnbonding, array_eq (by omega), Drana.decodeUnbonding, List.drop_drop, hget, hget']
  simp only [Go.ok_bind, ha, hh]
  rfl

end

end Checked

/-- **Records.** What was encoded decodes to itself, and any other bytes decode to something or to an error. -/
theorem records_decode :
    (∀ a : Account, a.name.length < 2 ^ 32 → Checked.decodeAccount (encodeAccount a) = Go.returned (.ok a)) ∧
    (∀ p : Post, p.text.length < 2 ^ 32 → p.channel.length < 2 ^ 32 →
      Checked.decodePost (encodePost p) = Go.returned (.ok p)) ∧
    (∀ vs : List ValidatorStake, vs.length < 2 ^ 32 →
      Checked.decodeValidatorSet (encodeValidatorSet vs) = Go.returned (.ok vs)) ∧
    (∀ entries : List UnbondingEntry, entries.length < 2 ^ 32 →
      Checked.decodeUnbondingQueue (encodeUnbondingQueue entries) = Go.returned (.ok entries)) ∧
    (∀ ps : PostStake, Checked.decodePostStake (encodePostStake ps) = Go.returned (.ok ps)) ∧
    ∀ b : List UInt8, (Checked.decodeAccount b).Returns ∧ (Checked.decodePost b).Returns ∧
      (Checked.decodeValidatorSet b).Returns ∧ (Checked.decodeUnbondingQueue b).Returns ∧
      (Checked.decodePostStake b).Returns := by
  refine ⟨fun a h => ?_, fun p ht hc => ?_, fun vs h => ?_, fun entries h => ?_, fun ps => ?_, fun b => ?_⟩
  · rw [Checked.decodeAccount_eq, decodeAccount_encode h]
  · rw [Checked.decodePost_eq, decodePost_encode ht hc]
  · rw [Checked.decodeValidatorSet_eq, decodeValidatorSet_encode h]
  · rw [Checked.decodeUnbondingQueue_eq, decodeUnbondingQueue_encode h]
  · rw [Checked.decodePostStake_eq, decodePostStake_encode]
  · exact ⟨⟨_, Checked.decodeAccount_eq⟩, ⟨_, Checked.decodePost_eq⟩, ⟨_, Checked.decodeValidatorSet_eq⟩,
      ⟨_, Checked.decodeUnbondingQueue_eq⟩, ⟨_, Checked.decodePostStake_eq⟩⟩

section

open Sample

def Sample.called : Account := { address := address 1, balance := 7, nonce := 2, name := bob, stakedBalance := 5 }

/-- A post with a text and without a channel. -/
def Sample.told : Post where
  postID := firstPost
  author := address 1
  text := bob
  channel := .empty
  parentPostID := .zero
  createdAtHeight := 1
  createdAtTime := -1
  totalStaked := 100
  totalBurned := 6
  stakerCount := 1

def Sample.pair : List ValidatorStake := [⟨address 1, (key 1).publicKey, 100⟩, ⟨address 2, .zero, 60⟩]

def Sample.owed : List UnbondingEntry := [⟨address 1, 5, 12⟩, ⟨address 1, 7, 14⟩]

/-- Records with a name, a text, a time below zero and two entries; and a post cut short. -/
theorem records_decode_filled :
    Checked.decodeAccount (encodeAccount called) = Go.returned (.ok called) ∧
    Checked.decodePost (encodePost told) = Go.returned (.ok told) ∧
    Checked.decodeValidatorSet (encodeValidatorSet pair) = Go.returned (.ok pair) ∧
    Checked.decodeUnbondingQueue (encodeUnbondingQueue owed) = Go.returned (.ok owed) ∧
    (Checked.decodePost ((encodePost told).take 100)).Returns := by
  obtain ⟨haccount, hpost, hset, hqueue, -, hsafe⟩ := records_decode
  refine ⟨haccount called (by decide), hpost told (by decide) (by decide), hset pair (by decide), hqueue owed (by decide),
    ?_⟩
  exact (hsafe ((encodePost told).take 100)).2.1

end

end Drana
