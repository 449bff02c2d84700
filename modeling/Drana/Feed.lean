/-
The feed of a node (`handleListPosts` of `internal/rpc/server.go`) and the
trending feed of the indexer (`trendingQuery` of `internal/indexer/ranking.go`):
both cut a page out of a sorted list, with bounds computed in machine integers.
-/
import Drana.Lib.Panic
import Drana.Lib.Pages
import Drana.Indexer
import Drana.Decoding

namespace Drana

open Except (wrapErr)

/-! ## Numbers in a query -/

/-- The errors of `strconv`. -/
inductive NumError
  | errSyntax
  | errRange

/-- The loop of `strconv.ParseUint(s, 10, 64)`, which stops at the first digit too many. -/
def parseDigits (n : Nat) : List UInt8 → Except NumError Nat
  | [] => .ok n
  | c :: cs =>
    if 48 ≤ c ∧ c ≤ 57 then
      if 2 ^ 64 ≤ 10 * n + (c.toNat - 48) then .error .errRange else parseDigits (10 * n + (c.toNat - 48)) cs
    else .error .errSyntax

/-- A sign and the bytes after it. -/
def splitSign : List UInt8 → Bool × List UInt8
  | 45 :: cs => (true, cs)
  | 43 :: cs => (false, cs)
  | cs => (false, cs)

/-- `strconv.Atoi` where the error is dropped: zero for what is no number, the last number there is for one too large. -/
def atoi (s : GoString) : Int64 :=
  let (neg, cs) := splitSign s.bytes
  if cs = [] then 0
  else
    match parseDigits 0 cs with
    | .error .errSyntax => 0
    | .error .errRange => if neg then Int64.minValue else Int64.maxValue
    | .ok un =>
      if neg then if 2 ^ 63 < un then Int64.minValue else Int64.ofInt (-un)
      else if 2 ^ 63 ≤ un then Int64.maxValue else Int64.ofNat un

/-- `page`, in `handleListPosts` and in `pageParams`. -/
def pageParam (s : GoString) : Int64 :=
  let page := atoi s
  if page < 1 then 1 else page

/-- `pageSize`, in `handleListPosts` and in `pageParams`. -/
def pageSizeParam (s : GoString) : Int64 :=
  let pageSize := atoi s
  if pageSize < 1 ∨ pageSize > 100 then 20 else pageSize

/-! ## Pages -/

/-- `start` and `end`, where the page is not past the end. -/
def pageBounds (page pageSize totalCount : Int64) : Option (Int64 × Int64) :=
  let start := (page - 1) * pageSize
  if start ≥ totalCount then none
  else
    let last := start + pageSize
    some (start, if last > totalCount then totalCount else last)

/-- What slicing asks of the bounds, `0 ≤ start ≤ end ≤ length`. -/
def InBounds (page pageSize totalCount : Int64) : Prop :=
  ∀ b ∈ pageBounds page pageSize totalCount, 0 ≤ b.1 ∧ b.1 ≤ b.2 ∧ b.2 ≤ totalCount

/-- `l[start:end]`, or nothing where the page is past the end. -/
def cutPage {α : Type} (l : List α) (page pageSize : Int64) : Go (List α) :=
  match pageBounds page pageSize (Int64.ofNat l.length) with
  | none => return []
  | some (start, last) =>
    if 0 ≤ start ∧ start ≤ last ∧ last ≤ Int64.ofNat l.length then
      return (l.drop start.toNatClampNeg).take (last.toNatClampNeg - start.toNatClampNeg)
    else Go.panic .indexOutOfRange

/-! ## The feed of a node -/

structure PostResponse where
  postID : String
  author : String
  text : String
  channel : String := ""
  parentPostID : String := ""
  createdAtHeight : UInt64
  createdAtTime : Int64
  totalStaked : UInt64
  totalBurned : UInt64
  stakerCount : UInt64
  withdrawn : Bool := false

def postToResponse (p : Post) : PostResponse where
  postID := hexEncode p.postID.toList
  author := addrString p.author
  text := jsonText p.text
  channel := jsonText p.channel
  parentPostID := if p.parentPostID ≠ .zero then hexEncode p.parentPostID.toList else ""
  createdAtHeight := p.createdAtHeight
  createdAtTime := p.createdAtTime
  totalStaked := p.totalStaked
  totalBurned := p.totalBurned
  stakerCount := p.stakerCount
  withdrawn := p.withdrawn

structure PostListResponse where
  posts : List PostResponse
  totalCount : Nat
  page : Int64
  pageSize : Int64

/-- The filters of a request. The author is a text: bytes that are none are no address. -/
structure PostFilter where
  author : String := ""
  channel : GoString := .empty
  includeReplies : Bool := false

/-- `sort.Slice` by creation height, the highest first. It is not stable, but swaps nothing that is in order. -/
structure HeightSort where
  sort : List Post → List Post
  perm : ∀ l, (sort l).Perm l
  sorted : ∀ l, (sort l).Pairwise fun p p' => p'.createdAtHeight ≤ p.createdAtHeight
  keeps : ∀ l, (l.Pairwise fun p p' => p'.createdAtHeight ≤ p.createdAtHeight) → sort l = l

/-- The author that is asked for, where one is. -/
def authorFilter (E : Env) (f : PostFilter) : Except String (Option Address) :=
  if f.author = "" then .ok none
  else do return some (← wrapErr ("invalid author address: " ++ ·) (parseAddress E f.author))

/-- A post that the loop does not skip, with the author it reads. -/
def wanted (f : PostFilter) (author : Option Address) (p : Post) : Bool :=
  (f.includeReplies || p.parentPostID = .zero) && (author = none || author = some p.author) &&
    (f.channel = .empty || p.channel = f.channel)

/-- The loop over the posts. It reads the author for each post that is no skipped reply. -/
def filterPosts (E : Env) (f : PostFilter) : List Post → Except String (List Post)
  | [] => .ok []
  | p :: ps =>
    if !f.includeReplies && p.parentPostID ≠ .zero then filterPosts E f ps
    else do
      let author ← authorFilter E f
      let rest ← filterPosts E f ps
      return if wanted f author p then p :: rest else rest

/-- `handleListPosts`, after its page numbers are read. -/
def listPosts (E : Env) (s : HeightSort) (ord : RangeOrder) (ws : WorldState) (f : PostFilter) (page pageSize : Int64) :
    Go PostListResponse := do
  let filtered ← Go.returned (filterPosts E f (ws.allPosts ord))
  let filtered := s.sort filtered
  let posts ← cutPage filtered page pageSize
  return ⟨posts.map postToResponse, filtered.length, page, pageSize⟩

def handleListPosts (E : Env) (s : HeightSort) (ord : RangeOrder) (ws : WorldState) (f : PostFilter)
    (page pageSize : GoString) : Go PostListResponse :=
  listPosts E s ord ws f (pageParam page) (pageSizeParam pageSize)

/-! ## The trending feed -/

/-- One step of the insertion sort: the new post moves before those at the end that score less. -/
def insertScored {S : Type} (greater : S → S → Bool) (all : List (IndexedPost × S)) (p : IndexedPost × S) :
    List (IndexedPost × S) :=
  all.rdropWhile (fun q => greater p.2 q.2) ++ p :: all.rtakeWhile (fun q => greater p.2 q.2)

/-- `trendingQuery` over the rows of its query. A score is a float, whose comparison is a parameter. -/
def trendingQuery {S : Type} (greater : S → S → Bool) (score : IndexedPost → S) (rows : List IndexedPost)
    (page pageSize : GoString) : Go (List (IndexedPost × S)) :=
  let all := (rows.map fun p => (p, score p)).foldl (insertScored greater) []
  cutPage all (pageParam page) (pageSizeParam pageSize)

/-! ## Bounds -/

theorem pageParam_pos (s : GoString) : 1 ≤ (pageParam s).toInt := by
  simp only [pageParam]
  split
  · decide
  · next h => simpa using Int64.le_iff_toInt_le.mp (Int64.not_lt.mp h)

theorem pageSizeParam_range (s : GoString) : 1 ≤ (pageSizeParam s).toInt ∧ (pageSizeParam s).toInt ≤ 100 := by
  simp only [pageSizeParam]
  split
  · decide
  · next h =>
    rw [not_or] at h
    exact ⟨Int64.le_iff_toInt_le.mp (Int64.not_lt.mp h.1), Int64.le_iff_toInt_le.mp (Int64.not_lt.mp h.2)⟩

variable {page pageSize : Int64} {n : Nat}

theorem toInt_ofNat_of_lt (h : 8 * n < 2 ^ 63) : (Int64.ofNat n).toInt = n := by
  rw [Int64.toInt_ofNat', show Int64.size = 2 ^ 64 from rfl, Int.bmod_def]
  split <;> omega

theorem inBounds_iff (hp : 1 ≤ page.toInt) (hs : 1 ≤ pageSize.toInt ∧ pageSize.toInt ≤ 100) (hn : 8 * n < 2 ^ 63) :
    InBounds page pageSize (Int64.ofNat n) ↔ (page.toInt - 1) * pageSize.toInt % 2 ^ 64 < 2 ^ 63 := by
  have hcount := toInt_ofNat_of_lt hn
  have hlt := page.toInt_lt
  have hprev : (page - 1).toInt = page.toInt - 1 := by
    rw [Int64.toInt_sub, show (1 : Int64).toInt = 1 from rfl, Int.bmod_def]
    split <;> omega
  have hstart : ((page - 1) * pageSize).toInt = ((page.toInt - 1) * pageSize.toInt).bmod (2 ^ 64) := by
    rw [Int64.toInt_mul, hprev]
  have hlast : ((page - 1) * pageSize + pageSize).toInt =
      (((page - 1) * pageSize).toInt + pageSize.toInt).bmod (2 ^ 64) := Int64.toInt_add _ _
  obtain ⟨start, hst⟩ : ∃ start, start = (page - 1) * pageSize := ⟨_, rfl⟩
  obtain ⟨prod, hprod⟩ : ∃ prod, prod = (page.toInt - 1) * pageSize.toInt := ⟨_, rfl⟩
  rw [← hst] at hstart hlast
  rw [← hprod] at hstart ⊢
  rw [Int.bmod_def] at hstart
  rw [InBounds, pageBounds, ← hst]
  by_cases hpast : start ≥ Int64.ofNat n
  · rw [if_pos hpast]
    have hpast := Int64.le_iff_toInt_le.mp hpast
    simp only [Option.mem_def, reduceCtorEq, false_implies, implies_true, true_iff]
    split at hstart <;> omega
  · rw [if_neg hpast]
    have hbefore := Int64.lt_iff_toInt_lt.mp (Int64.not_le.mp hpast)
    simp only [Option.mem_def, Option.some.injEq, forall_eq']
    rw [Int64.le_iff_toInt_le, show (0 : Int64).toInt = 0 from rfl]
    constructor
    · rintro ⟨h, -⟩
      split at hstart <;> omega
    · intro h
      rw [if_pos (by omega)] at hstart
      have hlast : (start + pageSize).toInt = start.toInt + pageSize.toInt := by
        rw [hlast, Int.bmod_def]
        split <;> omega
      refine ⟨by omega, ?_, ?_⟩
      · rw [Int64.le_iff_toInt_le]
        split <;> omega
      · rw [Int64.le_iff_toInt_le]
        split
        · omega
        · next hle =>
          exact Int64.le_iff_toInt_le.mp (Int64.not_lt.mp hle)

section

variable {α : Type} {l : List α}

theorem cutPage_returns_iff : (cutPage l page pageSize).Returns ↔ InBounds page pageSize (Int64.ofNat l.length) := by
  rw [cutPage, InBounds]
  cases pageBounds page pageSize (Int64.ofNat l.length) with
  | none => exact iff_of_true Go.pure_returns fun b hb => by cases hb
  | some b =>
    obtain ⟨start, last⟩ := b
    simp only [Option.mem_def, Option.some.injEq, forall_eq']
    split
    · next h => exact iff_of_true Go.pure_returns h
    · next h => exact iff_of_false Go.not_panic_returns h

/-- A page that is not past the end, where nothing wraps. -/
theorem cutPage_eq {k z : Nat} (hp : page.toInt = k + 1) (hs : pageSize.toInt = z) (hz : 1 ≤ z ∧ z ≤ 100)
    (hn : 8 * l.length < 2 ^ 63) (hk : k * z < l.length) :
    cutPage l page pageSize = Go.returned (.ok (Pages.page z k l)) := by
  have hcount := toInt_ofNat_of_lt hn
  have hprev : (page - 1).toInt = k := by
    have hlt := page.toInt_lt
    rw [Int64.toInt_sub, show (1 : Int64).toInt = 1 from rfl, Int.bmod_def]
    split <;> omega
  have hprod : (k : Int) * z = (k * z : Nat) := by simp
  have hstart : ((page - 1) * pageSize).toInt = (k * z : Nat) := by
    rw [Int64.toInt_mul, hprev, hs, hprod, Int.bmod_def]
    split <;> omega
  have hlast : ((page - 1) * pageSize + pageSize).toInt = (k * z + z : Nat) := by
    rw [Int64.toInt_add, hstart, hs, Int.bmod_def]
    split <;> omega
  rw [cutPage, pageBounds, if_neg (by rw [ge_iff_le, Int64.le_iff_toInt_le]; omega)]
  dsimp only
  split
  · next hpast =>
    have hpast := Int64.lt_iff_toInt_lt.mp hpast
    rw [if_pos]
    · have hlen : Int.toNat (l.length : Int) - Int.toNat ((k * z : Nat) : Int) = l.length - k * z := rfl
      rw [Int64.toNatClampNeg, Int64.toNatClampNeg, hstart, hcount, hlen, Int.toNat_natCast, Pages.page,
        List.take_of_length_le (by simp), List.take_of_length_le (by rw [List.length_drop]; omega)]
      rfl
    · simp only [Int64.le_iff_toInt_le, show (0 : Int64).toInt = 0 from rfl]
      omega
  · next hin =>
    have hin := Int64.le_iff_toInt_le.mp (Int64.not_lt.mp hin)
    rw [if_pos]
    · rw [Int64.toNatClampNeg, Int64.toNatClampNeg, hstart, hlast, Int.toNat_natCast, Int.toNat_natCast,
        Nat.add_sub_cancel_left]
      rfl
    · simp only [Int64.le_iff_toInt_le, show (0 : Int64).toInt = 0 from rfl]
      omega

end

theorem length_insertScored {S : Type} {greater : S → S → Bool} (rows all : List (IndexedPost × S)) :
    (rows.foldl (insertScored greater) all).length = all.length + rows.length := by
  induction rows generalizing all with
  | nil => rfl
  | cons p rows ih =>
    have hone : (insertScored greater all p).length = all.length + 1 := by
      have hsplit := congrArg List.length (@List.rdropWhile_append_rtakeWhile _ (fun q => greater p.2 q.2) all)
      rw [List.length_append] at hsplit
      rw [insertScored, List.length_append, List.length_cons]
      omega
    rw [List.foldl_cons, ih, hone, List.length_cons]
    omega

section

variable {E : Env} {s : HeightSort} {ord : RangeOrder} {ws : WorldState} {f : PostFilter} {l : List Post}

theorem listPosts_eq (hl : filterPosts E f (ws.allPosts ord) = .ok l) :
    listPosts E s ord ws f page pageSize = (cutPage (s.sort l) page pageSize >>= fun posts =>
      Go.returned (.ok ⟨posts.map postToResponse, l.length, page, pageSize⟩)) := by
  rw [listPosts, hl, Go.ok_bind, ← (s.perm l).length_eq]
  rfl

theorem listPosts_returns_iff (hl : filterPosts E f (ws.allPosts ord) = .ok l) :
    (listPosts E s ord ws f page pageSize).Returns ↔ InBounds page pageSize (Int64.ofNat l.length) := by
  rw [listPosts_eq hl, ← (s.perm l).length_eq, ← cutPage_returns_iff]
  constructor
  · intro h
    rcases hcut : (cutPage (s.sort l) page pageSize).run with p | r
    · have hpanic : cutPage (s.sort l) page pageSize = Go.panic p := hcut
      rw [hpanic, Go.panic_bind] at h
      exact absurd h Go.not_panic_returns
    · exact ⟨r, hcut⟩
  · exact fun h => h.bind fun _ => Go.returned_returns

end

/-- **No page panics** unless the product of page and size wraps to a negative number. A slice of pointers takes eight
bytes an element, of no more bytes than an `int` counts. -/
theorem page_in_bounds_iff (page pageSize : GoString) :
    (∀ n, 8 * n < 2 ^ 63 → (InBounds (pageParam page) (pageSizeParam pageSize) (Int64.ofNat n) ↔
      ((pageParam page).toInt - 1) * (pageSizeParam pageSize).toInt % 2 ^ 64 < 2 ^ 63)) ∧
    (∀ E s ord ws f l, filterPosts E f (ws.allPosts ord) = .ok l → 8 * l.length < 2 ^ 63 →
      ((handleListPosts E s ord ws f page pageSize).Returns ↔
        ((pageParam page).toInt - 1) * (pageSizeParam pageSize).toInt % 2 ^ 64 < 2 ^ 63)) ∧
    ∀ (S : Type) (greater : S → S → Bool) score rows, 8 * rows.length < 2 ^ 63 →
      ((trendingQuery greater score rows page pageSize).Returns ↔
        ((pageParam page).toInt - 1) * (pageSizeParam pageSize).toInt % 2 ^ 64 < 2 ^ 63) := by
  have hbounds {n : Nat} (hn : 8 * n < 2 ^ 63) :=
    inBounds_iff (pageParam_pos page) (pageSizeParam_range pageSize) hn
  refine ⟨fun n hn => hbounds hn, fun E s ord ws f l hl hn => ?_, fun S greater score rows hn => ?_⟩
  · rw [handleListPosts, listPosts_returns_iff hl]
    exact hbounds hn
  · rw [trendingQuery, cutPage_returns_iff, length_insertScored]
    simp only [List.length_nil, Nat.zero_add, List.length_map]
    exact hbounds hn

namespace Sample

/-- A number too large to parse. -/
def hugePage : GoString := ⟨List.replicate 20 57, by decide⟩

/-- Insertion sort, which is stable. -/
def heightSort : HeightSort where
  sort l := l.insertionSort fun p p' => p'.createdAtHeight ≤ p.createdAtHeight
  perm l := List.perm_insertionSort _ l
  sorted l := by
    have : Std.Total fun p p' : Post => p'.createdAtHeight ≤ p.createdAtHeight := ⟨fun p p' => UInt64.le_total _ _⟩
    have : IsTrans Post fun p p' => p'.createdAtHeight ≤ p.createdAtHeight := ⟨fun _ _ _ h h' => UInt64.le_trans h' h⟩
    exact List.pairwise_insertionSort _ l
  keeps l hl := List.Pairwise.insertionSort_eq hl

end Sample

/-- A page that is too large to parse is the last one, whose start wraps to 40 below zero. -/
theorem huge_page_panics :
    pageBounds (pageParam Sample.hugePage) (pageSizeParam .empty) 0 = some (-40, -20) ∧
    ¬ (handleListPosts Sample.env Sample.heightSort Sample.order Sample.genesis {} Sample.hugePage .empty).Returns ∧
    ¬ (trendingQuery (fun x y : Nat => x > y) (fun _ => 0) [] Sample.hugePage .empty).Returns := by
  have hwraps : pageBounds (pageParam Sample.hugePage) (pageSizeParam .empty) 0 = some (-40, -20) := by decide +kernel
  have hbounds : ¬ InBounds (pageParam Sample.hugePage) (pageSizeParam .empty) (Int64.ofNat 0) := by
    intro h
    obtain ⟨hlo, -⟩ := h _ hwraps
    revert hlo
    decide
  refine ⟨hwraps, fun h => hbounds ?_, fun h => hbounds ?_⟩
  · have hnone : filterPosts Sample.env {} (Sample.genesis.allPosts Sample.order) = .ok [] := by
      rw [show Sample.genesis.allPosts Sample.order = [] by decide +kernel]
      rfl
    exact (listPosts_returns_iff hnone).mp h
  · have h : (cutPage ([] : List (IndexedPost × Nat)) (pageParam Sample.hugePage) (pageSizeParam .empty)).Returns := h
    exact cutPage_returns_iff.mp h

namespace Sample

/-- Three posts, one in a block. -/
def threePosts : WorldState :=
  (applyBlocks env .go config genesis
    [block 1 [createPost 1 100 1], block 2 [createPost 2 100 1], block 3 [createPost 3 100 1]]).value

/-- The query says 2. -/
def two : GoString := ⟨[50], by decide⟩

end Sample

/-- The second page of two, of three posts; and the second of a feed that has one. -/
theorem page_in_bounds_iff_later :
    (handleListPosts Sample.env Sample.heightSort Sample.order Sample.threePosts {} Sample.two Sample.two).Returns ∧
    (trendingQuery (fun x y : Nat => x > y) (fun _ => 0) [] Sample.two Sample.two).Returns := by
  have hlisted : ((filterPosts Sample.env {} (Sample.threePosts.allPosts Sample.order)).toOption.map List.length) =
      some 3 := by
    decide +kernel
  obtain ⟨l, hl, hlength⟩ := Option.map_eq_some_iff.mp hlisted
  have hl := Except.toOption_eq_some_iff.mp hl
  have hlater : ((pageParam Sample.two).toInt - 1) * (pageSizeParam Sample.two).toInt % 2 ^ 64 <
      2 ^ 63 := by decide +kernel
  constructor
  · exact ((page_in_bounds_iff Sample.two Sample.two).2.1 _ _ _ _ _ l hl (by rw [hlength]; decide)).mpr hlater
  · exact ((page_in_bounds_iff Sample.two Sample.two).2.2 Nat _ _ [] (by decide)).mpr hlater

/-! ## Pages of the feed -/

section

variable {E : Env} {s : HeightSort} {ord ord' : RangeOrder} {ws : WorldState} {f : PostFilter} {author : Option Address}
  {l : List Post} {p p' : Post}

theorem filterPosts_eq (h : authorFilter E f = .ok author) (ps : List Post) :
    filterPosts E f ps = .ok (ps.filter (wanted f author)) := by
  induction ps with
  | nil => rfl
  | cons p ps ih =>
    rw [filterPosts, List.filter_cons]
    split
    · next hskip =>
      have hnot : wanted f author p = false := by
        have hskip : f.includeReplies = false ∧ p.parentPostID ≠ .zero := by simpa using hskip
        simp [wanted, hskip.1, hskip.2]
      rw [ih, hnot]
      rfl
    · rw [h, ih, Except.ok_bind, Except.ok_bind]
      split <;> rfl

theorem mem_allPosts : p ∈ ws.allPosts ord ↔ ∃ id, ws.getPost id = some p := by
  simp only [WorldState.allPosts, List.mem_map, Prod.exists, MapRange.mem_list, exists_eq_right]
  rfl

theorem allPosts_perm : (ws.allPosts ord).Perm (ws.allPosts ord') := (MapRange.perm ord.posts ord'.posts ws.posts).map _

theorem Keyed.post_inj (h : Keyed ws) (hp : p ∈ ws.allPosts ord) (hp' : p' ∈ ws.allPosts ord')
    (hid : p.postID = p'.postID) : p = p' := by
  obtain ⟨id, hg⟩ := mem_allPosts.mp hp
  obtain ⟨id', hg'⟩ := mem_allPosts.mp hp'
  have hsame : id = id' := by rw [← h.post id p hg, hid, h.post id' p' hg']
  rw [hsame, hg'] at hg
  exact (Option.some.inj hg).symm

theorem Keyed.nodup_allPosts (h : Keyed ws) : (ws.allPosts ord).Nodup := by
  refine List.Nodup.map_on (fun e he e' he' heq => ?_) MapRange.nodup_list
  have hid := h.post e.1 e.2 (MapRange.mem_list.mp he)
  have hid' := h.post e'.1 e'.2 (MapRange.mem_list.mp he')
  exact Prod.ext (by rw [← hid, heq, hid']) heq

/-- The posts that match. -/
def matching (ord : RangeOrder) (ws : WorldState) (f : PostFilter) (author : Option Address) : List Post :=
  (ws.allPosts ord).filter (wanted f author)

theorem length_matching : (matching ord ws f author).length = (matching ord' ws f author).length :=
  (allPosts_perm.filter _).length_eq

/-- The posts that match come in any order. -/
theorem exists_order (h : Keyed ws) {w : Post → Bool} (hl : l.Perm ((ws.allPosts ord).filter w)) :
    ∃ ord', (ws.allPosts ord').filter w = l := by
  obtain ⟨entries, hentries⟩ : ∃ entries, entries = ord.posts.list ws.posts := ⟨_, rfl⟩
  have hfilter : (ws.allPosts ord).filter w = (entries.filter fun e => w e.2).map (·.2) := by
    rw [WorldState.allPosts, hentries, List.filter_map]
    rfl
  have hsame : ((ws.allPosts ord).filter w).map (fun p => (p.postID, p)) = entries.filter fun e => w e.2 := by
    rw [hfilter, List.map_map]
    calc _ = (entries.filter fun e => w e.2).map id := List.map_congr_left fun e he => by
            have he := (List.mem_filter.mp he).1
            rw [hentries] at he
            exact Prod.ext (h.post e.1 e.2 (MapRange.mem_list.mp he)) rfl
      _ = _ := List.map_id _
  have hperm : (l.map (fun p => (p.postID, p)) ++ entries.filter fun e => !w e.2).Perm (ord.posts.list ws.posts) := by
    rw [← hentries]
    refine (((hl.map _).trans (List.Perm.of_eq hsame)).append_right _).trans ?_
    exact List.filter_append_perm _ _
  obtain ⟨r, hr⟩ := ord.posts.exists_list hperm
  refine ⟨{ ord with posts := r }, ?_⟩
  have hall : ∀ p ∈ l, w p = true := fun p hp => (List.mem_filter.mp (hl.mem_iff.mp hp)).2
  have hrest : ((entries.filter fun e => !w e.2).map (·.2)).filter w = [] := by
    refine List.filter_eq_nil_iff.mpr fun p hp => ?_
    obtain ⟨e, he, rfl⟩ := List.mem_map.mp hp
    simpa using (List.mem_filter.mp he).2
  have hback : (l.map fun p => (p.postID, p)).map (·.2) = l := by
    rw [List.map_map]
    exact List.map_id _
  rw [WorldState.allPosts, hr, List.map_append, List.filter_append, hrest, List.append_nil, hback]
  exact List.filter_eq_self.mpr hall

/-- The posts of a response, where there is one. -/
def servedPosts (x : Go PostListResponse) : List PostResponse :=
  match x.run with
  | .ok (.ok resp) => resp.posts
  | _ => []

/-- The pages from the first to the `m`-th, each of a request of its own. -/
def servedPages (E : Env) (s : HeightSort) (ords : Nat → RangeOrder) (ws : WorldState) (f : PostFilter) (pageSize : Int64)
    (m : Nat) : List PostResponse :=
  (List.range m).flatMap fun k => servedPosts (listPosts E s (ords k) ws f (Int64.ofNat (k + 1)) pageSize)

/-- How many pages there are, `ceil(n/size)`. -/
def pageCount (n size : Nat) : Nat := (n + size - 1) / size

/-- The highest block a post is from comes first. -/
def heightRank (p : Post) : Nat := p.createdAtHeight.toNat

theorem HeightSort.ranked : Pages.Ranked heightRank (matching ord ws f author) (s.sort (matching ord' ws f author)) where
  perm := (s.perm _).trans (allPosts_perm.filter _)
  sorted := (s.sorted _).imp UInt64.le_iff_toNat_le.mp

theorem served_page {pageSize : Int64} {k z : Nat} (hauthor : authorFilter E f = .ok author)
    (hs : pageSize.toInt = z) (hz : 1 ≤ z ∧ z ≤ 100) (hn : 8 * (matching ord ws f author).length < 2 ^ 63)
    (hk : k * z < (matching ord ws f author).length) :
    servedPosts (listPosts E s ord ws f (Int64.ofNat (k + 1)) pageSize) =
      (Pages.page z k (s.sort (matching ord ws f author))).map postToResponse := by
  have hlen : (s.sort (matching ord ws f author)).length = (matching ord ws f author).length := (s.perm _).length_eq
  have hkz : k ≤ k * z := Nat.le_mul_of_pos_right k hz.1
  have hp : (Int64.ofNat (k + 1)).toInt = k + 1 := by
    rw [toInt_ofNat_of_lt (by omega)]
    rfl
  have hcut : cutPage (s.sort (matching ord ws f author)) (Int64.ofNat (k + 1)) pageSize =
      Go.returned (.ok (Pages.page z k (s.sort (matching ord ws f author)))) :=
    cutPage_eq hp hs hz (by rw [hlen]; exact hn) (by rw [hlen]; exact hk)
  rw [listPosts_eq (filterPosts_eq hauthor _), ← matching, hcut, Go.ok_bind]
  rfl

/-- The pages, cut from the order of each request. -/
theorem servedPages_eq {ords : Nat → RangeOrder} {pageSize : Int64} {z : Nat} (hauthor : authorFilter E f = .ok author)
    (hs : pageSize.toInt = z) (hz : 1 ≤ z ∧ z ≤ 100) (hn : 8 * (matching ord ws f author).length < 2 ^ 63) :
    servedPages E s ords ws f pageSize (pageCount (matching ord ws f author).length z) =
      (Pages.pages z (pageCount (matching ord ws f author).length z)
        fun k => s.sort (matching (ords k) ws f author)).map postToResponse := by
  rw [servedPages, Pages.pages, List.map_flatMap]
  refine List.flatMap_congr fun k hk => ?_
  have hk : k < ((matching ord ws f author).length + z - 1) / z := List.mem_range.mp hk
  have hlast : (k + 1) * z ≤ (matching ord ws f author).length + z - 1 := (Nat.le_div_iff_mul_le hz.1).mp hk
  have hnext : (k + 1) * z = k * z + z := Nat.succ_mul k z
  have hsame : (matching ord ws f author).length = (matching (ords k) ws f author).length := length_matching
  rw [hsame] at hn hlast
  exact served_page hauthor hs hz hn (by omega)

/-- A post is known by its ID. -/
theorem Keyed.countP_map {ls : List Post} (h : Keyed ws) (hls : ∀ q ∈ ls, q ∈ ws.allPosts ord')
    (hp : p ∈ ws.allPosts ord) :
    (ls.map postToResponse).countP (·.postID = hexEncode p.postID.toList) = ls.count p := by
  rw [List.countP_map, List.count]
  refine List.countP_congr fun q hq => ?_
  simp only [Function.comp_apply, decide_eq_true_eq, beq_iff_eq]
  constructor
  · intro hid
    exact h.post_inj (hls q hq) hp (ByteArr.toList_inj (hexEncode_injective hid))
  · rintro rfl
    rfl

theorem mem_pages (ord : RangeOrder) {ords : Nat → RangeOrder} {size m : Nat} {q : Post}
    (hq : q ∈ Pages.pages size m fun k => s.sort (matching (ords k) ws f author)) : q ∈ ws.allPosts ord := by
  obtain ⟨k, -, hq⟩ := List.mem_flatMap.mp hq
  have hq := (s.perm _).mem_iff.mp (List.mem_of_mem_drop (List.mem_of_mem_take hq))
  exact allPosts_perm.mem_iff.mp (List.mem_filter.mp hq).1

end

/-- **The pages partition the feed**, whatever the order of each request, exactly where no posts of one height are on
two pages. -/
theorem pages_partition_iff {E : Env} (s : HeightSort) (ord : RangeOrder) {ws : WorldState} {f : PostFilter}
    {author : Option Address} {pageSize : Int64} (hk : Keyed ws) (hauthor : authorFilter E f = .ok author)
    (hsize : 1 ≤ pageSize.toInt ∧ pageSize.toInt ≤ 100) (hn : 8 * (matching ord ws f author).length < 2 ^ 63) :
    (∀ ords : Nat → RangeOrder, ∀ p ∈ matching ord ws f author,
      (servedPages E s ords ws f pageSize (pageCount (matching ord ws f author).length pageSize.toInt.toNat)).countP
        (·.postID = hexEncode p.postID.toList) = 1) ↔
      Pages.Unbroken heightRank pageSize.toInt.toNat (matching ord ws f author) := by
  obtain ⟨z, hs⟩ : ∃ z : Nat, pageSize.toInt = z := ⟨pageSize.toInt.toNat, by omega⟩
  have hz : 1 ≤ z ∧ z ≤ 100 := by omega
  rw [hs, Int.toNat_natCast]
  have hnodup : (matching ord ws f author).Nodup := hk.nodup_allPosts.filter _
  have hall : (matching ord ws f author).length ≤ pageCount (matching ord ws f author).length z * z := by
    have hmod := Nat.div_add_mod' ((matching ord ws f author).length + z - 1) z
    have hlt := Nat.mod_lt ((matching ord ws f author).length + z - 1) hz.1
    rw [pageCount]
    omega
  have hcount (ords : Nat → RangeOrder) (p : Post) (hp : p ∈ matching ord ws f author) :
      (servedPages E s ords ws f pageSize (pageCount (matching ord ws f author).length z)).countP
        (·.postID = hexEncode p.postID.toList) =
      (Pages.pages z (pageCount (matching ord ws f author).length z)
        fun k => s.sort (matching (ords k) ws f author)).count p := by
    rw [servedPages_eq hauthor hs hz hn, hk.countP_map (fun q hq => mem_pages ord hq) (List.mem_filter.mp hp).1]
  constructor
  · intro h
    by_contra hbroken
    have hsorted : Pages.Ranked heightRank (matching ord ws f author) (s.sort (matching ord ws f author)) :=
      HeightSort.ranked
    obtain ⟨ls, hls, p, hp, hne⟩ := Pages.exists_count_ne_one hz.1 hnodup hall hsorted hbroken
    -- An order of the map that is already sorted is the order of the page.
    have hords (k : Nat) : ∃ ord', matching ord' ws f author = ls k := exists_order hk (hls k).perm
    obtain ⟨ords, hords⟩ : ∃ ords : Nat → RangeOrder, ∀ k, matching (ords k) ws f author = ls k :=
      ⟨fun k => (hords k).choose, fun k => (hords k).choose_spec⟩
    have hkept (k : Nat) : s.sort (matching (ords k) ws f author) = ls k := by
      rw [hords]
      exact s.keeps _ ((hls k).sorted.imp UInt64.le_iff_toNat_le.mpr)
    have hone := h ords p hp
    rw [hcount ords p hp, funext hkept] at hone
    exact hne hone
  · intro h ords p hp
    rw [hcount ords p hp]
    exact Pages.count_pages hz.1 hnodup hall h (fun k => HeightSort.ranked) hp

namespace Sample

/-- Two posts of one block. -/
def twoPosts : WorldState :=
  (applyBlock env .go config (fun _ => order) genesis (block 1 [createPost 1 100 1, createPost 2 100 1]).2).value

/-- The first request ranges one way, the others the other way. -/
def turning (k : Nat) : RangeOrder := if k = 0 then order else { order with posts := order.posts.reversed }

theorem twoPosts_run :
    (applyBlock env .go config (fun _ => order) genesis
      (block 1 [createPost 1 100 1, createPost 2 100 1]).2).isOk = true ∧
    (matching order twoPosts {} none).length = 2 ∧
    (servedPages env heightSort turning twoPosts {} 1 (pageCount 2 1)).map (·.postID) =
      [hexEncode firstPost.toList, hexEncode firstPost.toList] := by decide +kernel

end Sample

/-- Two posts of one block on two pages: a reader of both pages sees one of them twice and never the other. -/
theorem twins_on_two_pages :
    (matching Sample.order Sample.twoPosts {} none).length = 2 ∧
    (servedPages Sample.env Sample.heightSort Sample.turning Sample.twoPosts {} 1 (pageCount 2 1)).map (·.postID) =
      [hexEncode Sample.firstPost.toList, hexEncode Sample.firstPost.toList] :=
  Sample.twoPosts_run.2

theorem Sample.threePosts_run :
    (applyBlocks Sample.env .go Sample.config Sample.genesis
      [block 1 [createPost 1 100 1], block 2 [createPost 2 100 1], block 3 [createPost 3 100 1]]).isOk = true ∧
    (matching order threePosts {} none).length = 3 ∧
    ∀ p ∈ matching order threePosts {} none, Pages.above heightRank (matching order threePosts {} none) p / 2 =
      (Pages.above heightRank (matching order threePosts {} none) p +
        Pages.peers heightRank (matching order threePosts {} none) p - 1) / 2 := by decide +kernel

/-- Two on the first page and one on the second. -/
theorem pages_partition_iff_three :
    pageCount (matching Sample.order Sample.threePosts {} none).length (2 : Int64).toInt.toNat = 2 ∧
    Pages.Unbroken heightRank (2 : Int64).toInt.toNat (matching Sample.order Sample.threePosts {} none) ∧
    ∀ ords : Nat → RangeOrder, ∀ p ∈ matching Sample.order Sample.threePosts {} none,
      (servedPages Sample.env Sample.heightSort ords Sample.threePosts {} 2
        (pageCount (matching Sample.order Sample.threePosts {} none).length (2 : Int64).toInt.toNat)).countP
        (·.postID = hexEncode p.postID.toList) = 1 := by
  obtain ⟨hok, hlength, hunbroken⟩ := Sample.threePosts_run
  have hunbroken : Pages.Unbroken heightRank (2 : Int64).toInt.toNat (matching Sample.order Sample.threePosts {} none) :=
    hunbroken
  have hkeyed : Keyed Sample.threePosts :=
    (keeps_writes.invariant .refl (Except.ok_value hok)).keyed (initializeState_fresh Sample.genesis_ok).1.keyed
  have hfew : 8 * (matching Sample.order Sample.threePosts {} none).length < 2 ^ 63 := by
    rw [hlength]
    decide
  refine ⟨by rw [hlength]; rfl, hunbroken, ?_⟩
  exact (pages_partition_iff Sample.heightSort Sample.order hkeyed rfl (by decide) hfew).mpr hunbroken

end Drana
