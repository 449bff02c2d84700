/-
The wallets of the web app (`drana-app/src/wallet/storage.ts` and
`WalletContext.tsx`): a list in `localStorage` that all tabs share, and in each tab
the wallet shown, its private key while it is unlocked, and the calls that wait for
a cipher or for the node. A call goes on with what it saw when it began, whatever
has happened since.

`localStorage` is read and written by one tab at a time. Balances and the cache of
names are shown only, and left out.
-/
import Drana.Lib.Keyed
import Drana.Wallet

namespace Drana

variable {E : Env}

/-! ## Storage -/

structure EncryptedKey where
  ciphertext : String
  salt : String
  iv : String
deriving DecidableEq

structure StoredWallet where
  address : String
  publicKey : String
  encryptedKey : EncryptedKey
  name : String
deriving DecidableEq

/-- What is under a name in `localStorage`: nothing, what is no JSON, or a value's JSON. -/
inductive Item (α : Type)
  | absent
  | corrupt
  | json (value : α)

structure LocalStorage where
  /-- `drana_wallets` -/
  wallets : Item (List StoredWallet) := .absent
  /-- `drana_active_wallet` -/
  active : Option String := none
  /-- `drana_wallet`, of the time of one wallet. -/
  legacy : Item StoredWallet := .absent

namespace LocalStorage

variable {s : LocalStorage} {w : StoredWallet} {a : String}

def migrate (s : LocalStorage) : LocalStorage :=
  match s.wallets, s.legacy with
  | .absent, .json wallet => { wallets := .json [wallet], active := some wallet.address, legacy := .absent }
  | _, _ => s

def loadAllWallets (s : LocalStorage) : LocalStorage × List StoredWallet :=
  let s := s.migrate
  (s, match s.wallets with
    | .json wallets => wallets
    | _ => [])

def loadActiveWallet (s : LocalStorage) : LocalStorage × Option StoredWallet :=
  let s := s.migrate
  match s.active with
  | none => (s, none)
  | some addr =>
    if addr = "" then (s, none)
    else
      let (s, wallets) := s.loadAllWallets
      (s, (wallets.find? (·.address = addr)).or wallets.head?)

def setActiveWallet (s : LocalStorage) (address : String) : LocalStorage := { s with active := some address }

/-- Read and written in one step. The code takes no lock: another tab may write in between. -/
def saveWallet (s : LocalStorage) (wallet : StoredWallet) : LocalStorage :=
  let (s, wallets) := s.loadAllWallets
  { s with wallets := .json (upsertBy StoredWallet.address wallets wallet), active := some wallet.address }

/-- In one step, as a save is. -/
def removeWallet (s : LocalStorage) (address : String) : LocalStorage :=
  let (s, wallets) := s.loadAllWallets
  let wallets := wallets.filter (·.address ≠ address)
  let s := { s with wallets := .json wallets }
  if s.active = some address then { s with active := wallets.head?.map (·.address) } else s

/-- The wallets there are. -/
def all (s : LocalStorage) : List StoredWallet := s.loadAllWallets.2

theorem migrate_wallets {wallets : List StoredWallet} (h : s.wallets = .json wallets) : s.migrate = s := by
  unfold migrate
  split
  · next habsent _ => cases h.symm.trans habsent
  · rfl

theorem migrate_migrate : s.migrate.migrate = s.migrate := by
  have hcases : s.migrate = s ∨ ∃ wallet, s.migrate = ⟨.json [wallet], some wallet.address, .absent⟩ := by
    unfold migrate
    split
    · exact .inr ⟨_, rfl⟩
    · exact .inl rfl
  rcases hcases with h | ⟨wallet, h⟩
  · rw [h, h]
  · rw [h]
    rfl

theorem all_wallets {wallets : List StoredWallet} (h : s.wallets = .json wallets) : s.all = wallets := by
  rw [all, loadAllWallets]
  simp only [migrate_wallets h, h]

theorem all_migrate : s.migrate.all = s.all := by
  rw [all, all, loadAllWallets, loadAllWallets]
  simp only [migrate_migrate]

theorem saveWallet_wallets : (s.saveWallet w).wallets = .json (upsertBy StoredWallet.address s.all w) := rfl

theorem all_saveWallet : (s.saveWallet w).all = upsertBy StoredWallet.address s.all w := all_wallets saveWallet_wallets

theorem removeWallet_wallets : (s.removeWallet a).wallets = .json (s.all.filter (·.address ≠ a)) := by
  unfold removeWallet
  dsimp only
  split <;> rfl

theorem removeWallet_active : (s.removeWallet a).active =
    if s.migrate.active = some a then (s.all.filter (·.address ≠ a)).head?.map (·.address) else s.migrate.active := by
  unfold removeWallet
  dsimp only
  split
  · next h => exact (if_pos h).symm
  · next h => exact (if_neg h).symm

theorem all_removeWallet : (s.removeWallet a).all = s.all.filter (·.address ≠ a) := all_wallets removeWallet_wallets

theorem all_setActiveWallet : (s.setActiveWallet a).all = s.all := by
  obtain ⟨wallets, active, legacy⟩ := s
  cases wallets <;> cases legacy <;> rfl

theorem migrate_active : s.migrate.active = s.active ∨ ∃ w ∈ s.all, s.migrate.active = some w.address := by
  obtain ⟨wallets, active, legacy⟩ := s
  cases wallets <;> cases legacy <;> first | exact .inl rfl | exact .inr ⟨_, List.mem_singleton_self _, rfl⟩

/-- What reloading shows: the active wallet, or else the first. -/
def shown (s : LocalStorage) : Option StoredWallet := s.loadActiveWallet.2

theorem mem_of_shown (h : w ∈ s.shown) : w ∈ s.all := by
  unfold shown loadActiveWallet at h
  dsimp only at h
  split at h
  · cases h
  · split at h
    · cases h
    · have hall : s.migrate.loadAllWallets.2 = s.all := all_migrate
      rw [hall] at h
      rcases Option.or_eq_some_iff.mp h with hfind | ⟨-, hhead⟩
      · exact List.mem_of_find?_eq_some hfind
      · exact List.mem_of_mem_head? hhead

/-- Each wallet is of some kind, there is one for an address, and one is active if there is any. -/
structure Tidy (P : StoredWallet → Prop) (s : LocalStorage) : Prop where
  wallets : ∀ w ∈ s.all, P w
  nodup : (s.all.map (·.address)).Nodup
  active : s.all ≠ [] → ∃ a, s.migrate.active = some a ∧ a ≠ ""

namespace Tidy

variable {P : StoredWallet → Prop}

theorem mono {P' : StoredWallet → Prop} (h : Tidy P s) (hsub : ∀ w, P w → P' w) : Tidy P' s :=
  ⟨fun w hw => hsub w (h.wallets w hw), h.nodup, h.active⟩

theorem migrate (h : Tidy P s) : Tidy P s.migrate where
  wallets := by
    rw [all_migrate]
    exact h.wallets
  nodup := by
    rw [all_migrate]
    exact h.nodup
  active := by
    rw [all_migrate, migrate_migrate]
    exact h.active

/-- A wallet is saved. -/
theorem saveWallet (h : Tidy P s) (hw : P w) (hname : w.address ≠ "") : Tidy P (s.saveWallet w) where
  wallets x hx := by
    rw [all_saveWallet] at hx
    rcases mem_upsertBy hx with rfl | hx
    · exact hw
    · exact h.wallets x hx
  nodup := by
    rw [all_saveWallet]
    exact nodup_upsertBy h.nodup
  active _ := by
    rw [migrate_wallets saveWallet_wallets]
    exact ⟨w.address, rfl, hname⟩

theorem removeWallet (h : Tidy P s) (hP : ∀ w, P w → w.address ≠ "") : Tidy P (s.removeWallet a) where
  wallets x hx := by
    rw [all_removeWallet] at hx
    exact h.wallets x (List.mem_of_mem_filter hx)
  nodup := by
    rw [all_removeWallet]
    exact h.nodup.sublist (List.filter_sublist.map _)
  active hne := by
    rw [migrate_wallets removeWallet_wallets]
    rw [all_removeWallet] at hne
    obtain ⟨x, hx⟩ := List.exists_mem_of_ne_nil _ hne
    have hbefore := h.active (List.ne_nil_of_mem (List.mem_of_mem_filter hx))
    rw [removeWallet_active]
    split
    · obtain ⟨y, ys, hys⟩ := List.exists_cons_of_ne_nil hne
      rw [hys]
      have hy : y ∈ s.all.filter (·.address ≠ a) := hys ▸ List.mem_cons_self
      exact ⟨y.address, rfl, hP y (h.wallets y (List.mem_of_mem_filter hy))⟩
    · exact hbefore

theorem setActiveWallet (h : Tidy P s) (hP : ∀ w, P w → w.address ≠ "") (ha : a ≠ "") : Tidy P (s.setActiveWallet a) where
  wallets := by
    rw [all_setActiveWallet]
    exact h.wallets
  nodup := by
    rw [all_setActiveWallet]
    exact h.nodup
  active hne := by
    rcases migrate_active (s := s.setActiveWallet a) with hactive | ⟨x, hx, hactive⟩
    · exact ⟨a, hactive, ha⟩
    · rw [all_setActiveWallet] at hx
      exact ⟨x.address, hactive, hP x (h.wallets x hx)⟩

/-- Where there are wallets, reloading shows one. -/
theorem shown (h : Tidy P s) (hne : s.all ≠ []) : ∃ w ∈ s.all, s.shown = some w := by
  obtain ⟨a, hactive, ha⟩ := h.active hne
  obtain ⟨x, xs, hxs⟩ := List.exists_cons_of_ne_nil hne
  have hshown : s.shown = (s.all.find? (·.address = a)).or s.all.head? := by
    rw [LocalStorage.shown, loadActiveWallet]
    simp only [hactive, if_neg ha]
    exact congrArg₂ (fun (l l' : List StoredWallet) => (l.find? (·.address = a)).or l'.head?) all_migrate all_migrate
  rw [hshown]
  cases hfind : s.all.find? (·.address = a) with
  | some w => exact ⟨w, List.mem_of_find?_eq_some hfind, rfl⟩
  | none => exact ⟨x, hxs ▸ List.mem_cons_self, by rw [hxs]; rfl⟩

end Tidy

end LocalStorage

/-! ## Tabs -/

/-- WebCrypto: a private key under a password, with the random salt and nonce. -/
structure WebCrypto where
  encryptPrivateKey : PrivateKey → String → List UInt8 → EncryptedKey
  decryptPrivateKey : EncryptedKey → String → Option PrivateKey

/-- What was encrypted is decrypted with its password, and with no password to anything else. -/
structure WebCrypto.Authentic (C : WebCrypto) : Prop where
  opens : ∀ key password random, C.decryptPrivateKey (C.encryptPrivateKey key password random) password = some key
  only : ∀ key password random password' key',
    C.decryptPrivateKey (C.encryptPrivateKey key password random) password' = some key' → key' = key

def deriveAddress (E : Env) (publicKey : PublicKey) : String :=
  let body := (E.sha256 publicKey.toList).toList.take 20
  let checksum := (E.sha256 body).toList.take 4
  "drana1" ++ toHex (body ++ checksum)

/-- A key, made or imported, with the password and the random bytes it is encrypted with. -/
structure Made where
  key : PrivateKey
  password : String
  random : List UInt8

def Made.wallet (E : Env) (C : WebCrypto) (m : Made) : StoredWallet where
  address := deriveAddress E m.key.publicKey
  publicKey := toHex m.key.publicKey.toList
  encryptedKey := C.encryptPrivateKey m.key m.password m.random
  name := ""

structure UnsignedTx where
  type : Nat
  recipient : String
  postId : String
  text : JsString
  channel : JsString
  amount : Nat

/-- The transaction object of `signAndSubmit`. -/
def UnsignedTx.fullTx (tx : UnsignedTx) (stored : StoredWallet) (nonce : Nat) : WalletTx where
  type := tx.type
  sender := stored.address
  recipient := tx.recipient
  postId := tx.postId
  text := tx.text
  channel := tx.channel
  amount := tx.amount
  nonce := nonce + 1
  pubKey := stored.publicKey

/-- A call that waits, with what it goes on with. -/
inductive Waiting
  /-- `createWallet` or `importWallet`, for the cipher; the second then asks for the
  balance of the wallet it began with. -/
  | saveWallet (m : Made) (refresh : Option StoredWallet)
  | unlock (stored : StoredWallet) (password : String)
  | refreshBalance (stored : StoredWallet)
  | signAndSubmit (privateKey : PrivateKey) (stored : StoredWallet) (tx : UnsignedTx)
  /-- `signAndSubmit`, for the node's answer. -/
  | submitted (stored : StoredWallet)

inductive Reply
  | failed
  /-- An account's name, empty if it has none, and nonce. -/
  | account (name : String) (nonce : Nat)
  | submitted (accepted : Bool)

structure Tab where
  stored : Option StoredWallet := none
  allWallets : List StoredWallet := []
  privateKey : Option PrivateKey := none
  waiting : List Waiting := []

namespace Tab

/-- `refreshBalance`, of the wallet it was made for. -/
def refreshBalance (tab : Tab) (stored : Option StoredWallet) : Tab :=
  match stored with
  | some w => if w.address = "" then tab else { tab with waiting := tab.waiting ++ [.refreshBalance w] }
  | none => tab

/-- A call goes on: what is stored, the tab, and what is signed. -/
def settle (E : Env) (C : WebCrypto) (s : LocalStorage) (tab : Tab) :
    Waiting → Reply → LocalStorage × Tab × List (PrivateKey × WalletTx)
  | .saveWallet m refresh, _ =>
    let s := s.saveWallet (m.wallet E C)
    let tab := { tab with stored := some (m.wallet E C), privateKey := some m.key, allWallets := s.all }
    (s, tab.refreshBalance refresh, [])
  | .unlock stored password, _ =>
    match C.decryptPrivateKey stored.encryptedKey password with
    | some key => (s, { tab with privateKey := some key }.refreshBalance (some stored), [])
    | none => (s, tab, [])
  | .refreshBalance stored, .account name _ =>
    if name ≠ "" ∧ name ≠ stored.name then
      let updated := { stored with name }
      let s := s.saveWallet updated
      (s, { tab with stored := some updated, allWallets := s.all }, [])
    else (s, tab, [])
  | .signAndSubmit privateKey stored tx, .account _ nonce =>
    match computeSignableBytes (tx.fullTx stored nonce) with
    | some _ => (s, { tab with waiting := tab.waiting ++ [.submitted stored] }, [(privateKey, tx.fullTx stored nonce)])
    | none => (s, tab, [])
  | .submitted stored, .submitted true => (s, tab.refreshBalance (some stored), [])
  | _, _ => (s, tab, [])

end Tab

inductive TabEvent
  /-- The page is opened, or loaded again. -/
  | load
  | createWallet (m : Made)
  | importWallet (m : Made)
  | unlock (password : String)
  | lock
  | switchWallet (address : String)
  | removeWallet (address : String)
  | refreshBalance
  | signAndSubmit (tx : UnsignedTx)
  /-- What the `k`th of the waiting calls waits for comes. -/
  | settle (k : Nat) (reply : Reply)

def TabEvent.made? : TabEvent → Option Made
  | .createWallet m => some m
  | .importWallet m => some m
  | _ => none

/-- An event in a tab. -/
def Tab.step (E : Env) (C : WebCrypto) (s : LocalStorage) (tab : Tab) :
    TabEvent → LocalStorage × Tab × List (PrivateKey × WalletTx)
  | .load => (s.migrate, { stored := s.shown, allWallets := s.all }, [])
  | .createWallet m => (s, { tab with waiting := tab.waiting ++ [.saveWallet m none] }, [])
  | .importWallet m => (s, { tab with waiting := tab.waiting ++ [.saveWallet m tab.stored] }, [])
  | .unlock password =>
    match tab.stored with
    | some w => (s, { tab with waiting := tab.waiting ++ [.unlock w password] }, [])
    | none => (s, tab, [])
  | .lock => (s, { tab with privateKey := none }, [])
  | .switchWallet address =>
    let s := s.setActiveWallet address
    (s.migrate, { tab with privateKey := none, stored := s.all.find? (·.address = address) }, [])
  | .removeWallet address =>
    let s := s.removeWallet address
    let tab := { tab with allWallets := s.all }
    if tab.stored.map (·.address) = some address then (s, { tab with privateKey := none, stored := s.all.head? }, [])
    else (s, tab, [])
  | .refreshBalance => (s, tab.refreshBalance tab.stored, [])
  | .signAndSubmit tx =>
    match tab.privateKey, tab.stored with
    | some key, some w =>
      if w.address = "" ∨ w.publicKey = "" then (s, tab, [])
      else (s, { tab with waiting := tab.waiting ++ [.signAndSubmit key w tx] }, [])
    | _, _ => (s, tab, [])
  | .settle k reply =>
    match tab.waiting[k]? with
    | some w => { tab with waiting := tab.waiting.eraseIdx k }.settle E C s w reply
    | none => (s, tab, [])

/-- Tabs over one storage, and what they have signed. -/
structure Browser (τ : Type) where
  storage : LocalStorage := {}
  tabs : τ → Tab := fun _ => {}
  sent : List (PrivateKey × WalletTx) := []

namespace Browser

variable {τ : Type} [DecidableEq τ]

def step (E : Env) (C : WebCrypto) (b : Browser τ) (ev : τ × TabEvent) : Browser τ :=
  let (s, tab, signed) := (b.tabs ev.1).step E C b.storage ev.2
  { storage := s, tabs := Function.update b.tabs ev.1 tab, sent := b.sent ++ signed }

def run (E : Env) (C : WebCrypto) (b : Browser τ) (evs : List (τ × TabEvent)) : Browser τ := evs.foldl (step E C) b

end Browser

/-- The keys that were made or imported among events. -/
def madeKeys {τ : Type} (evs : List (τ × TabEvent)) : List Made := evs.filterMap (·.2.made?)

/-! ## Wallets of made keys -/

variable {C : WebCrypto} {s : LocalStorage} {tab : Tab} {w : StoredWallet} {ms : List Made} {a : String}
  {P : StoredWallet → Prop}

/-- The wallet of one of these keys, under whatever name. -/
def MadeFrom (E : Env) (C : WebCrypto) (ms : List Made) (w : StoredWallet) : Prop :=
  ∃ m ∈ ms, w = { m.wallet E C with name := w.name }

theorem deriveAddress_ne {publicKey : PublicKey} : deriveAddress E publicKey ≠ "" := by
  intro h
  have hlen := congrArg String.length h
  rw [deriveAddress, String.length_append] at hlen
  have hprefix : "drana1".length = 6 := rfl
  have hempty : "".length = 0 := rfl
  omega

namespace MadeFrom

theorem wallet {m : Made} (hm : m ∈ ms) : MadeFrom E C ms (m.wallet E C) := ⟨m, hm, rfl⟩

theorem rename (h : MadeFrom E C ms w) (name : String) : MadeFrom E C ms { w with name } := by
  obtain ⟨m, hm, hw⟩ := h
  exact ⟨m, hm, by rw [hw]⟩

theorem address_ne (h : MadeFrom E C ms w) : w.address ≠ "" := by
  obtain ⟨m, -, hw⟩ := h
  rw [hw]
  exact deriveAddress_ne

theorem mono {ms' : List Made} (h : MadeFrom E C ms w) (hsub : ∀ m ∈ ms, m ∈ ms') : MadeFrom E C ms' w := by
  obtain ⟨m, hm, hw⟩ := h
  exact ⟨m, hsub m hm, hw⟩

end MadeFrom

/-- It makes no other key than these, and switches to no wallet without an address. -/
def TabEvent.Allowed (ms : List Made) (ev : TabEvent) : Prop := (∀ m ∈ ev.made?, m ∈ ms) ∧ ev ≠ .switchWallet ""

theorem allowed_of {τ : Type} {evs : List (τ × TabEvent)} (hevs : ∀ i, (i, TabEvent.switchWallet "") ∉ evs)
    {before : List Made} : ∀ ev ∈ evs, ev.2.Allowed (before ++ madeKeys evs) := by
  intro ev hev
  refine ⟨fun m hm => List.mem_append_right _ (List.mem_filterMap.mpr ⟨ev, hev, hm⟩), fun heq => hevs ev.1 ?_⟩
  rwa [← heq]

/-! ## A step of a tab -/

/-- What a call goes on with is known. -/
def Waiting.Known (E : Env) (C : WebCrypto) (P : StoredWallet → Prop) : Waiting → Prop
  | .saveWallet m refresh => P (m.wallet E C) ∧ ∀ w ∈ refresh, P w
  | .unlock stored _ => P stored
  | .refreshBalance stored => P stored
  | .signAndSubmit _ stored _ => P stored
  | .submitted stored => P stored

structure Tab.Known (E : Env) (C : WebCrypto) (P : StoredWallet → Prop) (tab : Tab) : Prop where
  stored : ∀ w ∈ tab.stored, P w
  allWallets : ∀ w ∈ tab.allWallets, P w
  waiting : ∀ x ∈ tab.waiting, x.Known E C P

/-- What a transaction names is of one wallet. -/
def NamedBy (P : StoredWallet → Prop) (t : WalletTx) : Prop := ∃ w, P w ∧ t.sender = w.address ∧ t.pubKey = w.publicKey

namespace Tab.Known

theorem wait (h : tab.Known E C P) {x : Waiting} (hx : x.Known E C P) :
    Known E C P { tab with waiting := tab.waiting ++ [x] } where
  stored := h.stored
  allWallets := h.allWallets
  waiting y hy := by
    rcases List.mem_append.mp hy with hy | hy
    · exact h.waiting y hy
    · exact List.mem_singleton.mp hy ▸ hx

theorem refreshBalance (h : tab.Known E C P) {stored : Option StoredWallet} (hw : ∀ w ∈ stored, P w) :
    (tab.refreshBalance stored).Known E C P := by
  unfold Tab.refreshBalance
  split
  · split
    · exact h
    · exact h.wait (x := .refreshBalance _) (hw _ rfl)
  · exact h

/-- A call goes on. -/
theorem settle (h : tab.Known E C P) (hs : s.Tidy P) (hname : ∀ w name, P w → P { w with name })
    (hne : ∀ w, P w → w.address ≠ "") {x : Waiting} (hx : x.Known E C P) (reply : Reply) :
    (tab.settle E C s x reply).1.Tidy P ∧ (tab.settle E C s x reply).2.1.Known E C P ∧
      ∀ t ∈ (tab.settle E C s x reply).2.2, NamedBy P t.2 := by
  unfold Tab.settle
  split
  · next m refresh =>
    have hsaved := hs.saveWallet hx.1 (hne _ hx.1)
    refine ⟨hsaved, refreshBalance ?_ hx.2, nofun⟩
    exact ⟨fun w hw => Option.mem_some.mp hw ▸ hx.1, hsaved.wallets, h.waiting⟩
  · next stored password =>
    have hshown : ∀ w ∈ some stored, P w := fun w hw => Option.some.inj hw ▸ hx
    split
    · next key _ =>
      have hunlocked : Known E C P { tab with privateKey := some key } := ⟨h.stored, h.allWallets, h.waiting⟩
      exact ⟨hs, hunlocked.refreshBalance hshown, nofun⟩
    · exact ⟨hs, h, nofun⟩
  · next stored name _ =>
    split
    · have hupdated := hname stored name hx
      have hsaved := hs.saveWallet hupdated (hne _ hupdated)
      exact ⟨hsaved, ⟨fun w hw => Option.mem_some.mp hw ▸ hupdated, hsaved.wallets, h.waiting⟩, nofun⟩
    · exact ⟨hs, h, nofun⟩
  · next key stored tx _ nonce =>
    split
    · refine ⟨hs, h.wait (x := .submitted stored) hx, ?_⟩
      intro t ht
      rw [List.mem_singleton.mp ht]
      exact ⟨stored, hx, rfl, rfl⟩
    · exact ⟨hs, h, nofun⟩
  · next stored =>
    have hshown : ∀ w ∈ some stored, P w := fun w hw => Option.some.inj hw ▸ hx
    exact ⟨hs, h.refreshBalance hshown, nofun⟩
  · exact ⟨hs, h, nofun⟩

/-- An event in a tab: the storage stays tidy, and only known wallets are shown and signed for. -/
theorem step (h : tab.Known E C P) (hs : s.Tidy P) (hname : ∀ w name, P w → P { w with name })
    (hne : ∀ w, P w → w.address ≠ "") {ev : TabEvent} (hmade : ∀ m ∈ ev.made?, P (m.wallet E C))
    (hev : ev ≠ .switchWallet "") :
    (tab.step E C s ev).1.Tidy P ∧ (tab.step E C s ev).2.1.Known E C P ∧
      ∀ t ∈ (tab.step E C s ev).2.2, NamedBy P t.2 := by
  cases ev with
  | load =>
    refine ⟨hs.migrate, ⟨fun w hw => ?_, hs.wallets, nofun⟩, nofun⟩
    exact hs.wallets w (LocalStorage.mem_of_shown hw)
  | createWallet m => exact ⟨hs, h.wait (x := .saveWallet m none) ⟨hmade m rfl, nofun⟩, nofun⟩
  | importWallet m => exact ⟨hs, h.wait (x := .saveWallet m tab.stored) ⟨hmade m rfl, h.stored⟩, nofun⟩
  | unlock password =>
    unfold Tab.step
    dsimp only
    split
    · next w hw => exact ⟨hs, h.wait (x := .unlock w password) (h.stored w hw), nofun⟩
    · exact ⟨hs, h, nofun⟩
  | lock => exact ⟨hs, ⟨h.stored, h.allWallets, h.waiting⟩, nofun⟩
  | switchWallet address =>
    have hswitched := hs.setActiveWallet hne (a := address) fun hempty => hev (by rw [hempty])
    refine ⟨hswitched.migrate, ⟨fun w hw => ?_, h.allWallets, h.waiting⟩, nofun⟩
    exact hswitched.wallets w (List.mem_of_find?_eq_some hw)
  | removeWallet address =>
    have hremoved := hs.removeWallet (a := address) hne
    unfold Tab.step
    dsimp only
    split
    · refine ⟨hremoved, ⟨fun w hw => ?_, hremoved.wallets, h.waiting⟩, nofun⟩
      exact hremoved.wallets w (List.mem_of_mem_head? hw)
    · exact ⟨hremoved, ⟨h.stored, hremoved.wallets, h.waiting⟩, nofun⟩
  | refreshBalance => exact ⟨hs, h.refreshBalance h.stored, nofun⟩
  | signAndSubmit tx =>
    unfold Tab.step
    dsimp only
    split
    · next key w _ hw =>
      split
      · exact ⟨hs, h, nofun⟩
      · exact ⟨hs, h.wait (x := .signAndSubmit key w tx) (h.stored w hw), nofun⟩
    · exact ⟨hs, h, nofun⟩
  | settle k reply =>
    unfold Tab.step
    dsimp only
    split
    · next x hx =>
      have hleft : Known E C P { tab with waiting := tab.waiting.eraseIdx k } :=
        ⟨h.stored, h.allWallets, fun y hy => h.waiting y (List.mem_of_mem_eraseIdx hy)⟩
      exact hleft.settle hs hname hne (h.waiting x (List.mem_of_getElem? hx)) reply
    · exact ⟨hs, h, nofun⟩

end Tab.Known

/-- What an event does to what is stored. -/
theorem Tab.step_storage (tab : Tab) (ev : TabEvent) :
    (tab.step E C s ev).1 = s ∨ (tab.step E C s ev).1 = s.migrate ∨ (∃ w, (tab.step E C s ev).1 = s.saveWallet w) ∨
      (∃ a, (tab.step E C s ev).1 = (s.setActiveWallet a).migrate) ∨
      ∃ a, ev = .removeWallet a ∧ (tab.step E C s ev).1 = s.removeWallet a := by
  cases ev with
  | load => exact .inr (.inl rfl)
  | switchWallet address => exact .inr (.inr (.inr (.inl ⟨address, rfl⟩)))
  | removeWallet address =>
    refine .inr (.inr (.inr (.inr ⟨address, rfl, ?_⟩)))
    unfold Tab.step
    dsimp only
    split <;> rfl
  | createWallet | importWallet | lock | refreshBalance => exact .inl rfl
  | unlock | signAndSubmit =>
    refine .inl ?_
    unfold Tab.step
    dsimp only
    repeat' split
    all_goals rfl
  | settle k reply =>
    unfold Tab.step
    dsimp only
    split
    · unfold Tab.settle
      repeat' split
      all_goals first | exact .inl rfl | exact .inr (.inr (.inl ⟨_, rfl⟩))
    · exact .inl rfl

/-- An address stays until its wallet is removed. -/
theorem Tab.step_keeps {ev : TabEvent} (ha : a ∈ s.all.map (·.address)) (hev : ev ≠ .removeWallet a) :
    a ∈ (tab.step E C s ev).1.all.map (·.address) := by
  have hcases := tab.step_storage (E := E) (C := C) (s := s) ev
  rcases hcases with h | h | ⟨w, h⟩ | ⟨a', h⟩ | ⟨a', rfl, h⟩
  · rwa [h]
  · rwa [h, LocalStorage.all_migrate]
  · rw [h, LocalStorage.all_saveWallet, map_upsertBy]
    split
    · exact ha
    · exact List.mem_append_left _ ha
  · rwa [h, LocalStorage.all_migrate, LocalStorage.all_setActiveWallet]
  · rw [h, LocalStorage.all_removeWallet]
    obtain ⟨w, hw, rfl⟩ := List.mem_map.mp ha
    refine List.mem_map_of_mem (List.mem_filter.mpr ⟨hw, decide_eq_true ?_⟩)
    exact fun heq => hev (by rw [heq])

/-! ## Two tabs -/

theorem LocalStorage.tidy_empty : ({} : LocalStorage).Tidy P := ⟨nofun, List.nodup_nil, fun h => absurd rfl h⟩

namespace Sample

/-- The key as it is, with the password as the salt. -/
def webCrypto : WebCrypto where
  encryptPrivateKey key password _ := ⟨toHex key.toList, password, ""⟩
  decryptPrivateKey encrypted password :=
    if encrypted.salt = password then (fromHex encrypted.ciphertext).map ByteArr.copyFrom else none

theorem webCrypto_decrypt {k : PrivateKey} {password password' : String} {random : List UInt8} :
    webCrypto.decryptPrivateKey (webCrypto.encryptPrivateKey k password random) password' =
      if password = password' then some k else none := by
  simp only [webCrypto, fromHex, toHex, hexBytes_encode, Option.map_some, ByteArr.copyFrom_toList]

theorem webCrypto_authentic : webCrypto.Authentic where
  opens k password random := by rw [webCrypto_decrypt, if_pos rfl]
  only k password random password' key' h := by
    rw [webCrypto_decrypt] at h
    split at h
    · exact (Option.some.inj h).symm
    · cases h

def madeKey (n : UInt8) : Made := ⟨key n, "secret", []⟩

def payment : UnsignedTx := ⟨1, deriveAddress env (key 1).publicKey, "", ⟨"", by decide⟩, ⟨"", by decide⟩, 5⟩

/-- Two tabs make a wallet each; the second is then loaded again, and pays. -/
def twoTabs : List (Bool × TabEvent) :=
  [(true, .createWallet (madeKey 1)), (false, .importWallet (madeKey 2)), (true, .settle 0 .failed),
    (false, .settle 0 .failed), (false, .load), (false, .unlock "secret"), (false, .settle 0 .failed),
    (false, .signAndSubmit payment), (false, .settle 1 (.account "" 0)), (true, .switchWallet "drana1")]

theorem twoTabs_switches (i : Bool) : (i, TabEvent.switchWallet "") ∉ twoTabs := by
  simp [twoTabs]

end Sample

/-! ## Runs -/

namespace Browser

variable {τ : Type} [DecidableEq τ] {b : Browser τ} {evs : List (τ × TabEvent)}

/-- All that is stored, shown, waiting and signed is of known wallets. -/
structure Known (E : Env) (C : WebCrypto) (P : StoredWallet → Prop) (b : Browser τ) : Prop where
  storage : b.storage.Tidy P
  tabs : ∀ i, (b.tabs i).Known E C P
  sent : ∀ t ∈ b.sent, NamedBy P t.2

theorem forall_tabs_step {Q : Tab → Prop} (h : ∀ i, Q (b.tabs i)) {ev : τ × TabEvent}
    (hev : Q ((b.tabs ev.1).step E C b.storage ev.2).2.1) : ∀ i, Q ((b.step E C ev).tabs i) :=
  (Function.forall_update_iff b.tabs fun _ tab => Q tab).mpr ⟨hev, fun i _ => h i⟩

theorem Known.step (h : b.Known E C (MadeFrom E C ms)) {ev : τ × TabEvent} (hev : ev.2.Allowed ms) :
    (b.step E C ev).Known E C (MadeFrom E C ms) := by
  obtain ⟨hs, htab, hsent⟩ := (h.tabs ev.1).step h.storage (fun _ name hw => hw.rename name) (fun _ hw => hw.address_ne)
    (fun m hm => .wallet (hev.1 m hm)) hev.2
  exact ⟨hs, forall_tabs_step h.tabs htab, fun t ht => (List.mem_append.mp ht).elim (h.sent t) (hsent t)⟩

theorem Known.run (h : b.Known E C (MadeFrom E C ms)) (hevs : ∀ ev ∈ evs, ev.2.Allowed ms) :
    (b.run E C evs).Known E C (MadeFrom E C ms) := by
  induction evs generalizing b with
  | nil => exact h
  | cons ev evs ih =>
    obtain ⟨hev, hrest⟩ := List.forall_mem_cons.mp hevs
    exact ih (h.step hev) hrest

theorem run_keeps (ha : a ∈ b.storage.all.map (·.address)) (hevs : ∀ i, (i, TabEvent.removeWallet a) ∉ evs) :
    a ∈ (b.run E C evs).storage.all.map (·.address) := by
  induction evs generalizing b with
  | nil => exact ha
  | cons ev evs ih =>
    have hfirst : a ∈ (b.step E C ev).storage.all.map (·.address) :=
      Tab.step_keeps ha fun heq => hevs ev.1 (List.mem_cons.mpr (.inl (Prod.ext rfl heq.symm)))
    exact ih hfirst fun i hi => hevs i (List.mem_cons_of_mem _ hi)

theorem run_append {evs₁ evs₂ : List (τ × TabEvent)} : b.run E C (evs₁ ++ evs₂) = (b.run E C evs₁).run E C evs₂ :=
  List.foldl_append

/-- A new wallet is stored when its key is enciphered. -/
theorem settle_saved {i : τ} {k : Nat} {m : Made} {refresh : Option StoredWallet} (reply : Reply)
    (h : (b.tabs i).waiting[k]? = some (.saveWallet m refresh)) :
    m.wallet E C ∈ (b.step E C (i, .settle k reply)).storage.all := by
  have hstep : (b.step E C (i, .settle k reply)).storage = b.storage.saveWallet (m.wallet E C) := by
    simp only [Browser.step, Tab.step, h, Tab.settle]
  rw [hstep, LocalStorage.all_saveWallet]
  exact mem_upsertBy_self

omit [DecidableEq τ] in
/-- A browser in which the app is not open. -/
theorem known_closed {before : List Made} {s : LocalStorage} (hs : s.Tidy (MadeFrom E C before)) :
    Known E C (MadeFrom E C (before ++ madeKeys evs)) ({ storage := s } : Browser τ) where
  storage := hs.mono fun _ hw => hw.mono fun _ hm => List.mem_append_left _ hm
  tabs _ := ⟨nofun, nofun, nofun⟩
  sent := nofun

/-- Whatever the tabs do and in whatever order, each save and each removal in one
step, and none switching to no address: each wallet stored is that of a key
that was made, and opens with its password; there is one for an address; what is
stored stays, and what is made is stored, until it is removed; and where there is a
wallet, the app shows one when it is loaded again. -/
theorem wallets_kept (hC : C.Authentic) {before : List Made} {s : LocalStorage} (hs : s.Tidy (MadeFrom E C before))
    (evs : List (τ × TabEvent)) (hevs : ∀ i, (i, TabEvent.switchWallet "") ∉ evs) :
    let b := run E C ({ storage := s } : Browser τ)
    (∀ w ∈ (b evs).storage.all, ∃ m ∈ before ++ madeKeys evs, w.address = deriveAddress E m.key.publicKey ∧
      w.publicKey = toHex m.key.publicKey.toList ∧ C.decryptPrivateKey w.encryptedKey m.password = some m.key) ∧
    ((b evs).storage.all.map (·.address)).Nodup ∧
    (∀ evs₁ evs₂, evs = evs₁ ++ evs₂ → ∀ w ∈ (b evs₁).storage.all,
      (∀ i, (i, TabEvent.removeWallet w.address) ∉ evs₂) → ∃ w' ∈ (b evs).storage.all, w'.address = w.address) ∧
    (∀ evs₁ evs₂ i k reply m refresh, evs = evs₁ ++ (i, .settle k reply) :: evs₂ →
      ((b evs₁).tabs i).waiting[k]? = some (.saveWallet m refresh) →
      (∀ i, (i, TabEvent.removeWallet (m.wallet E C).address) ∉ evs₂) →
      ∃ w ∈ (b evs).storage.all, w.address = (m.wallet E C).address) ∧
    ((b evs).storage.all ≠ [] → ∃ w ∈ (b evs).storage.all, (b evs).storage.shown = some w) := by
  intro b
  have hknown : (b evs).Known E C (MadeFrom E C (before ++ madeKeys evs)) :=
    (known_closed hs).run (allowed_of hevs)
  refine ⟨fun w hw => ?_, hknown.storage.nodup, ?_, ?_, hknown.storage.shown⟩
  · obtain ⟨m, hm, heq⟩ := hknown.storage.wallets w hw
    refine ⟨m, hm, ?_⟩
    rw [heq]
    exact ⟨rfl, rfl, hC.opens m.key m.password m.random⟩
  · rintro evs₁ evs₂ rfl w hw hkept
    have hlater := run_keeps (E := E) (C := C) (List.mem_map_of_mem hw) hkept
    rw [← run_append] at hlater
    exact List.mem_map.mp hlater
  · rintro evs₁ evs₂ i k reply m refresh rfl hwaiting hkept
    have hsaved := settle_saved (E := E) (C := C) reply hwaiting
    have hlater := run_keeps (E := E) (C := C) (List.mem_map_of_mem hsaved) hkept
    have hrun : b (evs₁ ++ (i, .settle k reply) :: evs₂) = ((b evs₁).step E C (i, .settle k reply)).run E C evs₂ :=
      run_append
    rw [← hrun] at hlater
    exact List.mem_map.mp hlater

theorem wallets_kept_two_tabs :
    let b := run Sample.env Sample.webCrypto ({} : Browser Bool) Sample.twoTabs
    b.storage.all.length = 2 ∧ ∃ w ∈ b.storage.all, b.storage.shown = some w := by
  intro b
  have hall : b.storage.all.length = 2 := by decide +kernel
  refine ⟨hall, ?_⟩
  have hkept := wallets_kept Sample.webCrypto_authentic
    (LocalStorage.tidy_empty (P := MadeFrom Sample.env Sample.webCrypto [])) Sample.twoTabs Sample.twoTabs_switches
  exact hkept.2.2.2.2 fun hnil => absurd (hnil ▸ hall) (by decide)

end Browser

/-! ## Keys and what is signed with them -/

/-- This key is of the wallet with this address and public key. -/
def Owns (E : Env) (key : PrivateKey) (address publicKey : String) : Prop :=
  address = deriveAddress E key.publicKey ∧ publicKey = toHex key.publicKey.toList

namespace Tab

def Shows (tab : Tab) (w : StoredWallet) : Prop :=
  ∃ w' ∈ tab.stored, w'.address = w.address ∧ w'.publicKey = w.publicKey

/-- The wallet whose key, or name, this brings. -/
def answered (tab : Tab) : TabEvent → Option StoredWallet
  | .settle k _ =>
    match tab.waiting[k]? with
    | some (.unlock stored _) => some stored
    | some (.refreshBalance stored) => some stored
    | _ => none
  | _ => none

/-- A key that was deciphered, or a name, comes while its wallet is shown. -/
def InTime (tab : Tab) (ev : TabEvent) : Prop := ∀ w ∈ tab.answered ev, tab.Shows w

instance : DecidablePred tab.Shows := fun w =>
  inferInstanceAs (Decidable (∃ w' ∈ tab.stored, w'.address = w.address ∧ w'.publicKey = w.publicKey))
instance : DecidablePred tab.InTime := fun ev => inferInstanceAs (Decidable (∀ w ∈ tab.answered ev, tab.Shows w))

/-- The key is of the wallet shown, and so is that of a call to sign. -/
structure Unmixed (E : Env) (tab : Tab) : Prop where
  key : ∀ key ∈ tab.privateKey, ∃ w ∈ tab.stored, Owns E key w.address w.publicKey
  waiting : ∀ key w tx, Waiting.signAndSubmit key w tx ∈ tab.waiting → Owns E key w.address w.publicKey

namespace Unmixed

theorem wait (h : tab.Unmixed E) {x : Waiting}
    (hx : ∀ key w tx, x = .signAndSubmit key w tx → Owns E key w.address w.publicKey) :
    Unmixed E { tab with waiting := tab.waiting ++ [x] } where
  key := h.key
  waiting key w tx hmem := by
    rcases List.mem_append.mp hmem with hmem | hmem
    · exact h.waiting key w tx hmem
    · exact hx key w tx (List.mem_singleton.mp hmem).symm

theorem refreshBalance (h : tab.Unmixed E) (stored : Option StoredWallet) : (tab.refreshBalance stored).Unmixed E := by
  unfold Tab.refreshBalance
  split
  · split
    · exact h
    · exact h.wait nofun
  · exact h

/-- A call goes on in time. -/
theorem settle (hC : C.Authentic) (h : tab.Unmixed E) {x : Waiting} (hx : x.Known E C (MadeFrom E C ms))
    (hsign : ∀ key w tx, x = .signAndSubmit key w tx → Owns E key w.address w.publicKey)
    (hunlock : ∀ w password, x = .unlock w password → tab.Shows w)
    (hrefresh : ∀ w, x = .refreshBalance w → tab.Shows w) (reply : Reply) :
    (tab.settle E C s x reply).2.1.Unmixed E ∧
      ∀ t ∈ (tab.settle E C s x reply).2.2, Owns E t.1 t.2.sender t.2.pubKey := by
  unfold Tab.settle
  split
  · next m refresh =>
    refine ⟨refreshBalance ?_ refresh, nofun⟩
    refine ⟨fun key hkey => ?_, h.waiting⟩
    obtain rfl : m.key = key := Option.some.inj hkey
    exact ⟨m.wallet E C, rfl, rfl, rfl⟩
  · next stored password =>
    split
    · next key hdecrypt =>
      refine ⟨refreshBalance ?_ (some stored), nofun⟩
      refine ⟨fun key' hkey => ?_, h.waiting⟩
      obtain rfl : key = key' := Option.some.inj hkey
      obtain ⟨m, -, hw⟩ := hx
      obtain ⟨w, hshown, haddress, hpublicKey⟩ := hunlock stored password rfl
      have hopened : key = m.key := by
        rw [hw] at hdecrypt
        exact hC.only m.key m.password m.random password key hdecrypt
      refine ⟨w, hshown, ?_⟩
      rw [haddress, hpublicKey, hopened, hw]
      exact ⟨rfl, rfl⟩
    · exact ⟨h, nofun⟩
  · next stored name _ =>
    split
    · refine ⟨⟨fun key hkey => ?_, h.waiting⟩, nofun⟩
      obtain ⟨w, hshown, howns⟩ := h.key key hkey
      obtain ⟨w', hshown', haddress, hpublicKey⟩ := hrefresh stored rfl
      obtain rfl : w = w' := Option.some.inj (hshown.symm.trans hshown')
      exact ⟨{ stored with name }, rfl, haddress ▸ hpublicKey ▸ howns⟩
    · exact ⟨h, nofun⟩
  · next key stored tx _ nonce =>
    split
    · refine ⟨h.wait nofun, fun t ht => ?_⟩
      rw [List.mem_singleton.mp ht]
      exact hsign key stored tx rfl
    · exact ⟨h, nofun⟩
  · next stored => exact ⟨h.refreshBalance (some stored), nofun⟩
  · exact ⟨h, nofun⟩

/-- An event in time. -/
theorem step (hC : C.Authentic) (h : tab.Unmixed E) (hknown : tab.Known E C (MadeFrom E C ms)) {ev : TabEvent}
    (hev : tab.InTime ev) :
    (tab.step E C s ev).2.1.Unmixed E ∧ ∀ t ∈ (tab.step E C s ev).2.2, Owns E t.1 t.2.sender t.2.pubKey := by
  cases ev with
  | load => exact ⟨⟨nofun, nofun⟩, nofun⟩
  | createWallet m => exact ⟨h.wait nofun, nofun⟩
  | importWallet m => exact ⟨h.wait nofun, nofun⟩
  | unlock password =>
    unfold Tab.step
    dsimp only
    split
    · exact ⟨h.wait nofun, nofun⟩
    · exact ⟨h, nofun⟩
  | lock => exact ⟨⟨nofun, h.waiting⟩, nofun⟩
  | switchWallet address => exact ⟨⟨nofun, h.waiting⟩, nofun⟩
  | removeWallet address =>
    unfold Tab.step
    dsimp only
    split
    · exact ⟨⟨nofun, h.waiting⟩, nofun⟩
    · exact ⟨⟨h.key, h.waiting⟩, nofun⟩
  | refreshBalance => exact ⟨h.refreshBalance tab.stored, nofun⟩
  | signAndSubmit tx =>
    unfold Tab.step
    dsimp only
    split
    · next key w hkey hw =>
      split
      · exact ⟨h, nofun⟩
      · refine ⟨h.wait fun key' w' tx' heq => ?_, nofun⟩
        cases heq
        obtain ⟨w', hshown, howns⟩ := h.key key hkey
        obtain rfl : w = w' := Option.some.inj (hw.symm.trans hshown)
        exact howns
    · exact ⟨h, nofun⟩
  | settle k reply =>
    unfold Tab.step
    dsimp only
    split
    · next x hx =>
      have hleft : Unmixed E { tab with waiting := tab.waiting.eraseIdx k } :=
        ⟨h.key, fun key w tx hmem => h.waiting key w tx (List.mem_of_mem_eraseIdx hmem)⟩
      simp only [InTime, answered, hx] at hev
      refine hleft.settle hC (hknown.waiting x (List.mem_of_getElem? hx)) ?_ ?_ ?_ reply
      · rintro key w tx rfl
        exact h.waiting key w tx (List.mem_of_getElem? hx)
      · rintro w password rfl
        exact hev w rfl
      · rintro w rfl
        exact hev w rfl
    · exact ⟨h, nofun⟩

end Unmixed

end Tab

namespace Browser

variable {τ : Type} [DecidableEq τ] {b : Browser τ} {evs : List (τ × TabEvent)}

/-- Each event comes in time in its tab. -/
def InTimeAlong (E : Env) (C : WebCrypto) (b : Browser τ) : List (τ × TabEvent) → Prop
  | [] => True
  | ev :: evs => (b.tabs ev.1).InTime ev.2 ∧ InTimeAlong E C (b.step E C ev) evs

instance decidableInTimeAlong : ∀ (b : Browser τ) (evs : List (τ × TabEvent)), Decidable (b.InTimeAlong E C evs)
  | _, [] => .isTrue trivial
  | b, ev :: evs =>
    have := decidableInTimeAlong (b.step E C ev) evs
    inferInstanceAs (Decidable ((b.tabs ev.1).InTime ev.2 ∧ (b.step E C ev).InTimeAlong E C evs))

structure Unmixed (E : Env) (b : Browser τ) : Prop where
  tabs : ∀ i, (b.tabs i).Unmixed E
  sent : ∀ t ∈ b.sent, Owns E t.1 t.2.sender t.2.pubKey

theorem Unmixed.step (hC : C.Authentic) (h : b.Unmixed E) (hknown : b.Known E C (MadeFrom E C ms)) {ev : τ × TabEvent}
    (hev : (b.tabs ev.1).InTime ev.2) : (b.step E C ev).Unmixed E := by
  obtain ⟨htab, hsent⟩ := (h.tabs ev.1).step (s := b.storage) hC (hknown.tabs ev.1) hev
  exact ⟨forall_tabs_step h.tabs htab, fun t ht => (List.mem_append.mp ht).elim (h.sent t) (hsent t)⟩

theorem Unmixed.run (hC : C.Authentic) (h : b.Unmixed E) (hknown : b.Known E C (MadeFrom E C ms))
    (hevs : ∀ ev ∈ evs, ev.2.Allowed ms) (htime : b.InTimeAlong E C evs) : (b.run E C evs).Unmixed E := by
  induction evs generalizing b with
  | nil => exact h
  | cons ev evs ih =>
    obtain ⟨hev, hrest⟩ := List.forall_mem_cons.mp hevs
    exact ih (h.step hC hknown htime.1) (hknown.step hev) hrest htime.2

/-- What any tab signs, where none switches to no address, names the address and
the public key of one key that was made. Where deciphered keys and names come while their wallet is shown, it is
signed with that key. -/
theorem signed_for (hC : C.Authentic) {before : List Made} {s : LocalStorage} (hs : s.Tidy (MadeFrom E C before))
    (evs : List (τ × TabEvent)) (hevs : ∀ i, (i, TabEvent.switchWallet "") ∉ evs) :
    (∀ t ∈ (run E C ({ storage := s } : Browser τ) evs).sent,
      ∃ m ∈ before ++ madeKeys evs, Owns E m.key t.2.sender t.2.pubKey) ∧
    (InTimeAlong E C ({ storage := s } : Browser τ) evs →
      ∀ t ∈ (run E C ({ storage := s } : Browser τ) evs).sent, Owns E t.1 t.2.sender t.2.pubKey) := by
  have hknown : Known E C (MadeFrom E C (before ++ madeKeys evs)) ({ storage := s } : Browser τ) := known_closed hs
  refine ⟨fun t ht => ?_, fun htime => ?_⟩
  · obtain ⟨w, ⟨m, hm, hw⟩, hsender, hpubKey⟩ := (hknown.run (allowed_of hevs)).sent t ht
    refine ⟨m, hm, ?_⟩
    rw [hsender, hpubKey, hw]
    exact ⟨rfl, rfl⟩
  · have hclosed : Unmixed E ({ storage := s } : Browser τ) := ⟨fun _ => ⟨nofun, nofun⟩, nofun⟩
    exact (hclosed.run hC hknown (allowed_of hevs) htime).sent

theorem signed_for_two_tabs :
    let b := run Sample.env Sample.webCrypto ({} : Browser Bool) Sample.twoTabs
    b.sent.length = 1 ∧ ∀ t ∈ b.sent, Owns Sample.env t.1 t.2.sender t.2.pubKey := by
  refine ⟨by decide +kernel, ?_⟩
  have hsigned := signed_for Sample.webCrypto_authentic
    (LocalStorage.tidy_empty (P := MadeFrom Sample.env Sample.webCrypto [])) Sample.twoTabs Sample.twoTabs_switches
  exact hsigned.2 (by decide +kernel)

end Browser

end Drana
