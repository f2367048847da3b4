import CoMoNet.Wallet.Keys
import CoMoNet.Post.Sorted
import CoMoNet.Chain.Replacement

/-!
# The key that signs a replacement

Which key signs is what `mapKeyReplacement` says, and that goes wrong after a rejected
transaction, a second request or a note left over. In runs whose calls meet `RequestOK`
and `SendOK` the key on the chain signs (`replacement_signed`).
-/

namespace CoMoNet

open GuardedRun (System)

/-! ## Maps by key ids -/

section Map

variable {α : Type} {key k : Nat} {value : α} {m : List (Nat × α)} {p : Nat × α → Bool}

/-- The members of a `std::map` are sorted by their key ids. -/
def IdsSorted (m : List (Nat × α)) : Prop := m.Pairwise fun x y => x.1 < y.1

theorem idsSorted_iff : IdsSorted m ↔ m.Pairwise fun x y => decide (x.1 < y.1) = true := by
  simp [IdsSorted]

/-- Setting a key keeps the order. -/
theorem IdsSorted.mapSet (h : IdsSorted m) (key : Nat) (value : α) :
    IdsSorted (mapSet (· < ·) key value m) :=
  idsSorted_iff.mpr (sortsKeys_lt.mapSet (idsSorted_iff.mp h) key value)

theorem IdsSorted.lookup_of_mem (h : IdsSorted m) (hmem : (k, value) ∈ m) :
    m.lookup k = some value :=
  sortsKeys_lt.lookup_of_mem (idsSorted_iff.mp h) hmem

/-! A search by value in a map that got one more member. -/

/-- A search passes by a new entry it does not match. -/
theorem find?_mapSet_other (hfresh : m.lookup key = none) (hp : p (key, value) = false) :
    (mapSet (· < ·) key value m).find? p = m.find? p := by
  induction m with
  | nil => simp [mapSet, hp]
  | cons x m ih =>
    rw [List.lookup_cons] at hfresh
    split at hfresh
    · cases hfresh
    next hne =>
      have hne : x.1 ≠ key := fun h => by simp [h] at hne
      rw [mapSet, if_neg hne]
      split
      · simp [hp]
      · rw [List.find?_cons, List.find?_cons, ih hfresh]

theorem find?_mapSet_only (hnone : m.find? p = none) (hp : p (key, value) = true) :
    (mapSet (· < ·) key value m).find? p = some (key, value) := by
  induction m with
  | nil => simp [mapSet, hp]
  | cons x m ih =>
    rw [List.find?_cons] at hnone
    split at hnone
    · cases hnone
    next hx =>
      rw [mapSet]
      split
      · simp [hp]
      split
      · simp [hp]
      · rw [List.find?_cons, hx]
        exact ih hnone

/-- A member behind the first hit does not change the hit. -/
theorem IdsSorted.find?_mapSet_behind {x : Nat × α} (h : IdsSorted m) (hfind : m.find? p = some x)
    (hlt : x.1 < key) : (CoMoNet.mapSet (· < ·) key value m).find? p = some x := by
  induction m with
  | nil => cases hfind
  | cons y m ih =>
    obtain ⟨hy, hm⟩ := List.pairwise_cons.mp h
    have hyx : y.1 ≤ x.1 := by
      rcases List.mem_cons.mp (List.mem_of_find?_eq_some hfind) with rfl | hx
      · exact Nat.le_refl _
      · exact Nat.le_of_lt (hy x hx)
    have hkey : y.1 < key := Nat.lt_of_le_of_lt hyx hlt
    have hnot : ¬ (decide (key < y.1)) = true := by simpa using Nat.le_of_lt hkey
    rw [CoMoNet.mapSet, if_neg (Nat.ne_of_lt hkey), if_neg hnot, List.find?_cons]
    rw [List.find?_cons] at hfind
    cases hp : p y with
    | true => rwa [hp] at hfind
    | false =>
      rw [hp] at hfind
      exact ih hm hfind

theorem find?_eraseP_other {q : Nat × α → Bool} (hpq : ∀ x, p x = true → q x = false) :
    (m.eraseP q).find? p = m.find? p := by
  induction m with
  | nil => rfl
  | cons x m ih =>
    rw [List.eraseP_cons]
    cases hq : q x with
    | true =>
      have hp : p x = false := by
        by_contra hp
        rw [hpq x (eq_true_of_ne_false hp)] at hq
        cases hq
      rw [List.find?_cons, hp, cond_true]
    | false => rw [cond_false, List.find?_cons, List.find?_cons, ih]

end Map

/-! ## Wallets -/

/-- Signatures of a private key recover to a public key with the id. -/
def Signs (env : Env) (sign : Bytes → Uint256 → Option Bytes) (keyID : Nat) (key : Bytes) : Prop :=
  ∀ hash, ∃ sig pubkey, sign key hash = some sig ∧ sig ≠ [] ∧ sig.length < 256 ^ 4 ∧
    env.recoverCompact hash sig = some pubkey ∧ env.hash160 pubkey = keyID

/-- A key pair that `MakeNewKey` can make. -/
structure NewKey.Valid (env : Env) (sign : Bytes → Uint256 → Option Bytes) (new : NewKey) :
    Prop where
  pubkey : cPubKey new.pubkey = new.pubkey ∧ new.pubkey ≠ []
  signs : Signs env sign (env.hash160 new.pubkey) new.secret

/-- A wallet as it is loaded or made by its own functions. -/
structure KeyWallet.Sound (env : Env) (sign : Bytes → Uint256 → Option Bytes) (w : KeyWallet) :
    Prop where
  sorted : IdsSorted w.mapKeyMetadata
  notes : IdsSorted w.mapKeyReplacement
  /-- Every key that has metadata has a public key. -/
  pubkeys : ∀ keyID data, w.mapKeyMetadata.lookup keyID = some data →
    ∃ pubkey, w.pubKeys.lookup keyID = some pubkey ∧ cPubKey pubkey = pubkey ∧ pubkey ≠ []
  keys : ∀ keyID key, w.keys.lookup keyID = some key → Signs env sign keyID key

/-- The id of the key that a user has on the chain. -/
def registeredID (env : Env) (fuel : Nat) (chain : ChainState) (u : Bytes) : Option Nat :=
  match getTransaction env fuel chain u (-1) with
  | .ok (some (tx, _)) => (registeredKey tx).map env.hash160
  | _ => none

/-! ## Runs -/

/-- A wallet, its chain, and what happened for one user since its key was registered. -/
structure WalletState where
  chain : ChainState
  wallet : KeyWallet
  requested : Bool
  /-- A replacement was accepted by the memory pool. -/
  accepted : Bool

/-- The calls. -/
inductive WalletLabel where
  /-- `createwalletuser`, with the key it makes and whether it could be written. -/
  | create (username : Bytes) (replaceKey : Bool) (new : NewKey) (written : Bool)
  /-- `sendnewusertransaction`, with the nonce that `DoTxProofOfWork` leaves. -/
  | send (username : Bytes) (nonce : Nat)
  | chain (chain : ChainState)
  | lock (locked : Bool)

section Runs

variable (env : Env) (sign : Bytes → Uint256 → Option Bytes) (fuel : Nat) (u : Bytes)

/-- The state after a step, seen for the user `u`. -/
def WalletState.next (s : WalletState) : WalletLabel → WalletState
  | .create username replaceKey new written =>
    match createwalletuser env fuel s.chain s.wallet username replaceKey new written with
    | .error _ => s
    | .ok (_, wallet) =>
      { s with wallet := wallet, requested := s.requested || (replaceKey && username == u) }
  | .send username nonce =>
    let replaces := (s.wallet.getKeyIdBeingReplaced username).isSome && username == u
    let (result, wallet, chain) :=
      sendnewusertransaction env sign fuel s.chain s.wallet username nonce
    { s with
      chain := chain
      wallet := wallet
      accepted := s.accepted || (replaces && result.isOk) }
  | .chain chain =>
    let same := registeredID env fuel chain u == registeredID env fuel s.chain u
    { s with chain := chain, requested := same && s.requested, accepted := same && s.accepted }
  | .lock locked => { s with wallet := { s.wallet with isLocked := locked } }

/-- New keys are valid and new, and a nonce is the one its search ends with. -/
def WalletState.can (s : WalletState) : WalletLabel → Prop
  | .create _ _ new _ =>
    new.Valid env sign ∧ s.wallet.keys.lookup (env.hash160 new.pubkey) = none ∧
      s.wallet.mapKeyMetadata.lookup (env.hash160 new.pubkey) = none ∧
      registeredID env fuel s.chain u ≠ some (env.hash160 new.pubkey)
  | .send username nonce =>
    ∀ replaceKey tx, newUserTransaction env sign fuel s.chain s.wallet username nonce =
      .ok (replaceKey, tx) → DoTxProofOfWork env tx
  | .chain _ | .lock _ => True

/-- The runs of a wallet, from its start with no note about a replacement. -/
def walletSystem : System WalletState WalletLabel where
  init s := s.wallet.Sound env sign ∧ s.wallet.mapKeyReplacement = [] ∧
    s.requested = false ∧ s.accepted = false
  step s a s' := s.can env sign fuel u a ∧ s' = s.next env sign fuel u a

/-- A request notes the key on the chain: it is moved and nothing else is noted, or it is noted
and the moved key comes behind it. -/
def RequestOK (s : WalletState) : Prop :=
  ∀ registered keyID, registeredID env fuel s.chain u = some registered →
    s.wallet.haveKey registered = true → s.wallet.getKeyIdFromUsername u = some keyID →
    (s.wallet.getKeyIdBeingReplaced u = none ∧ keyID = registered ∧
        s.wallet.mapKeyReplacement.lookup registered = none) ∨
      (s.wallet.getKeyIdBeingReplaced u = some registered ∧ registered < keyID)

/-- A replacement passes the pool's checks that do not depend on the chain and is not in the
pool. -/
def SendOK (s : WalletState) (nonce : Nat) : Prop :=
  ∀ tx, newUserTransaction env sign fuel s.chain s.wallet u nonce = .ok (true, tx) →
    poolChecks env tx = true ∧
      (s.chain.mapTx.any fun tx' => env.txHash tx' == env.txHash tx) = false

/-- The calls that keep the note about the key on the chain. -/
def KeepsNote (s : WalletState) : WalletLabel → Prop
  | .create username replaceKey _ _ => username = u → replaceKey = true → RequestOK env fuel u s
  | .send username nonce => username = u → SendOK env sign fuel u s nonce
  | .chain _ | .lock _ => True

end Runs

/-! ## What the functions of the wallet do -/

section Functions

variable {env : Env} {sign : Bytes → Uint256 → Option Bytes} {fuel : Nat} {chain : ChainState}
variable {w w' : KeyWallet} {u username : Bytes} {new : NewKey} {keyID : Nat}

namespace KeyWallet

/-- The wallet has a key of the user. -/
def Names (w : KeyWallet) (username : Bytes) : Prop :=
  ∃ keyID data, w.mapKeyMetadata.lookup keyID = some data ∧ data.username = username

theorem Names.getKeyIdFromUsername (h : w.Names username) :
    ∃ keyID data, w.getKeyIdFromUsername username = some keyID ∧ (keyID, data) ∈ w.mapKeyMetadata ∧
      data.username = username := by
  obtain ⟨k, data, hlookup, hname⟩ := h
  have hfound : (w.mapKeyMetadata.find? fun m => m.2.username == username).isSome = true :=
    List.find?_isSome.mpr ⟨(k, data), mem_of_lookup hlookup, by simpa using hname⟩
  obtain ⟨m, hm⟩ := Option.isSome_iff_exists.mp hfound
  refine ⟨m.1, m.2, ?_, List.mem_of_find?_eq_some hm, by simpa using List.find?_some hm⟩
  rw [KeyWallet.getKeyIdFromUsername, hm, Option.map_some]

theorem moveKeyForReplacement_eq (h : w.moveKeyForReplacement username = some w') :
    ∃ keyID data, (keyID, data) ∈ w.mapKeyMetadata ∧ data.username = username ∧
      w.getKeyIdFromUsername username = some keyID ∧
      w' = { w with
        mapKeyReplacement := mapInsert keyID username w.mapKeyReplacement
        mapKeyMetadata := mapSet (· < ·) keyID
          { data with username := data.username ++ ascii "/replaced" } w.mapKeyMetadata } := by
  rw [moveKeyForReplacement] at h
  cases hfind : w.mapKeyMetadata.find? fun m => m.2.username == username with
  | none => simp [hfind] at h
  | some m =>
    simp only [hfind, Option.some.injEq] at h
    refine ⟨m.1, m.2, List.mem_of_find?_eq_some hfind, by simpa using List.find?_some hfind, ?_,
      h.symm⟩
    rw [getKeyIdFromUsername, hfind, Option.map_some]

theorem generateNewKey_eq (hlock : w.isLocked = false) (written : Bool) :
    (w.generateNewKey env username new written).2 = { w with
      mapKeyMetadata := mapSet (· < ·) (env.hash160 new.pubkey) ⟨username, []⟩ w.mapKeyMetadata
      keys := mapSet (· < ·) (env.hash160 new.pubkey) new.secret w.keys
      pubKeys := mapSet (· < ·) (env.hash160 new.pubkey) new.pubkey w.pubKeys } := by
  simp [generateNewKey, WalletKeys.setMetadata, WalletKeys.addKeyPubKey, hlock]

/-- Moving keeps the wallet sound. -/
theorem Sound.moveKeyForReplacement (h : w.Sound env sign)
    (hmove : w.moveKeyForReplacement username = some w') : w'.Sound env sign := by
  obtain ⟨keyID, data, hmem, -, -, rfl⟩ := moveKeyForReplacement_eq hmove
  refine ⟨h.sorted.mapSet _ _, ?_, ?_, h.keys⟩
  · simp only [mapInsert]
    split
    · exact h.notes
    · exact h.notes.mapSet _ _
  · intro k data' hlookup
    rw [lookup_mapSet] at hlookup
    split at hlookup
    · next hk => exact hk ▸ h.pubkeys keyID data (h.sorted.lookup_of_mem hmem)
    · exact h.pubkeys k data' hlookup

/-- A new key keeps the wallet sound. -/
theorem Sound.generateNewKey (h : w.Sound env sign) (hlock : w.isLocked = false)
    (hnew : new.Valid env sign) (written : Bool) :
    (w.generateNewKey env username new written).2.Sound env sign := by
  rw [generateNewKey_eq hlock]
  refine ⟨h.sorted.mapSet _ _, h.notes, ?_, ?_⟩
  · intro k data hlookup
    rw [lookup_mapSet] at hlookup ⊢
    split at hlookup
    · next hk => exact ⟨new.pubkey, if_pos hk, hnew.pubkey⟩
    · next hk =>
        obtain ⟨pubkey, hpub, hvalid⟩ := h.pubkeys k data hlookup
        exact ⟨pubkey, by rwa [if_neg hk], hvalid⟩
  · intro k key hlookup
    rw [lookup_mapSet] at hlookup
    split at hlookup
    · next hk =>
        cases hlookup
        exact hk ▸ hnew.signs
    · exact h.keys k key hlookup

theorem Names.moveKeyForReplacement (h : w.Names u) (hsound : w.Sound env sign)
    (hne : username ≠ u) (hmove : w.moveKeyForReplacement username = some w') : w'.Names u := by
  obtain ⟨keyID, data, hmem, hname, -, rfl⟩ := moveKeyForReplacement_eq hmove
  obtain ⟨k, data', hlookup, hname'⟩ := h
  refine ⟨k, data', ?_, hname'⟩
  have hk : k ≠ keyID := by
    rintro rfl
    rw [hsound.sorted.lookup_of_mem hmem] at hlookup
    cases hlookup
    exact hne (hname.symm.trans hname')
  rw [lookup_mapSet, if_neg hk]
  exact hlookup

theorem names_generateNewKey (hlock : w.isLocked = false) (written : Bool) :
    (w.generateNewKey env username new written).2.Names username := by
  rw [generateNewKey_eq hlock]
  exact ⟨env.hash160 new.pubkey, ⟨username, []⟩, by rw [lookup_mapSet, if_pos rfl], rfl⟩

theorem Names.generateNewKey (h : w.Names u) (hlock : w.isLocked = false)
    (hfresh : w.mapKeyMetadata.lookup (env.hash160 new.pubkey) = none) (written : Bool) :
    (w.generateNewKey env username new written).2.Names u := by
  rw [generateNewKey_eq hlock]
  obtain ⟨k, data, hlookup, hname⟩ := h
  refine ⟨k, data, ?_, hname⟩
  rw [lookup_mapSet, if_neg]
  · exact hlookup
  · rintro rfl
    rw [hfresh] at hlookup
    cases hlookup

/-! The note about a user, after a note was added. -/

/-- A note of another user is not found. -/
theorem note_other {m : List (Nat × Bytes)} (hne : username ≠ u) :
    (mapInsert keyID username m).find? (fun x => x.2 == u) = m.find? fun x => x.2 == u := by
  rw [mapInsert]
  split
  · rfl
  · next hlookup =>
      exact find?_mapSet_other (Option.not_isSome_iff_eq_none.mp hlookup) (by simpa using hne)

theorem note_only {m : List (Nat × Bytes)} (hnone : m.find? (fun x => x.2 == u) = none)
    (hlookup : m.lookup keyID = none) :
    (mapInsert keyID u m).find? (fun x => x.2 == u) = some (keyID, u) := by
  rw [mapInsert, if_neg (by simp [hlookup])]
  exact find?_mapSet_only hnone (by simp)

/-- A note behind another is not found. -/
theorem note_behind {m : List (Nat × Bytes)} {x : Nat × Bytes} (h : IdsSorted m)
    (hfind : m.find? (fun x => x.2 == u) = some x) (hlt : x.1 < keyID) :
    (mapInsert keyID u m).find? (fun x => x.2 == u) = some x := by
  rw [mapInsert]
  split
  · exact hfind
  · exact h.find?_mapSet_behind hfind hlt

end KeyWallet

/-- A call past its tests moves the old key, if one is replaced, and makes a new one. -/
theorem createwalletuser_ok {replaceKey written added : Bool}
    (h : createwalletuser env fuel chain w username replaceKey new written = .ok (added, w')) :
    w.isLocked = false ∧
      ∃ moved, (if replaceKey then w.moveKeyForReplacement username else some w) = some moved ∧
        w' = (moved.generateNewKey env username new written).2 := by
  rw [createwalletuser] at h
  cases hlock : w.isLocked with
  | true => simp [hlock] at h
  | false =>
    refine ⟨rfl, ?_⟩
    simp only [hlock, Bool.false_eq_true, if_false] at h
    split at h
    · cases h
    split at h
    · cases h
    split at h
    · cases h
    split at h
    · cases h
    split at h
    · cases h
    · next moved hmoved =>
        refine ⟨moved, hmoved, ?_⟩
        rw [Except.ok.injEq] at h
        rw [h]

end Functions

/-! ## The transaction -/

section Transaction

variable {env : Env} {sign : Bytes → Uint256 → Option Bytes} {fuel : Nat} {chain : ChainState}
variable {w : KeyWallet} {u key : Bytes} {registered : Nat} {tx : CTransaction}
variable {newKey : Bytes}

theorem getTransaction_pool (pool : List CTransaction) (username : Bytes) (maxHeight : Int) :
    getTransaction env fuel { chain with mapTx := pool } username maxHeight =
      getTransaction env fuel chain username maxHeight := by
  have hsame : SameUser username chain { chain with mapTx := pool } :=
    ⟨⟨rfl, rfl, rfl, rfl, List.Subset.refl _, rfl⟩, fun _ => rfl⟩
  exact hsame.getTransaction env fuel maxHeight

theorem registeredID_pool (pool : List CTransaction) :
    registeredID env fuel { chain with mapTx := pool } u = registeredID env fuel chain u := by
  rw [registeredID, registeredID, getTransaction_pool]

theorem registeredID_eq_some (h : registeredID env fuel chain u = some registered) :
    ∃ old hash oldKey, getTransaction env fuel chain u (-1) = .ok (some (old, hash)) ∧
      registeredKey old = some oldKey ∧ env.hash160 oldKey = registered := by
  rw [registeredID] at h
  split at h
  · next old hash hget =>
      obtain ⟨oldKey, hkey, hid⟩ := Option.map_eq_some_iff.mp h
      exact ⟨old, hash, oldKey, hget, hkey, hid⟩
  · cases h

theorem getTransactionFrom_username {username : Bytes} {maxHeight : Int} {hash : Uint256} :
    ∀ {fuel : Nat} {height : Int}, getTransactionFrom env chain username maxHeight fuel height =
      .ok (some (tx, hash)) → tx.getUsername = username
  | 0, _, h => by cases h
  | fuel + 1, height, h => by
    rw [getTransactionFrom] at h
    split at h
    · cases h
    split at h
    · cases h
    split at h
    · cases h
    next hname =>
    split at h
    · cases h
    split at h
    · cases h
    split at h
    · cases h
    split at h
    · split at h
      · exact getTransactionFrom_username h
      · cases h
    · cases h
      exact not_not.mp hname

theorem length_getUsername (tx : CTransaction) : tx.getUsername.length < 76 := by
  rw [CTransaction.getUsername]
  split
  · next hsmall =>
      rw [CScript.extractSmallString, if_pos hsmall]
      cases hscript : tx.userName with
      | nil => decide
      | cons opSize rest =>
        rw [hscript, CScript.isSmallString, Bool.and_eq_true, decide_eq_true_eq, beq_iff_eq,
          UInt8.lt_iff_toNat_lt] at hsmall
        rw [List.tail_cons, hsmall.2]
        exact hsmall.1
  · decide

theorem length_of_registeredID (h : registeredID env fuel chain u = some registered) :
    u.length < 76 := by
  obtain ⟨old, hash, -, hget, -, -⟩ := registeredID_eq_some h
  rw [← getTransactionFrom_username hget]
  exact length_getUsername old

/-- A replacement. -/
def replacementTx (u newKey sig : Bytes) (nonce : Nat) : CTransaction :=
  { userName := CScript.push u, pubKey := CScript.push newKey ++ CScript.push sig, nNonce := nonce }

theorem getUsername_replacementTx {sig : Bytes} {nonce : Nat} (hu : u.length < 76) :
    (replacementTx u newKey sig nonce).getUsername = u := by
  obtain ⟨hsmall, hextract⟩ := CScript.extractSmallString_push hu
  rw [CTransaction.getUsername, replacementTx, if_pos hsmall, hextract]

theorem extractPushData_replacementTx {sig : Bytes} {nonce : Nat}
    (hkey : newKey.length < 256 ^ 4) (hsig : sig.length < 256 ^ 4) :
    CScript.extractPushData (replacementTx u newKey sig nonce).pubKey = some [newKey, sig] := by
  have hpushes : (replacementTx u newKey sig nonce).pubKey = CScript.pushAll [newKey, sig] := by
    simp [replacementTx, CScript.pushAll]
  rw [hpushes]
  refine CScript.extractPushData_pushAll fun b hb => ?_
  rcases List.mem_pair.mp hb with rfl | rfl
  · exact hkey
  · exact hsig

theorem length_cPubKey (b : Bytes) : (cPubKey b).length ≤ 65 := by
  cases b with
  | nil => exact Nat.zero_le _
  | cons header rest =>
    have hbound : ∀ len ≤ 65,
        (if rest.length + 1 = len then header :: rest else []).length ≤ 65 := by
      intro len hlen
      split
      · next h => rwa [List.length_cons, h]
      · exact Nat.zero_le _
    refine hbound _ ?_
    split_ifs <;> decide

/-- What `sendnewusertransaction` builds when the key on the chain is noted. -/
theorem newUserTransaction_noted (hsound : w.Sound env sign) (hnames : w.Names u)
    (hreg : registeredID env fuel chain u = some registered)
    (hnote : w.getKeyIdBeingReplaced u = some registered) (nonce : Nat) :
    ∃ newKey, newKey.length < 256 ^ 4 ∧
      newUserTransaction env sign fuel chain w u nonce =
        let sig := w.createSignature env sign newKey registered
        if sig = [] then
          .error (.rpc rpcInvalidParameter "signedByOldKey must be hexadecimal string (not '')")
        else .ok (true, replacementTx u newKey sig nonce) := by
  obtain ⟨keyID, data, hkeyID, hmem, -⟩ := hnames.getKeyIdFromUsername
  obtain ⟨newKey, hpub, hvalid, hne⟩ :=
    hsound.pubkeys keyID data (hsound.sorted.lookup_of_mem hmem)
  obtain ⟨old, hash, -, hget, -, -⟩ := registeredID_eq_some hreg
  refine ⟨newKey, ?_, ?_⟩
  · have hlen := length_cPubKey newKey
    rw [hvalid] at hlen
    exact Nat.lt_of_le_of_lt hlen (by decide)
  · have hcPubKey : cPubKey newKey ≠ [] := by rwa [hvalid]
    simp only [newUserTransaction, hkeyID, hpub, hget, hnote, Option.isNone_some,
      Option.isSome_some, Bool.false_and, Bool.and_false, Bool.false_eq_true, if_false,
      Option.map_some, createrawtransaction, if_neg hcPubKey, replacementTx]
    split <;> rfl

/-- The transaction is signed by the key on the chain and replaces it. -/
theorem newUserTransaction_signed (hsound : w.Sound env sign)
    (hnames : w.Names u) (hreg : registeredID env fuel chain u = some registered)
    (hnote : w.getKeyIdBeingReplaced u = some registered)
    (hkey : w.keys.lookup registered = some key) (hlock : w.isLocked = false) (nonce : Nat) :
    ∃ tx newKey sig, newUserTransaction env sign fuel chain w u nonce = .ok (true, tx) ∧
      CScript.extractPushData tx.pubKey = some [newKey, sig] ∧
      sign key (env.messageHash newKey) = some sig ∧
      verifyDuplicateOrReplacementTx env fuel chain tx false true (-1) false = .ok (true, chain) ∧
      chainTest env fuel chain tx = .ok true := by
  have hu := length_of_registeredID hreg
  obtain ⟨newKey, hlen, hbuilt⟩ := newUserTransaction_noted hsound hnames hreg hnote nonce
  obtain ⟨sig, pubkey, hsig, hne, hsiglen, hrecover, hid⟩ :=
    hsound.keys registered key hkey (env.messageHash newKey)
  obtain ⟨old, hash, oldKey, hget, hold, hregid⟩ := registeredID_eq_some hreg
  have hcreate : w.createSignature env sign newKey registered = sig := by
    rw [KeyWallet.createSignature, WalletKeys.getKey, hlock]
    simp [hkey, hsig]
  simp only [hcreate, if_neg hne] at hbuilt
  have hpushes : CScript.extractPushData (replacementTx u newKey sig nonce).pubKey =
      some [newKey, sig] := extractPushData_replacementTx hlen hsiglen
  have huser : (replacementTx u newKey sig nonce).getUsername = u := getUsername_replacementTx hu
  have hreplaces : isKeyReplacement env old (replacementTx u newKey sig nonce) = true :=
    (isKeyReplacement_iff hpushes hrecover).mpr ⟨oldKey, hold, hid.trans hregid.symm⟩
  refine ⟨_, newKey, sig, hbuilt, hpushes, hsig, ?_, ?_⟩
  · rw [verifyReplacement_eq (by rw [huser]; exact hget), Option.any_some, hreplaces]
  · rw [chainTest_eq, huser, hget]
    simp [Except.map, hreplaces]

/-- Without a note there is no transaction for a user who is on the chain. -/
theorem newUserTransaction_unnoted {keyID : Nat}
    (hreg : registeredID env fuel chain u = some registered)
    (hkeyID : w.getKeyIdFromUsername u = some keyID) (hpub : w.pubKeys.lookup keyID = some newKey)
    (hnote : w.getKeyIdBeingReplaced u = none) (nonce : Nat) :
    newUserTransaction env sign fuel chain w u nonce =
      .error (.rpc rpcWalletInvalidAccountName "Error: this username exists in tx database") := by
  obtain ⟨old, hash, -, hget, -, -⟩ := registeredID_eq_some hreg
  simp [newUserTransaction, hkeyID, hpub, hget, hnote]

theorem newUserTransaction_locked (hsound : w.Sound env sign) (hnames : w.Names u)
    (hreg : registeredID env fuel chain u = some registered)
    (hnote : w.getKeyIdBeingReplaced u = some registered) (hlock : w.isLocked = true)
    (nonce : Nat) : ∃ e, newUserTransaction env sign fuel chain w u nonce = .error e := by
  obtain ⟨newKey, -, hbuilt⟩ := newUserTransaction_noted hsound hnames hreg hnote nonce
  have hcreate : w.createSignature env sign newKey registered = [] := by
    rw [KeyWallet.createSignature, WalletKeys.getKey, hlock]
    rfl
  exact ⟨_, by simpa [hcreate] using hbuilt⟩

/-- What a call leaves of the chain: at most the memory pool grows. -/
theorem sendrawtransaction_chain {chain' : ChainState}
    (h : sendrawtransaction env fuel chain tx = .ok chain') :
    ∃ pool, chain' = { chain with mapTx := pool } := by
  rw [sendrawtransaction] at h
  split at h
  · cases h
  split at h
  · cases h
  split at h
  · split at h
    · cases h
    · cases h
    · next pool hpool =>
        cases h
        rw [mempoolAccept_eq] at hpool
        split at hpool
        · cases hfit : chainTest env fuel chain tx with
          | error e => simp [hfit, Except.map] at hpool
          | ok fit =>
            cases fit with
            | false => simp [hfit, Except.map] at hpool
            | true =>
              simp only [hfit, Except.map, Bool.not_false, Bool.and_self, if_true,
                Except.ok.injEq, Prod.mk.injEq, true_and] at hpool
              exact ⟨_, hpool.symm⟩
        · cases hpool
  · split at h
    · cases h
    split at h
    · cases h
    · cases h
      exact ⟨chain.mapTx, rfl⟩

/-- A replacement that passes the checks gets into the memory pool. -/
theorem sendrawtransaction_replacement
    (hverify : verifyDuplicateOrReplacementTx env fuel chain tx false true (-1) false =
      .ok (true, chain))
    (htest : chainTest env fuel chain tx = .ok true) (hchecks : poolChecks env tx = true)
    (hnew : (chain.mapTx.any fun tx' => env.txHash tx' == env.txHash tx) = false) :
    ∃ chain', sendrawtransaction env fuel chain tx = .ok chain' := by
  have haccept : mempoolAccept env fuel chain tx false false =
      .ok (true, { chain with mapTx := chain.mapTx ++ [tx] }) := by
    rw [mempoolAccept_eq, hchecks, hnew, htest]
    rfl
  obtain ⟨found, hget⟩ : ∃ found, getTransaction env fuel chain tx.getUsername (-1) =
      .ok found := by
    rw [verifyDuplicateOrReplacementTx] at hverify
    cases hget : getTransaction env fuel chain tx.getUsername (-1) with
    | error e => simp [hget] at hverify
    | ok found => exact ⟨found, rfl⟩
  refine ⟨{ chain with mapTx := chain.mapTx ++ [tx] }, ?_⟩
  rw [sendrawtransaction, hget, hverify, haccept]
  rfl

end Transaction

/-! ## The note -/

section Note

variable {env : Env} {sign : Bytes → Uint256 → Option Bytes} {fuel : Nat} {u : Bytes}
variable {s s' : WalletState} {username : Bytes}

/-- From a request to an accepted replacement the key on the chain is noted if the wallet has it. -/
structure NoteInv (env : Env) (sign : Bytes → Uint256 → Option Bytes) (fuel : Nat) (u : Bytes)
    (s : WalletState) : Prop where
  sound : s.wallet.Sound env sign
  names : s.requested = true → s.wallet.Names u
  /-- The key on the chain is the one that will sign. -/
  note : s.requested = true → s.accepted = false → ∀ registered,
    registeredID env fuel s.chain u = some registered → s.wallet.haveKey registered = true →
    s.wallet.getKeyIdBeingReplaced u = some registered

theorem KeyWallet.getKeyIdBeingReplaced_eq_some {w : KeyWallet} {keyID : Nat}
    (h : w.getKeyIdBeingReplaced u = some keyID) :
    w.mapKeyReplacement.find? (fun m => m.2 == u) = some (keyID, u) := by
  obtain ⟨m, hfind, hid⟩ := Option.map_eq_some_iff.mp h
  have hname : m.2 = u := by simpa using List.find?_some hfind
  rw [hfind, ← hid, ← hname]

/-- The note of `u` after a key was moved. -/
theorem KeyWallet.getKeyIdBeingReplaced_move {w moved : KeyWallet}
    (hmove : w.moveKeyForReplacement username = some moved) (hne : username ≠ u) :
    moved.getKeyIdBeingReplaced u = w.getKeyIdBeingReplaced u := by
  obtain ⟨keyID, -, -, -, -, rfl⟩ := KeyWallet.moveKeyForReplacement_eq hmove
  rw [KeyWallet.getKeyIdBeingReplaced, KeyWallet.getKeyIdBeingReplaced, KeyWallet.note_other hne]

/-- A request that is made with care notes the key on the chain. -/
theorem RequestOK.noted {moved : KeyWallet} {registered : Nat} (h : RequestOK env fuel u s)
    (hsorted : IdsSorted s.wallet.mapKeyReplacement)
    (hmove : s.wallet.moveKeyForReplacement u = some moved)
    (hreg : registeredID env fuel s.chain u = some registered)
    (hkey : s.wallet.haveKey registered = true) :
    moved.getKeyIdBeingReplaced u = some registered := by
  obtain ⟨keyID, data, -, -, hid, rfl⟩ := KeyWallet.moveKeyForReplacement_eq hmove
  rw [KeyWallet.getKeyIdBeingReplaced]
  rcases h registered keyID hreg hkey hid with ⟨hnone, rfl, hlookup⟩ | ⟨hnote, hlt⟩
  · have hfind := Option.map_eq_none_iff.mp hnone
    rw [KeyWallet.note_only hfind hlookup, Option.map_some]
  · have hfind := KeyWallet.getKeyIdBeingReplaced_eq_some hnote
    rw [KeyWallet.note_behind hsorted hfind hlt, Option.map_some]

theorem NoteInv.create {replaceKey written : Bool} {new : NewKey} (inv : NoteInv env sign fuel u s)
    (hok : KeepsNote env sign fuel u s (.create username replaceKey new written))
    (hcan : s.can env sign fuel u (.create username replaceKey new written)) :
    NoteInv env sign fuel u (s.next env sign fuel u (.create username replaceKey new written)) := by
  rw [WalletState.next]
  split
  · exact inv
  next added wallet hcall =>
    obtain ⟨hvalid, hfresh, hmeta, hother⟩ := hcan
    obtain ⟨hlock, moved, hmoved, rfl⟩ := createwalletuser_ok hcall
    obtain ⟨hlock', hkeys', hsound', hmeta'⟩ : moved.isLocked = false ∧
        moved.keys = s.wallet.keys ∧ moved.Sound env sign ∧
        moved.mapKeyMetadata.lookup (env.hash160 new.pubkey) = none := by
      cases replaceKey with
      | false =>
        cases hmoved
        exact ⟨hlock, rfl, inv.sound, hmeta⟩
      | true =>
        have hsound := inv.sound.moveKeyForReplacement hmoved
        obtain ⟨keyID, data, hmem, -, -, rfl⟩ := KeyWallet.moveKeyForReplacement_eq hmoved
        refine ⟨hlock, rfl, hsound, ?_⟩
        rw [lookup_mapSet, if_neg]
        · exact hmeta
        · intro hid
          rw [hid, inv.sound.sorted.lookup_of_mem hmem] at hmeta
          cases hmeta
    refine ⟨hsound'.generateNewKey hlock' hvalid written, ?_, ?_⟩
    · intro hreq
      by_cases hname : username = u
      · exact hname ▸ KeyWallet.names_generateNewKey hlock' written
      · have hnames : s.wallet.Names u := inv.names (by simpa [hname] using hreq)
        refine KeyWallet.Names.generateNewKey ?_ hlock' hmeta' written
        cases replaceKey with
        | false =>
          cases hmoved
          exact hnames
        | true => exact hnames.moveKeyForReplacement inv.sound hname hmoved
    · intro hreq hacc registered hreg hhave
      have hne : registered ≠ env.hash160 new.pubkey := by
        rintro rfl
        exact hother hreg
      have hheld : s.wallet.haveKey registered = true := by
        rw [KeyWallet.generateNewKey_eq hlock'] at hhave
        simpa [WalletKeys.haveKey, lookup_mapSet, if_neg hne, hkeys'] using hhave
      have hnote : moved.getKeyIdBeingReplaced u = some registered := by
        cases replaceKey with
        | false =>
          cases hmoved
          exact inv.note (by simpa using hreq) hacc registered hreg hheld
        | true =>
          by_cases hname : username = u
          · subst hname
            exact (hok rfl rfl).noted inv.sound.notes hmoved hreg hheld
          · rw [KeyWallet.getKeyIdBeingReplaced_move hmoved hname]
            exact inv.note (by simpa [hname] using hreq) hacc registered hreg hheld
      rw [KeyWallet.generateNewKey_eq hlock']
      exact hnote

/-! The outcomes of `sendnewusertransaction`. -/

section Send

variable {nonce : Nat} {replaceKey : Bool} {tx : CTransaction}

/-- The wallet without the note. -/
def WalletState.forgets (s : WalletState) (username : Bytes) (replaceKey : Bool) : KeyWallet :=
  if replaceKey then s.wallet.forgetReplacementMap username else s.wallet

/-- A transaction that is not built changes nothing. -/
theorem WalletState.next_send_unbuilt {e : CallError}
    (h : newUserTransaction env sign fuel s.chain s.wallet username nonce = .error e) :
    s.next env sign fuel u (.send username nonce) = s := by
  simp [WalletState.next, sendnewusertransaction, h, Except.isOk, Except.toBool]

/-- A rejected one costs the note. -/
theorem WalletState.next_send_rejected {e : CallError}
    (h : newUserTransaction env sign fuel s.chain s.wallet username nonce = .ok (replaceKey, tx))
    (hsend : sendrawtransaction env fuel s.chain tx = .error e) :
    s.next env sign fuel u (.send username nonce) =
      { s with wallet := s.forgets username replaceKey } := by
  simp [WalletState.next, sendnewusertransaction, h, hsend, Except.isOk, Except.toBool,
    WalletState.forgets]

/-- An accepted one is in the pool. -/
theorem WalletState.next_send_accepted {chain : ChainState}
    (h : newUserTransaction env sign fuel s.chain s.wallet username nonce = .ok (replaceKey, tx))
    (hsend : sendrawtransaction env fuel s.chain tx = .ok chain) :
    s.next env sign fuel u (.send username nonce) =
      { s with
        chain := chain
        wallet := s.forgets username replaceKey
        accepted := s.accepted ||
          ((s.wallet.getKeyIdBeingReplaced username).isSome && username == u) } := by
  simp [WalletState.next, sendnewusertransaction, h, hsend, Except.isOk, Except.toBool,
    WalletState.forgets]

theorem KeyWallet.Sound.forgets (h : s.wallet.Sound env sign) (username : Bytes)
    (replaceKey : Bool) : (s.forgets username replaceKey).Sound env sign := by
  cases replaceKey with
  | false => exact h
  | true => exact ⟨h.sorted, h.notes.sublist List.eraseP_sublist, h.pubkeys, h.keys⟩

theorem WalletState.forgets_keys (s : WalletState) (username : Bytes) (replaceKey : Bool) :
    (s.forgets username replaceKey).keys = s.wallet.keys ∧
      (s.forgets username replaceKey).mapKeyMetadata = s.wallet.mapKeyMetadata := by
  cases replaceKey <;> exact ⟨rfl, rfl⟩

theorem WalletState.forgets_other (hne : username ≠ u) :
    (s.forgets username replaceKey).getKeyIdBeingReplaced u = s.wallet.getKeyIdBeingReplaced u := by
  cases replaceKey with
  | false => rfl
  | true =>
    have hother : ∀ m : Nat × Bytes, (m.2 == u) = true → (m.2 == username) = false := by
      intro m hm
      rw [beq_iff_eq] at hm
      rw [hm, beq_eq_false_iff_ne]
      exact hne.symm
    exact congrArg (Option.map Prod.fst) (find?_eraseP_other hother)

/-- The transaction of `u` is accepted if the key on the chain is noted. -/
theorem NoteInv.accepts {registered : Nat} (inv : NoteInv env sign fuel u s)
    (hok : SendOK env sign fuel u s nonce)
    (hbuilt : newUserTransaction env sign fuel s.chain s.wallet u nonce = .ok (replaceKey, tx))
    (hreq : s.requested = true) (hacc : s.accepted = false)
    (hreg : registeredID env fuel s.chain u = some registered)
    (hheld : s.wallet.haveKey registered = true) :
    (s.wallet.getKeyIdBeingReplaced u).isSome = true ∧
      ∃ chain', sendrawtransaction env fuel s.chain tx = .ok chain' := by
  have hnote := inv.note hreq hacc registered hreg hheld
  refine ⟨by rw [hnote]; rfl, ?_⟩
  obtain ⟨key, hkey⟩ := Option.isSome_iff_exists.mp hheld
  cases hlock : s.wallet.isLocked with
  | true =>
    obtain ⟨e, herror⟩ :=
      newUserTransaction_locked inv.sound (inv.names hreq) hreg hnote hlock nonce
    rw [herror] at hbuilt
    cases hbuilt
  | false =>
    obtain ⟨tx', -, -, hbuilt', -, -, hverify, htest⟩ :=
      newUserTransaction_signed inv.sound (inv.names hreq) hreg hnote hkey hlock nonce
    rw [hbuilt'] at hbuilt
    cases hbuilt
    obtain ⟨hchecks, hnew⟩ := hok _ hbuilt'
    exact sendrawtransaction_replacement hverify htest hchecks hnew

theorem NoteInv.send (inv : NoteInv env sign fuel u s)
    (hok : KeepsNote env sign fuel u s (.send username nonce)) :
    NoteInv env sign fuel u (s.next env sign fuel u (.send username nonce)) := by
  cases hbuilt : newUserTransaction env sign fuel s.chain s.wallet username nonce with
  | error e =>
    rw [WalletState.next_send_unbuilt hbuilt]
    exact inv
  | ok built =>
  obtain ⟨replaceKey, tx⟩ := built
  obtain ⟨hkeys, hmeta⟩ := s.forgets_keys username replaceKey
  have hnames : s.requested = true → (s.forgets username replaceKey).Names u := by
    intro hreq
    rw [KeyWallet.Names, hmeta]
    exact inv.names hreq
  cases hsend : sendrawtransaction env fuel s.chain tx with
  | error e =>
    rw [WalletState.next_send_rejected hbuilt hsend]
    refine ⟨inv.sound.forgets username replaceKey, hnames, ?_⟩
    intro hreq hacc registered hreg hheld
    rw [WalletKeys.haveKey, hkeys] at hheld
    by_cases hname : username = u
    · subst hname
      obtain ⟨-, chain', hsend'⟩ := inv.accepts (hok rfl) hbuilt hreq hacc hreg hheld
      rw [hsend] at hsend'
      cases hsend'
    · exact (WalletState.forgets_other hname).trans (inv.note hreq hacc registered hreg hheld)
  | ok chain' =>
    rw [WalletState.next_send_accepted hbuilt hsend]
    obtain ⟨pool, rfl⟩ := sendrawtransaction_chain hsend
    refine ⟨inv.sound.forgets username replaceKey, hnames, ?_⟩
    intro hreq hacc registered hreg hheld
    rw [registeredID_pool] at hreg
    rw [WalletKeys.haveKey, hkeys] at hheld
    obtain ⟨hopen, hreplaces⟩ := Bool.or_eq_false_iff.mp hacc
    by_cases hname : username = u
    · subst hname
      obtain ⟨hsome, -⟩ := inv.accepts (hok rfl) hbuilt hreq hopen hreg hheld
      simp [hsome] at hreplaces
    · exact (WalletState.forgets_other hname).trans (inv.note hreq hopen registered hreg hheld)

end Send

theorem NoteInv.next {a : WalletLabel} (inv : NoteInv env sign fuel u s)
    (hok : KeepsNote env sign fuel u s a) (hcan : s.can env sign fuel u a) :
    NoteInv env sign fuel u (s.next env sign fuel u a) := by
  cases a with
  | create username replaceKey new written => exact inv.create hok hcan
  | send username nonce => exact inv.send hok
  | chain chain =>
    refine ⟨inv.sound, ?_, ?_⟩
    · intro hreq
      exact inv.names (Bool.and_eq_true_iff.mp hreq).2
    · intro hreq hacc registered hreg hheld
      obtain ⟨hsame, hreq⟩ := Bool.and_eq_true_iff.mp hreq
      have hacc : s.accepted = false := by simpa [WalletState.next, hsame] using hacc
      rw [beq_iff_eq] at hsame
      exact inv.note hreq hacc registered (hsame ▸ hreg) hheld
  | lock locked => exact ⟨⟨inv.sound.sorted, inv.sound.notes, inv.sound.pubkeys, inv.sound.keys⟩,
      inv.names, inv.note⟩

theorem noteInv_of_reach
    (h : (walletSystem env sign fuel u).Reach (KeepsNote env sign fuel u) s) :
    NoteInv env sign fuel u s := by
  refine h.invariant ?_ ?_
  · rintro s ⟨hsound, -, hreq, -⟩
    have hnot : s.requested ≠ true := by simp [hreq]
    exact ⟨hsound, fun h => absurd h hnot, fun h => absurd h hnot⟩
  · rintro s a s' inv hok ⟨hcan, rfl⟩
    exact inv.next hok hcan

/-- In a run whose calls keep the note, after a request and with the key in the unlocked wallet,
the next transaction is signed by the key on the chain and is a replacement. -/
theorem replacement_signed {registered nonce : Nat}
    (h : (walletSystem env sign fuel u).Reach (KeepsNote env sign fuel u) s)
    (hreq : s.requested = true) (hacc : s.accepted = false)
    (hreg : registeredID env fuel s.chain u = some registered)
    (hheld : s.wallet.haveKey registered = true) (hlock : s.wallet.isLocked = false) :
    ∃ tx newKey sig key, newUserTransaction env sign fuel s.chain s.wallet u nonce =
      .ok (true, tx) ∧
      CScript.extractPushData tx.pubKey = some [newKey, sig] ∧
      s.wallet.keys.lookup registered = some key ∧
      sign key (env.messageHash newKey) = some sig ∧
      verifyDuplicateOrReplacementTx env fuel s.chain tx false true (-1) false =
        .ok (true, s.chain) := by
  have inv := noteInv_of_reach h
  obtain ⟨key, hkey⟩ := Option.isSome_iff_exists.mp hheld
  obtain ⟨tx, newKey, sig, hbuilt, hpushes, hsig, hverify, -⟩ :=
    newUserTransaction_signed inv.sound (inv.names hreq) hreg
      (inv.note hreq hacc registered hreg hheld) hkey hlock nonce
  exact ⟨tx, newKey, sig, key, hbuilt, hpushes, hkey, hsig, hverify⟩

end Note

/-! ### A wallet with the key of alice -/

/-- A small key. -/
def smallKey (k : UInt8) : NewKey := ⟨[k], numberedKey k⟩

/-- Its id. -/
def smallID (k : UInt8) : Nat := signNet.hash160 (numberedKey k)

/-- Its signatures. -/
def smallSign : Bytes → Uint256 → Option Bytes
  | [k], hash => some [k, UInt8.ofNat (hash % 251)]
  | _, _ => none

/-- The network with other hashes. -/
def hashNet (txHash : CTransaction → Uint256) : Env := { signNet with txHash := txHash }

theorem smallSign_signs (txHash : CTransaction → Uint256) (k : UInt8) :
    Signs (hashNet txHash) smallSign (smallID k) [k] := by
  intro hash
  have hbyte : (UInt8.ofNat (hash % 251)).toNat = hash % 251 :=
    UInt8.toNat_ofNat_of_lt' (Nat.lt_trans (Nat.mod_lt hash (by decide)) (by decide))
  refine ⟨_, numberedKey k, rfl, by simp, by simp, ?_, rfl⟩
  simp only [hashNet, signNet, hbyte, if_true]
  rfl

theorem smallKey_valid (txHash : CTransaction → Uint256) (k : UInt8) :
    (smallKey k).Valid (hashNet txHash) smallSign :=
  ⟨⟨rfl, List.cons_ne_nil _ _⟩, smallSign_signs txHash k⟩

/-- The wallet of alice with her registered key. -/
def aliceStart : WalletState where
  chain := keyState 2
  wallet :=
    { mapKeyMetadata := [(smallID 1, ⟨ascii "alice", []⟩)]
      keys := [(smallID 1, [1])]
      pubKeys := [(smallID 1, numberedKey 1)] }
  requested := false
  accepted := false

theorem aliceStart_sound (txHash : CTransaction → Uint256) :
    aliceStart.wallet.Sound (hashNet txHash) smallSign where
  sorted := List.pairwise_singleton _ _
  notes := List.Pairwise.nil
  pubkeys keyID data h := by
    obtain ⟨rfl, -⟩ : keyID = smallID 1 ∧ _ := by simpa [aliceStart] using mem_of_lookup h
    exact ⟨numberedKey 1, by simp [aliceStart], rfl, List.cons_ne_nil _ _⟩
  keys keyID key h := by
    obtain ⟨rfl, rfl⟩ : keyID = smallID 1 ∧ key = [1] := by
      simpa [aliceStart] using mem_of_lookup h
    exact smallSign_signs txHash 1

/-- A request for a replacement. -/
def aliceRequest (k : UInt8) : WalletLabel := .create (ascii "alice") true (smallKey k) true

/-- The wallet of alice can start, and a request with a new key can follow. -/
theorem aliceStart_init (txHash : CTransaction → Uint256) :
    (walletSystem (hashNet txHash) smallSign 8 (ascii "alice")).init aliceStart :=
  ⟨aliceStart_sound txHash, rfl, rfl, rfl⟩

theorem request_step {txHash : CTransaction → Uint256} {s : WalletState} {k : UInt8}
    (hkeys : s.wallet.haveKey (smallID k) = false)
    (hmeta : (s.wallet.mapKeyMetadata.lookup (smallID k)).isNone = true)
    (hreg : registeredID (hashNet txHash) 8 s.chain (ascii "alice") ≠ some (smallID k)) :
    (walletSystem (hashNet txHash) smallSign 8 (ascii "alice")).step s (aliceRequest k)
      (s.next (hashNet txHash) smallSign 8 (ascii "alice") (aliceRequest k)) :=
  ⟨⟨smallKey_valid txHash k, Option.isSome_eq_false_iff.mp hkeys |> Option.isNone_iff_eq_none.mp,
    Option.isNone_iff_eq_none.mp hmeta, hreg⟩, rfl⟩

theorem replacement_signed_alice :
    let env := hashNet signNet.txHash
    let s := aliceStart.next env smallSign 8 (ascii "alice") (aliceRequest 2)
    (walletSystem env smallSign 8 (ascii "alice")).Reach
        (KeepsNote env smallSign 8 (ascii "alice")) s ∧
      ∃ tx newKey sig key,
        newUserTransaction env smallSign 8 s.chain s.wallet (ascii "alice") 14 = .ok (true, tx) ∧
        CScript.extractPushData tx.pubKey = some [newKey, sig] ∧
        s.wallet.keys.lookup (smallID 1) = some key ∧
        smallSign key (env.messageHash newKey) = some sig ∧
        verifyDuplicateOrReplacementTx env 8 s.chain tx false true (-1) false =
          .ok (true, s.chain) := by
  intro env s
  obtain ⟨⟨hkeys, hmeta, hreg⟩, ⟨hstart, hid, hnote, hlookup⟩, hreq, hacc, hreg', hheld, hlock⟩ :
      (aliceStart.wallet.haveKey (smallID 2) = false ∧
        (aliceStart.wallet.mapKeyMetadata.lookup (smallID 2)).isNone = true ∧
        registeredID env 8 aliceStart.chain (ascii "alice") ≠ some (smallID 2)) ∧
      (registeredID env 8 aliceStart.chain (ascii "alice") = some (smallID 1) ∧
        aliceStart.wallet.getKeyIdFromUsername (ascii "alice") = some (smallID 1) ∧
        aliceStart.wallet.getKeyIdBeingReplaced (ascii "alice") = none ∧
        aliceStart.wallet.mapKeyReplacement.lookup (smallID 1) = none) ∧
      s.requested = true ∧ s.accepted = false ∧
      registeredID env 8 s.chain (ascii "alice") = some (smallID 1) ∧
      s.wallet.haveKey (smallID 1) = true ∧ s.wallet.isLocked = false := by
    decide +kernel
  have hok : KeepsNote env smallSign 8 (ascii "alice") aliceStart (aliceRequest 2) := by
    intro _ _ registered keyID hregistered _ hkeyID
    obtain rfl := Option.some.inj (hstart.symm.trans hregistered)
    exact .inl ⟨hnote, Option.some.inj (hkeyID.symm.trans hid), hlookup⟩
  have hreach := System.Reach.step (.init (aliceStart_init signNet.txHash)) hok
    (request_step hkeys hmeta hreg)
  exact ⟨hreach, replacement_signed hreach hreq hacc hreg' hheld hlock⟩

/-- The transaction hash where no nonce does for a replacement. -/
def stuckHash (tx : CTransaction) : Uint256 := if 34 < tx.pubKey.length then 2 ^ 255 else tx.nNonce

theorem stuck_proofOfWork {newKey sig : Bytes} (hlen : 33 ≤ newKey.length) :
    DoTxProofOfWork (hashNet stuckHash)
      (replacementTx (ascii "alice") newKey sig (2 ^ 32 - 1)) := by
  have hpush : ∀ b : Bytes, b.length + 1 ≤ (CScript.push b).length := by
    intro b
    rw [CScript.push, List.length_append, Nat.add_comm]
    refine Nat.add_le_add_right ?_ _
    split_ifs <;> simp
  have hhash : ∀ n, (hashNet stuckHash).txHash
      { replacementTx (ascii "alice") newKey sig (2 ^ 32 - 1) with nNonce := n } = 2 ^ 255 := by
    intro n
    refine if_pos ?_
    have hkey := hpush newKey
    have hsig := hpush sig
    simp only [replacementTx, List.length_append]
    omega
  have htarget : ¬ (setCompact (hashNet stuckHash).txBits ≤ 0 ∨
      setCompact (hashNet stuckHash).txBits > (hashNet stuckHash).proofOfWorkLimit) ∧
      setCompact (hashNet stuckHash).txBits ≤ (2 ^ 255 : Nat) := by
    decide +kernel
  rw [DoTxProofOfWork, if_neg htarget.1]
  refine ⟨fun n _ => ?_, .inl rfl⟩
  rw [hhash n]
  exact not_lt.mpr htarget.2

/-- A proof of work that is not found, after which nothing is built; and two requests, of which
the key of the first has the lower id and signs. -/
theorem replacement_lost :
    (∃ s, (walletSystem (hashNet stuckHash) smallSign 8 (ascii "alice")).Reach (fun _ _ => True) s ∧
      s.requested = true ∧ s.accepted = false ∧
      registeredID (hashNet stuckHash) 8 s.chain (ascii "alice") = some (smallID 1) ∧
      s.wallet.haveKey (smallID 1) = true ∧ s.wallet.isLocked = false ∧
      ∀ nonce, newUserTransaction (hashNet stuckHash) smallSign 8 s.chain s.wallet (ascii "alice")
          nonce =
        .error (.rpc rpcWalletInvalidAccountName "Error: this username exists in tx database")) ∧
    ∃ s, (walletSystem (hashNet signNet.txHash) smallSign 8 (ascii "alice")).Reach
        (fun _ _ => True) s ∧
      s.requested = true ∧ s.accepted = false ∧
      registeredID (hashNet signNet.txHash) 8 s.chain (ascii "alice") = some (smallID 1) ∧
      s.wallet.haveKey (smallID 1) = true ∧ s.wallet.isLocked = false ∧
      (newUserTransaction (hashNet signNet.txHash) smallSign 8 s.chain s.wallet (ascii "alice")
        14).toOption.map (fun built => (verifyDuplicateOrReplacementTx (hashNet signNet.txHash) 8
          s.chain built.2 false true (-1) false).map Prod.fst) = some (.ok false) := by
  constructor
  · let env := hashNet stuckHash
    let s₁ := aliceStart.next env smallSign 8 (ascii "alice") (aliceRequest 2)
    let s₂ := s₁.next env smallSign 8 (ascii "alice") (.send (ascii "alice") (2 ^ 32 - 1))
    let sig : Bytes := [1, UInt8.ofNat (signNet.messageHash (numberedKey 2) % 251)]
    obtain ⟨⟨hkeys, hmeta, hreg⟩, hbuilt, hreq, hacc, hreg', hheld, hlock, hid, hpub, hnote⟩ :
        (aliceStart.wallet.haveKey (smallID 2) = false ∧
          (aliceStart.wallet.mapKeyMetadata.lookup (smallID 2)).isNone = true ∧
          registeredID env 8 aliceStart.chain (ascii "alice") ≠ some (smallID 2)) ∧
        newUserTransaction env smallSign 8 s₁.chain s₁.wallet (ascii "alice") (2 ^ 32 - 1) =
          .ok (true, replacementTx (ascii "alice") (numberedKey 2) sig (2 ^ 32 - 1)) ∧
        s₂.requested = true ∧ s₂.accepted = false ∧
        registeredID env 8 s₂.chain (ascii "alice") = some (smallID 1) ∧
        s₂.wallet.haveKey (smallID 1) = true ∧ s₂.wallet.isLocked = false ∧
        s₂.wallet.getKeyIdFromUsername (ascii "alice") = some (smallID 2) ∧
        s₂.wallet.pubKeys.lookup (smallID 2) = some (numberedKey 2) ∧
        s₂.wallet.getKeyIdBeingReplaced (ascii "alice") = none := by
      decide +kernel
    have hsend : (walletSystem env smallSign 8 (ascii "alice")).step s₁
        (.send (ascii "alice") (2 ^ 32 - 1)) s₂ := by
      refine ⟨?_, rfl⟩
      intro replaceKey tx hbuilt'
      cases hbuilt.symm.trans hbuilt'
      exact stuck_proofOfWork (by decide)
    refine ⟨s₂, ?_, hreq, hacc, hreg', hheld, hlock,
      newUserTransaction_unnoted hreg' hid hpub hnote⟩
    exact .step (.step (.init (aliceStart_init stuckHash)) trivial
      (request_step hkeys hmeta hreg)) trivial hsend
  · let env := hashNet signNet.txHash
    let s₁ := aliceStart.next env smallSign 8 (ascii "alice") (aliceRequest 0)
    let s₂ := s₁.next env smallSign 8 (ascii "alice") (aliceRequest 2)
    obtain ⟨⟨hkeys, hmeta, hreg⟩, ⟨hkeys', hmeta', hreg'⟩, hlast⟩ :
        (aliceStart.wallet.haveKey (smallID 0) = false ∧
          (aliceStart.wallet.mapKeyMetadata.lookup (smallID 0)).isNone = true ∧
          registeredID env 8 aliceStart.chain (ascii "alice") ≠ some (smallID 0)) ∧
        (s₁.wallet.haveKey (smallID 2) = false ∧
          (s₁.wallet.mapKeyMetadata.lookup (smallID 2)).isNone = true ∧
          registeredID env 8 s₁.chain (ascii "alice") ≠ some (smallID 2)) ∧
        s₂.requested = true ∧ s₂.accepted = false ∧
        registeredID env 8 s₂.chain (ascii "alice") = some (smallID 1) ∧
        s₂.wallet.haveKey (smallID 1) = true ∧ s₂.wallet.isLocked = false ∧
        (newUserTransaction env smallSign 8 s₂.chain s₂.wallet (ascii "alice") 14).toOption.map
          (fun built => (verifyDuplicateOrReplacementTx env 8 s₂.chain built.2 false true (-1)
            false).map Prod.fst) = some (.ok false) := by
      decide +kernel
    have hfirst : (walletSystem env smallSign 8 (ascii "alice")).Reach (fun _ _ => True) s₁ :=
      .step (.init (aliceStart_init signNet.txHash)) trivial (request_step hkeys hmeta hreg)
    exact ⟨s₂, .step hfirst trivial (request_step hkeys' hmeta' hreg'), hlast⟩

end CoMoNet
