import Melnode.Lib.Table
import Melnode.Stf

/-!
# A small state transition

`ledger` is an executable `Melstf` that keeps the heights, the stakes and the transaction list of
the real one: blocks are built by sealing a list of transactions, a state accepts exactly the block
it would have built from the block's transactions, and stakes are dropped and admitted as `melstf`
does. It satisfies every law the development assumes (`ledger_enumerates`, `ledger_builds`,
`ledger_checks`, `ledger_proposes`, `ledger_evolves`), so the laws are consistent, and concrete runs
of the node are evaluated over it.
-/

namespace Melnode

/-! ## Encoding of stake documents -/

/-- A natural as that many ones and a zero. -/
def putNat (n : Nat) : Bytes := List.replicate n 1 ++ [0]

/-- Reads back `putNat` and returns the bytes after it. -/
def getNat : Bytes → Option (Nat × Bytes)
  | [] => none
  | b :: rest => if b = 0 then some (0, rest) else (getNat rest).map fun (n, r) => (n + 1, r)

theorem getNat_putNat (n : Nat) (rest : Bytes) : getNat (putNat n ++ rest) = some (n, rest) := by
  induction n with
  | zero => rfl
  | succ n ih =>
    unfold putNat at ih ⊢
    rw [List.replicate_succ, List.cons_append, List.cons_append, getNat, if_neg (by decide), ih]
    rfl

def encodeStakeDoc (doc : StakeDoc) : Bytes :=
  putNat doc.pubkey.toNat ++ (putNat doc.eStart ++ (putNat doc.ePostEnd ++ putNat doc.symsStaked))

def decodeStakeDoc (bytes : Bytes) : Option StakeDoc := do
  let (pubkey, bytes) ← getNat bytes
  let (eStart, bytes) ← getNat bytes
  let (ePostEnd, bytes) ← getNat bytes
  let (symsStaked, bytes) ← getNat bytes
  if bytes = [] then some ⟨BitVec.ofNat 256 pubkey, eStart, ePostEnd, symsStaked⟩ else none

theorem decodeStakeDoc_encodeStakeDoc (doc : StakeDoc) :
    decodeStakeDoc (encodeStakeDoc doc) = some doc := by
  have hlast := getNat_putNat doc.symsStaked []
  rw [List.append_nil] at hlast
  simp [decodeStakeDoc, encodeStakeDoc, getNat_putNat, hlast]

/-! ## States -/

namespace Ledger

/-- A sealed state. -/
structure Sealed where
  header : Header
  stakes : StakeSet
  transactions : List Transaction
  proposerAction : Option ProposerAction
  deriving DecidableEq

/-- An unsealed state: the height it will be sealed at and what it holds so far. -/
structure Unsealed where
  network : NetID
  height : Nat
  feeMultiplier : Nat
  stakes : StakeSet
  transactions : List Transaction

/-- `STAKE_EPOCH` blocks make an epoch. -/
def epoch (height : Nat) : Nat := height / 200000

def hashBytes (seed : Nat) (bytes : Bytes) : HashVal :=
  BitVec.ofNat 256 (bytes.foldl (fun acc b => acc * 257 + b.toNat + 1) seed)

def headerHash (hd : Header) : HashVal :=
  hashBytes (hd.height * 1000003 + hd.feeMultiplier * 1009 + hd.stakesHash.toNat) hd.roots

def hashNosigs (tx : Transaction) : TxHash := hashBytes 1 (tx.data ++ tx.rest)

def stakesHash (stakes : StakeSet) : HashVal :=
  BitVec.ofNat 256 (stakes.toList.foldl
    (fun acc kv => acc * 1000003 + kv.1.toNat + kv.2.symsStaked + 1) 0)

/-- The one signature of a key over a hash. -/
def sign (pubkey : Ed25519PK) (hash : HashVal) : Bytes :=
  [UInt8.ofNat pubkey.toNat, UInt8.ofNat hash.toNat]

/-- What a transaction sealed at `height` would add to the stakes. -/
def admitted (network : NetID) (height : Nat) (tx : Transaction) : Option StakeDoc :=
  if tx.kind = .stake ∧ (500000 ≤ height ∨ network ≠ .mainnet) then
    (decodeStakeDoc tx.data).filter fun doc =>
      decide (epoch height < doc.eStart) && decide (doc.eStart < doc.ePostEnd) &&
        decide (tx.outputs.head?.map CoinData.value = some doc.symsStaked)
  else
    none

def addAdmitted (network : NetID) (height : Nat) (stakes : StakeSet) (tx : Transaction) :
    StakeSet :=
  match admitted network height tx with
  | some doc => stakes.addStake (hashNosigs tx) doc
  | none => stakes

def applyTx (u : Unsealed) (tx : Transaction) : Except StateError Unsealed :=
  if tx ∈ u.transactions then .error .duplicateTx
  else .ok { u with
    stakes := addAdmitted u.network u.height u.stakes tx
    transactions := u.transactions ++ [tx] }

def sealState (u : Unsealed) (action : Option ProposerAction) : Sealed where
  header :=
    { network := u.network
      height := u.height
      feeMultiplier := match action with
        | some a => (u.feeMultiplier + a.feeMultiplierDelta).toNat
        | none => u.feeMultiplier
      stakesHash := stakesHash u.stakes
      roots := u.transactions.flatMap Transaction.rest }
  stakes := u.stakes
  transactions := u.transactions
  proposerAction := action

def nextUnsealed (s : Sealed) : Unsealed where
  network := s.header.network
  height := s.header.height + 1
  feeMultiplier := s.header.feeMultiplier
  stakes := s.stakes.unlockOld (epoch (s.header.height + 1))
  transactions := []

def applyBlock (s : Sealed) (blk : Block) : Except StateError Sealed :=
  match blk.transactions.foldlM applyTx (nextUnsealed s) with
  | .error e => .error e
  | .ok u =>
    if (sealState u blk.proposerAction).header = blk.header then
      .ok (sealState u blk.proposerAction)
    else
      .error (.other "header mismatch")

def fromBlock (blk : Block) (stakes : StakeSet) : Sealed where
  header := blk.header
  stakes := stakes
  transactions := blk.transactions
  proposerAction := blk.proposerAction

def toBlock (s : Sealed) : Block where
  header := s.header
  transactions := s.transactions
  proposerAction := s.proposerAction

def realize (genesis : GenesisConfig) : Unsealed where
  network := genesis.network
  height := 0
  feeMultiplier := 1000
  stakes := genesis.stakes
  transactions := []

end Ledger

/-- The small state transition as the crates the node calls. -/
def ledger : Melstf Ledger.Sealed Ledger.Unsealed where
  epoch := Ledger.epoch
  headerHash := Ledger.headerHash
  hashNosigs := Ledger.hashNosigs
  weight := fun tx => tx.data.length + tx.rest.length + 1
  verify := fun pubkey hash sig => sig == Ledger.sign pubkey hash
  decodeStakeDoc := decodeStakeDoc
  preTip911 := fun stakes => stakes.docs.map encodeStakeDoc
  stakesHash := Ledger.stakesHash
  header := Ledger.Sealed.header
  rawStakes := Ledger.Sealed.stakes
  applyBlock := Ledger.applyBlock
  fromBlock := Ledger.fromBlock
  toBlock := Ledger.toBlock
  nextUnsealed := Ledger.nextUnsealed
  sealState := Ledger.sealState
  applyTx := Ledger.applyTx
  realize := Ledger.realize

/-! ## The laws -/

theorem ledger_enumerates : ledger.EnumeratesStakes := by
  intro stakes
  have h : (stakes.docs.map encodeStakeDoc).map decodeStakeDoc = stakes.docs.map some := by
    rw [List.map_map]
    exact List.map_congr_left fun doc _ => decodeStakeDoc_encodeStakeDoc doc
  exact List.Perm.of_eq h

theorem ledger_builds : ledger.BuildsStates where
  header_fromBlock _ _ := rfl
  rawStakes_fromBlock _ _ := rfl
  genesis_height _ := rfl

namespace Ledger

/-- Applying transactions keeps the network and height, appends them in order and folds their
stakes in. -/
theorem foldlM_applyTx {txs : List Transaction} : ∀ {u u' : Unsealed},
    txs.foldlM applyTx u = .ok u' →
    u'.network = u.network ∧ u'.height = u.height ∧ u'.transactions = u.transactions ++ txs ∧
      u'.stakes = txs.foldl (addAdmitted u.network u.height) u.stakes := by
  induction txs with
  | nil =>
    intro u u' h
    cases h
    simp
  | cons tx txs ih =>
    intro u u' h
    rw [List.foldlM_cons] at h
    by_cases hmem : tx ∈ u.transactions
    · simp [applyTx, hmem, bind, Except.bind] at h
    · simp only [applyTx, hmem, ite_false, bind, Except.bind] at h
      obtain ⟨hn, hh, ht, hs⟩ := ih h
      refine ⟨hn, hh, ?_, hs⟩
      rw [ht, List.append_assoc]
      rfl

theorem applyBlock_ok {s s' : Sealed} {blk : Block} (h : applyBlock s blk = .ok s') :
    ∃ u, blk.transactions.foldlM applyTx (nextUnsealed s) = .ok u ∧
      s' = sealState u blk.proposerAction ∧ s'.header = blk.header := by
  unfold applyBlock at h
  split at h
  · cases h
  · next u hu =>
    split at h
    · next hhd =>
      cases h
      exact ⟨u, hu, rfl, hhd⟩
    · cases h

end Ledger

theorem ledger_checks : ledger.ChecksHeader where
  header_eq h := (Ledger.applyBlock_ok h).choose_spec.2.2
  height_eq {s blk s'} h := by
    obtain ⟨u, hu, rfl, hhd⟩ := Ledger.applyBlock_ok h
    have hheight := (Ledger.foldlM_applyTx hu).2.1
    rw [← hhd]
    exact hheight

theorem ledger_proposes : ledger.BuildsBlocks where
  header_toBlock _ := rfl
  accepts {s txs u} action h := by
    have h' : txs.foldlM Ledger.applyTx (Ledger.nextUnsealed s) = .ok u := h
    have htxs : u.transactions = txs := (Ledger.foldlM_applyTx h').2.2.1
    have hagain : u.transactions.foldlM Ledger.applyTx (Ledger.nextUnsealed s) = .ok u := by
      rw [htxs]
      exact h'
    show (Ledger.applyBlock s (Ledger.toBlock (Ledger.sealState u action))).isOk = true
    simp [Ledger.applyBlock, Ledger.toBlock, Ledger.sealState, hagain, Except.isOk, Except.toBool]
  height_applyTx {u tx u'} h := by
    have h' : Ledger.applyTx u tx = .ok u' := h
    have hfold : [tx].foldlM Ledger.applyTx u = .ok u' := by
      simpa [List.foldlM] using h'
    exact (Ledger.foldlM_applyTx hfold).2.1

theorem ledger_evolves : ledger.EvolvesStakes where
  genesis_stakes _ := rfl
  rawStakes_eq {s blk s'} h := by
    obtain ⟨u, hu, rfl, hhd⟩ := Ledger.applyBlock_ok h
    obtain ⟨hn, hh, -, hs⟩ := Ledger.foldlM_applyTx hu
    have hnet : blk.header.network = s.header.network := by rw [← hhd]; exact hn
    have hheight : blk.header.height = s.header.height + 1 := by rw [← hhd]; exact hh
    have hadd : ledger.addAdmitted blk.header =
        Ledger.addAdmitted s.header.network (s.header.height + 1) := by
      funext stakes tx
      simp only [Melstf.addAdmitted, Ledger.addAdmitted, Melstf.admittedStake, Ledger.admitted,
        hnet, hheight]
      rfl
    show u.stakes = ledger.evolveStakes s.stakes blk
    rw [hs, Melstf.evolveStakes, hadd, hheight]
    rfl
  stakesHash_eq {s blk s'} h := by
    obtain ⟨u, -, rfl, hhd⟩ := Ledger.applyBlock_ok h
    rw [← hhd]
    rfl
  fromBlock_eq {s blk s'} h := by
    obtain ⟨u, hu, rfl, hhd⟩ := Ledger.applyBlock_ok h
    have htxs := (Ledger.foldlM_applyTx hu).2.2.1
    show Ledger.fromBlock blk u.stakes = Ledger.sealState u blk.proposerAction
    unfold Ledger.fromBlock
    rw [← hhd]
    simp only [Ledger.sealState, htxs, Ledger.nextUnsealed, List.nil_append]

/-! ## A network of three stakers -/

namespace Ledger

/-- Three keys with one sym each, staked from epoch 0 up to epoch 5. -/
def threeStakers : GenesisConfig where
  network := .custom 2
  stakes := ((∅ : StakeSet).addStake 1 ⟨1, 0, 5, 1⟩ |>.addStake 2 ⟨2, 0, 5, 1⟩).addStake 3
    ⟨3, 0, 5, 1⟩
  rest := []

/-- A transaction told from others by one byte. -/
def payment (tag : UInt8) : Transaction := ⟨.other 0, [], [], [tag]⟩

/-- The block a state builds from transactions. -/
def blockOn (s : Sealed) (txs : List Transaction) : Block :=
  match txs.foldlM applyTx (nextUnsealed s) with
  | .ok u => toBlock (sealState u none)
  | .error _ => toBlock s

/-- A state accepts the block it builds. -/
theorem applyBlock_blockOn {s : Sealed} {txs : List Transaction} {u : Unsealed}
    (h : txs.foldlM applyTx (nextUnsealed s) = .ok u) :
    applyBlock s (blockOn s txs) = .ok (sealState u none) := by
  have htxs := (foldlM_applyTx h).2.2.1
  have hblk : blockOn s txs = ⟨(sealState u none).header, txs, none⟩ := by
    unfold blockOn
    rw [h]
    show toBlock (sealState u none) = _
    unfold toBlock sealState
    simp [htxs, nextUnsealed]
  unfold applyBlock
  rw [hblk]
  simp only [h, if_true]

/-- The proof holding the signatures of some keys over a block. -/
def proofBy (keys : List Ed25519PK) (blk : Block) : ConsensusProof :=
  keys.foldl (fun proof pk => proof.insert pk (sign pk (headerHash blk.header))) ∅

theorem mem_proofBy {blk : Block} {pubkey : Ed25519PK} {v : Bytes} : ∀ {keys : List Ed25519PK},
    (proofBy keys blk)[pubkey]? = some v → pubkey ∈ keys := by
  have hfold : ∀ (keys : List Ed25519PK) (proof : ConsensusProof),
      (keys.foldl (fun proof pk => proof.insert pk
        (sign pk (headerHash blk.header))) proof)[pubkey]? = some v →
      pubkey ∈ keys ∨ proof[pubkey]? = some v := by
    intro keys
    induction keys with
    | nil => exact fun proof h => Or.inr h
    | cons pk keys ih =>
      intro proof h
      rcases ih _ h with hin | hin
      · exact Or.inl (List.mem_cons_of_mem pk hin)
      · rcases Lib.Table.of_getElem?_insert hin with ⟨rfl, -⟩ | hin
        · exact Or.inl List.mem_cons_self
        · exact Or.inr hin
  intro keys h
  rcases hfold keys ∅ h with hin | hin
  · exact hin
  · exact absurd hin Lib.Table.getElem?_empty_ne

/-- The first block of the three-staker network, with one payment in it. -/
def firstBlock (tag : UInt8) : Block :=
  blockOn (ledger.genesisState threeStakers) [payment tag]

/-- A transaction that stakes a document and pays its syms to the first output. -/
def staking (doc : StakeDoc) : Transaction :=
  ⟨.stake, [⟨0, doc.symsStaked⟩], encodeStakeDoc doc, []⟩

/-- The first block of the three-staker network, with one `Stake` transaction in it. -/
def firstStake (doc : StakeDoc) : Block :=
  blockOn (ledger.genesisState threeStakers) [staking doc]

end Ledger

end Melnode
