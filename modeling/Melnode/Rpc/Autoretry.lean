import Melnode.Rpc.Network

/-!
# Reads under `autoretry`

`autoretry` calls its closure until it returns `Ok`, whatever the error. Here the closures of
`get_block`, `get_stakeset` and `get_consensus` read the tables as SQLite has them, with their blobs
and texts (`RawTables`), so that every way they can fail is there: a height that is no SQLite integer,
a blob that does not decode, a text that is no hash. The attempts of one read may be any moments of a
run of the storage.
-/

namespace Melnode

open Lib

/-! ## Retrying -/

section Retry

variable {ε α : Type} {f : Nat → Except ε α}

/-- `autoretry` from attempt `attempt` on: what it returns, and the number of the attempt after it;
`none` if `fuel` attempts all fail. Nothing depends on the sleep between two of them. -/
def autoretry (f : Nat → Except ε α) : (fuel attempt : Nat) → Option (α × Nat)
  | 0, _ => none
  | fuel + 1, attempt =>
    match f attempt with
    | .ok val => some (val, attempt + 1)
    | .error _ => autoretry f fuel (attempt + 1)

/-- A first attempt that succeeds is the only one. -/
theorem autoretry_ok {attempt : Nat} {val : α} (h : f attempt = .ok val) (fuel : Nat) :
    autoretry f (fuel + 1) attempt = some (val, attempt + 1) := by
  simp only [autoretry, h]

/-- What is returned is what some attempt returned. -/
theorem autoretry_eq_some : ∀ {fuel attempt next : Nat} {val : α},
    autoretry f fuel attempt = some (val, next) → ∃ k, f k = .ok val := by
  intro fuel
  induction fuel with
  | zero =>
    intro attempt next val h
    cases h
  | succ fuel ih =>
    intro attempt next val h
    unfold autoretry at h
    cases hf : f attempt with
    | ok a =>
      rw [hf] at h
      cases h
      exact ⟨attempt, hf⟩
    | error e =>
      rw [hf] at h
      exact ih h

end Retry

/-! ## The tables as SQLite has them -/

/-- `stdcode` of what the tables hold, and the text of a transaction hash. -/
structure Blobs (β : Type) where
  encodeBlock : Block → β
  decodeBlock : β → Option Block
  encodeProof : ConsensusProof → β
  decodeProof : β → Option ConsensusProof
  encodeStakeDoc : StakeDoc → β
  decodeStakeDoc : β → Option StakeDoc
  showHash : TxHash → String
  parseHash : String → Option TxHash

/-- Decoding undoes encoding. -/
structure Blobs.RoundTrips {β : Type} (B : Blobs β) : Prop where
  block : ∀ blk, B.decodeBlock (B.encodeBlock blk) = some blk
  proof : ∀ cproof, B.decodeProof (B.encodeProof cproof) = some cproof
  stakeDoc : ∀ doc, B.decodeStakeDoc (B.encodeStakeDoc doc) = some doc
  hash : ∀ txhash, B.parseHash (B.showHash txhash) = some txhash

/-- The columns that are read: `history.block`, `consensus_proofs.proof`, and the rows of `stakes`. -/
structure RawTables (β : Type) where
  history : Table Nat β
  consensusProofs : Table Nat β
  stakes : List (String × Nat × β)

/-- What is in the file when the tables hold the given rows. -/
def Tables.raw {β : Type} (B : Blobs β) (db : Tables) : RawTables β where
  history := db.history.map fun _ row => B.encodeBlock row.block
  consensusProofs := db.consensusProofs.map fun _ cproof => B.encodeProof cproof
  stakes := db.stakes.toList.map fun kv =>
    (B.showHash kv.1, kv.2.height, B.encodeStakeDoc kv.2.stakeDoc)

/-- The errors of a closure. -/
inductive ReadError where
  -- "out of range integral type conversion attempted"
  | outOfRange (value : Nat)
  | undecodable
  | noHash (text : String)
  deriving DecidableEq, Repr

/-- Binding a `u64` parameter. -/
def bindU64 (value : Nat) : Except ReadError Nat :=
  if value ≤ maxSqlHeight then .ok value else .error (.outOfRange value)

/-! ## The closures -/

section Closures

variable {β : Type} (B : Blobs β)

/-- `stdcode::deserialize(..)?`. -/
def deserialize {α : Type} (decode : β → Option α) (blob : β) : Except ReadError α :=
  match decode blob with
  | some val => .ok val
  | none => .error .undecodable

/-- The closure of `get_block`; what it puts into the cache is a `fill` of the storage. -/
def tryGetBlock (oldCache : Table Nat Block) (raw : RawTables β) (height : Nat) :
    Except ReadError (Option Block) :=
  match oldCache[height]? with
  | some val => .ok (some val)
  | none => do
    let height ← bindU64 height
    match raw.history[height]? with
    | some blockBlob => (deserialize B.decodeBlock blockBlob).map some
    | none => .ok none

/-- The closure of `get_consensus`. -/
def tryGetConsensus (raw : RawTables β) (height : Nat) :
    Except ReadError (Option ConsensusProof) := do
  let height ← bindU64 height
  match raw.consensusProofs[height]? with
  | some vec => (deserialize B.decodeProof vec).map some
  | none => .ok none

/-- Adds one row of `stakes` to a stake set. -/
def addRow (stakes : StakeSet) (row : String × Nat × β) : Except ReadError StakeSet :=
  match B.parseHash row.1 with
  | none => .error (.noHash row.1)
  | some t => do
    let sd ← deserialize B.decodeStakeDoc row.2.2
    .ok (stakes.addStake t sd)

namespace Melstf

variable {Sealed Unsealed : Type} (M : Melstf Sealed Unsealed) (genesis : GenesisConfig)

/-- The closure of `get_stakeset`. -/
def tryGetStakeset (raw : RawTables β) (height : Nat) : Except ReadError StakeSet := do
  let bound ← bindU64 height
  let stakes := Table.overlay genesis.stakes (fun _ => true) id ∅
  let stakes ← (raw.stakes.filter fun row => decide (row.2.1 ≤ bound)).foldlM (addRow B) stakes
  .ok (StakeSet.unlockOld stakes (M.epoch height))

/-- A storage's tables at one moment. -/
def rawAt (c : Procs.Config Nat (Shared Unsealed) (Call Sealed)) : RawTables β := c.shared.db.raw B

/-- `get_block`, its attempts at the given moments. -/
def retryGetBlock (moments : Nat → Procs.Config Nat (Shared Unsealed) (Call Sealed))
    (height fuel attempt : Nat) : Option (Option Block × Nat) :=
  autoretry (fun k => tryGetBlock B (moments k).shared.oldCache (rawAt B (moments k)) height)
    fuel attempt

/-- `get_consensus`, its attempts at the given moments. -/
def retryGetConsensus (moments : Nat → Procs.Config Nat (Shared Unsealed) (Call Sealed))
    (height fuel attempt : Nat) : Option (Option ConsensusProof × Nat) :=
  autoretry (fun k => tryGetConsensus B (rawAt B (moments k)) height) fuel attempt

/-- `get_state`: the attempts of `get_block`, then those of `get_stakeset`. -/
def retryGetState (moments : Nat → Procs.Config Nat (Shared Unsealed) (Call Sealed))
    (height fuel attempt : Nat) : Option (Except PanicSite (Option Sealed)) := do
  match ← retryGetBlock B moments height fuel attempt with
  | (none, _) => some (.ok none)
  | (some block, attempt) => do
    let (stakeset, _) ← autoretry
      (fun k => M.tryGetStakeset B genesis (rawAt B (moments k)) height) fuel attempt
    some ((M.rebuildState block stakeset).map some)

end Melstf

end Closures

/-! ## One attempt -/

section Attempts

variable {β : Type} {B : Blobs β} {db : Tables} {height : Nat}

theorem bindU64_ok (h : height ≤ maxSqlHeight) : bindU64 height = .ok height := if_pos h

theorem bindU64_error (h : ¬height ≤ maxSqlHeight) :
    bindU64 height = .error (.outOfRange height) := if_neg h

theorem history_raw (height : Nat) :
    (db.raw B).history[height]? = (db.block? height).map B.encodeBlock := by
  simp [Tables.raw, Tables.block?, Function.comp_def]

theorem consensusProofs_raw (height : Nat) :
    (db.raw B).consensusProofs[height]? = db.consensusProofs[height]?.map B.encodeProof := by
  simp [Tables.raw]

/-- Where the cache has nothing the tables do not have, `get_block` finds the stored block. -/
theorem tryGetBlock_ok (hR : B.RoundTrips) {oldCache : Table Nat Block}
    (hcache : ∀ {blk}, oldCache[height]? = some blk → db.block? height = some blk)
    (h : height ≤ maxSqlHeight) : tryGetBlock B oldCache (db.raw B) height = .ok (db.block? height) := by
  unfold tryGetBlock
  cases hval : oldCache[height]? with
  | some val => rw [hcache hval]
  | none =>
    simp only [bindU64_ok h, bind, Except.bind, history_raw]
    cases db.block? height with
    | none => rfl
    | some blk => simp [deserialize, hR.block, Except.map]

theorem tryGetBlock_error {oldCache : Table Nat Block} (hcache : oldCache[height]? = none)
    (raw : RawTables β) (h : ¬height ≤ maxSqlHeight) :
    tryGetBlock B oldCache raw height = .error (.outOfRange height) := by
  unfold tryGetBlock
  rw [hcache, bindU64_error h]
  rfl

theorem tryGetConsensus_ok (hR : B.RoundTrips) (h : height ≤ maxSqlHeight) :
    tryGetConsensus B (db.raw B) height = .ok db.consensusProofs[height]? := by
  simp only [tryGetConsensus, bindU64_ok h, bind, Except.bind, consensusProofs_raw]
  cases db.consensusProofs[height]? with
  | none => rfl
  | some cproof => simp [deserialize, hR.proof, Except.map]

/-- Rows that were written are read back. -/
theorem foldlM_addRow (hR : B.RoundTrips) : ∀ (rows : List (TxHash × StakeRow)) (stakes : StakeSet),
    (rows.map fun kv => (B.showHash kv.1, kv.2.height, B.encodeStakeDoc kv.2.stakeDoc)).foldlM
      (addRow B) stakes =
        .ok (rows.foldl (fun acc kv => acc.insert kv.1 kv.2.stakeDoc) stakes) := by
  intro rows
  induction rows with
  | nil => exact fun _ => rfl
  | cons kv rows ih =>
    intro stakes
    have hrow : addRow B stakes (B.showHash kv.1, kv.2.height, B.encodeStakeDoc kv.2.stakeDoc) =
        .ok (stakes.insert kv.1 kv.2.stakeDoc) := by
      simp [addRow, hR.hash, deserialize, hR.stakeDoc, StakeSet.addStake, bind, Except.bind]
    rw [List.map_cons, List.foldlM_cons, hrow]
    exact ih _

variable {Sealed Unsealed : Type} {M : Melstf Sealed Unsealed} {genesis : GenesisConfig}

theorem tryGetStakeset_ok (hR : B.RoundTrips) (h : height ≤ maxSqlHeight) :
    M.tryGetStakeset B genesis (db.raw B) height = .ok (M.getStakeset genesis db height) := by
  have hselect : ((db.raw B).stakes.filter fun row : String × Nat × β => decide (row.2.1 ≤ height)) =
      (db.stakes.toList.filter fun kv => decide (kv.2.height ≤ height)).map fun kv =>
        (B.showHash kv.1, kv.2.height, B.encodeStakeDoc kv.2.stakeDoc) := by
    simp [Tables.raw, List.filter_map, Function.comp_def]
  simp only [Melstf.tryGetStakeset, bindU64_ok h, bind, Except.bind, hselect, foldlM_addRow hR]
  rfl

end Attempts

/-! ## Reads of a storage that goes on -/

namespace Melstf

variable {Sealed Unsealed β : Type} {M : Melstf Sealed Unsealed} {genesis : GenesisConfig}
  {B : Blobs β} {moments : Nat → Procs.Config Nat (Shared Unsealed) (Call Sealed)} {height : Nat}

section Moments

/-- Every attempt of `get_block` finds what is stored at its moment. -/
theorem Serves.tryGetBlock_ok (hB : M.BuildsStates) (hR : B.RoundTrips)
    (hserves : M.Serves genesis moments) (h : height ≤ maxSqlHeight) (k : Nat) :
    tryGetBlock B (moments k).shared.oldCache (rawAt B (moments k)) height =
      .ok ((moments k).shared.db.block? height) :=
  Melnode.tryGetBlock_ok hR (fun hval => (hserves.sharedOk hB k).cache hval) h

/-- Above what SQLite can store, no attempt of `get_block` succeeds. -/
theorem Serves.tryGetBlock_error (hB : M.BuildsStates) (hserves : M.Serves genesis moments)
    (h : ¬height ≤ maxSqlHeight) (k : Nat) :
    tryGetBlock B (moments k).shared.oldCache (rawAt B (moments k)) height =
      .error (.outOfRange height) := by
  have hok := hserves.sharedOk hB k
  refine Melnode.tryGetBlock_error ?_ _ h
  cases hval : (moments k).shared.oldCache[height]? with
  | none => rfl
  | some blk =>
    have hle := ((hok.chain.wellFormed hB).block_le (hok.cache hval)).2
    exact absurd (hle.trans (hok.chain.highestHeight_le_max hB)) h

/-- So `get_block` retries for ever. -/
theorem Serves.retryGetBlock_never (hB : M.BuildsStates) (hserves : M.Serves genesis moments)
    (h : ¬height ≤ maxSqlHeight) :
    ¬∃ fuel res next, retryGetBlock B moments height fuel 0 = some (res, next) := by
  rintro ⟨fuel, res, next, hblock⟩
  obtain ⟨k, hk⟩ := autoretry_eq_some hblock
  rw [hserves.tryGetBlock_error hB h k] at hk
  cases hk

/-- `get_block` returns what its first attempt finds. -/
theorem Serves.retryGetBlock_eq (hB : M.BuildsStates) (hR : B.RoundTrips)
    (hserves : M.Serves genesis moments) (h : height ≤ maxSqlHeight) (fuel : Nat) :
    retryGetBlock B moments height (fuel + 1) 0 =
      some ((moments 0).shared.db.block? height, 1) :=
  autoretry_ok (f := fun k => tryGetBlock B (moments k).shared.oldCache (rawAt B (moments k)) height)
    (hserves.tryGetBlock_ok hB hR h 0) fuel

/-- `get_state` rebuilds the state from what its first two attempts read, and blocks committed
between them make no difference. -/
theorem Serves.retryGetState_eq (hB : M.BuildsStates) (hR : B.RoundTrips)
    (hserves : M.Serves genesis moments) (h : height ≤ maxSqlHeight) (fuel : Nat) :
    M.retryGetState B genesis moments height (fuel + 1) 0 =
      some (M.getState genesis (moments 0).shared.db height) := by
  have hstakes : autoretry (fun k => M.tryGetStakeset B genesis (rawAt B (moments k)) height)
      (fuel + 1) 1 = some (M.getStakeset genesis (moments 1).shared.db height, 2) :=
    autoretry_ok (f := fun k => M.tryGetStakeset B genesis (rawAt B (moments k)) height)
      (tryGetStakeset_ok hR h) fuel
  unfold retryGetState getState
  rw [hserves.retryGetBlock_eq hB hR h fuel]
  cases hblk : (moments 0).shared.db.block? height with
  | none => rfl
  | some blk =>
    have hle := (((hserves.sharedOk hB 0).chain.wellFormed hB).block_le hblk).2
    simp only [Option.bind_eq_bind, Option.bind_some, hstakes]
    rw [getStakeset_isPrefix (hserves.grows hB 0 1) hle]

end Moments

/-- The three reads of a height return after finitely many attempts, with `None` where the height
is not stored when they begin. -/
structure ReadsReturn (M : Melstf Sealed Unsealed) (genesis : GenesisConfig) (B : Blobs β)
    (moments : Nat → Procs.Config Nat (Shared Unsealed) (Call Sealed)) (height : Nat) : Prop where
  getBlock : ∃ fuel res next, retryGetBlock B moments height fuel 0 = some (res, next) ∧
    (height ∉ (moments 0).shared.db.history → res = none)
  getConsensus : ∃ fuel res next, retryGetConsensus B moments height fuel 0 = some (res, next) ∧
    (height ∉ (moments 0).shared.db.history → res = none)
  getState : ∃ fuel res, M.retryGetState B genesis moments height fuel 0 = some (.ok res) ∧
    (height ∉ (moments 0).shared.db.history → res = none)

/-- Whatever is stored at the height, the stakes up to it hash to what its header says. -/
def StakesMatch (M : Melstf Sealed Unsealed) (genesis : GenesisConfig) (db : Tables)
    (height : Nat) : Prop :=
  ∀ blk, db.block? height = some blk →
    M.stakesHash (M.getStakeset genesis db height) = blk.header.stakesHash

/-- `get_state` returns exactly where its assertion holds. -/
theorem getState_ok_iff {db : Tables} :
    (∃ res, M.getState genesis db height = .ok res) ↔ M.StakesMatch genesis db height := by
  unfold getState StakesMatch rebuildState
  cases db.block? height with
  | none => simp
  | some blk =>
    by_cases hhash : M.stakesHash (M.getStakeset genesis db height) = blk.header.stakesHash
    · simp [hhash, Except.map]
    · simp [hhash, Except.map]

/-- **Reads of every height, exactly**: over any reachable storage, `get_block`, `get_consensus` and
`get_state` return after finitely many attempts, with `None` where nothing is stored, if and only if
the height is one SQLite can bind and the assertion of `get_state` holds for what is stored at it. -/
theorem reads_return_iff (hB : M.BuildsStates) (hR : B.RoundTrips)
    (hserves : M.Serves genesis moments) (height : Nat) :
    M.ReadsReturn genesis B moments height ↔
      height ≤ maxSqlHeight ∧ M.StakesMatch genesis (moments 0).shared.db height := by
  have hwf := (hserves.sharedOk hB 0).chain.wellFormed hB
  constructor
  · intro hreads
    obtain ⟨fuel, res, next, hblock, -⟩ := hreads.getBlock
    have hfit : height ≤ maxSqlHeight := by
      by_contra hbig
      exact hserves.retryGetBlock_never hB hbig ⟨fuel, res, next, hblock⟩
    refine ⟨hfit, getState_ok_iff.mp ?_⟩
    obtain ⟨fuel, res, hstate, -⟩ := hreads.getState
    cases fuel with
    | zero => cases hstate
    | succ fuel =>
      rw [hserves.retryGetState_eq hB hR hfit fuel] at hstate
      exact ⟨res, Option.some.inj hstate⟩
  · rintro ⟨hfit, hmatch⟩
    have hnone (hfree : height ∉ (moments 0).shared.db.history) :
        (moments 0).shared.db.block? height = none := by
      simp [Tables.block?, Std.ExtTreeMap.getElem?_eq_none hfree]
    obtain ⟨res, hres⟩ := getState_ok_iff.mpr hmatch
    have hproof : retryGetConsensus B moments height 1 0 =
        some ((moments 0).shared.db.consensusProofs[height]?, 1) :=
      autoretry_ok (f := fun k => tryGetConsensus B (rawAt B (moments k)) height)
        (tryGetConsensus_ok hR hfit) 0
    refine ⟨⟨1, _, 1, hserves.retryGetBlock_eq hB hR hfit 0, hnone⟩, ⟨1, _, 1, hproof, ?_⟩,
      ⟨1, res, by rw [hserves.retryGetState_eq hB hR hfit 0, hres], ?_⟩⟩
    · intro hfree
      rw [← hwf.proof_mem] at hfree
      exact Std.ExtTreeMap.getElem?_eq_none hfree
    · intro hfree
      simp only [Melstf.getState, hnone hfree] at hres
      exact (Except.ok.inj hres).symm

/-! ## The three-staker network -/

/-- The values themselves, and hashes in decimal. -/
def ledgerBlobs : Blobs (Block ⊕ ConsensusProof ⊕ StakeDoc) where
  encodeBlock := .inl
  decodeBlock := Sum.getLeft?
  encodeProof := fun cproof => .inr (.inl cproof)
  decodeProof := fun blob => blob.getRight?.bind Sum.getLeft?
  encodeStakeDoc := fun doc => .inr (.inr doc)
  decodeStakeDoc := fun blob => blob.getRight?.bind Sum.getRight?
  showHash := fun txhash => Nat.repr txhash.toNat
  parseHash := fun text => text.toNat?.map (BitVec.ofNat 256)

theorem ledgerBlobs_roundTrips : ledgerBlobs.RoundTrips where
  block _ := rfl
  proof _ := rfl
  stakeDoc _ := rfl
  hash txhash := by simp [ledgerBlobs, Nat.toNat?_repr]

/-- The reads of the first height, when it is stored and nobody adds to it. -/
theorem reads_return_iff_oneBlock :
    ledger.ReadsReturn Ledger.threeStakers ledgerBlobs (fun _ => Ledger.oneBlock) 1 ↔
      1 ≤ maxSqlHeight ∧
        ledger.StakesMatch Ledger.threeStakers Ledger.oneBlock.shared.db 1 :=
  reads_return_iff ledger_builds ledgerBlobs_roundTrips Ledger.idleServer_serves 1

/-- A peer asks for height `2^63`: the storage is healthy, and every attempt fails. -/
theorem reads_return_outOfRange :
    ledger.Serves Ledger.threeStakers (fun _ => Ledger.oneBlock) ∧ 2 ^ 63 < 2 ^ 64 ∧
      (2 ^ 63 : Nat) ∉ Ledger.oneBlock.shared.db.history ∧
      ¬∃ fuel res next, retryGetBlock ledgerBlobs (fun _ => Ledger.oneBlock) (2 ^ 63) fuel 0 =
        some (res, next) := by
  have hbig : ¬(2 ^ 63 : Nat) ≤ maxSqlHeight := by decide
  exact ⟨Ledger.idleServer_serves, by decide, by decide +kernel,
    Ledger.idleServer_serves.retryGetBlock_never ledger_builds hbig⟩

end Melstf

end Melnode
