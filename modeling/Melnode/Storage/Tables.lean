import Melnode.Lib.Table
import Melnode.Storage.VoteCheck

/-!
# The SQLite tables and what is read back from them

`Tables` are the rows of `history`, `consensus_proofs` and `stakes`. Each function below is one SQL
transaction or the pure part of one method of `Storage`; the interleavings of concurrent calls are
in `Storage.Process`. A column holding an stdcode blob is the value it decodes to.
-/

namespace Melnode

open Lib

/-- A row of `history` (the key is the height). -/
structure HistoryRow where
  header : Header
  block : Block
  deriving DecidableEq, Repr

/-- A row of `stakes` (the key is the transaction hash). -/
structure StakeRow where
  height : Nat
  stakeDoc : StakeDoc
  deriving DecidableEq, Repr

structure Tables where
  history : Table Nat HistoryRow
  consensusProofs : Table Nat ConsensusProof
  stakes : Table TxHash StakeRow

namespace Tables

@[ext] theorem ext {db db' : Tables} (h₁ : db.history = db'.history)
    (h₂ : db.consensusProofs = db'.consensusProofs) (h₃ : db.stakes = db'.stakes) : db = db' := by
  cases db
  cases db'
  simp only at h₁ h₂ h₃
  rw [h₁, h₂, h₃]

/-- The tables of a fresh database file. -/
def fresh : Tables := ⟨∅, ∅, ∅⟩

/-- `Storage::open` on a database file: the genesis stakes are inserted where they are missing. -/
def opened (genesis : GenesisConfig) (db : Tables) : Tables :=
  { db with stakes := Table.insertMissing db.stakes genesis.stakes (StakeRow.mk 0) }

/-- `highest_height`: `select max(height) from history`, zero on an empty table. -/
def highestHeight (db : Tables) : Nat := db.history.keys.max?.getD 0

/-- The block a row of `history` holds: the query of `get_block`. -/
def block? (db : Tables) (height : Nat) : Option Block :=
  db.history[height]?.map HistoryRow.block

/-- The rows of block `height` and below. -/
def upTo (db : Tables) (height : Nat) : Tables where
  history := db.history.keep fun k _ => decide (k ≤ height)
  consensusProofs := db.consensusProofs.keep fun k _ => decide (k ≤ height)
  stakes := db.stakes.keep fun _ row => decide (row.height ≤ height)

end Tables

/-- The largest height SQLite can store. -/
def maxSqlHeight : Nat := 2 ^ 63 - 1

namespace Melstf

variable {Sealed Unsealed : Type} (M : Melstf Sealed Unsealed)

/-- The row of `stakes` that `apply_block` inserts for a transaction, if any. -/
def stakeRow (hd : Header) (tx : Transaction) : Option (TxHash × StakeRow) :=
  if tx.kind = .stake then
    match M.decodeStakeDoc tx.data with
    | some doc =>
      if 500000 ≤ hd.height ∨ hd.network ≠ .mainnet then
        some (M.hashNosigs tx, ⟨hd.height, doc⟩)
      else
        none
    | none => none
  else
    none

/-- The SQL transaction at the end of `apply_block`; `none` is a failed statement, which rolls the
transaction back. -/
def insertBlock (db : Tables) (blk : Block) (cproof : ConsensusProof) : Option Tables :=
  if blk.header.height ≤ maxSqlHeight then do
    let history ← Table.insertNew db.history blk.header.height ⟨blk.header, blk⟩
    let consensusProofs ← Table.insertNew db.consensusProofs blk.header.height cproof
    let stakes ← blk.transactions.foldlM
      (fun stakes tx => Table.insertOption stakes (M.stakeRow blk.header tx)) db.stakes
    some ⟨history, consensusProofs, stakes⟩
  else
    none

/-- `get_stakeset`: the genesis stakes, over them the rows up to the height, less what is
expired. -/
def getStakeset (genesis : GenesisConfig) (db : Tables) (height : Nat) : StakeSet :=
  let stakes := Table.overlay genesis.stakes (fun _ => true) id ∅
  StakeSet.unlockOld
    (Table.overlay db.stakes (fun row => decide (row.height ≤ height)) StakeRow.stakeDoc stakes)
    (M.epoch height)

/-- The end of `get_state`, once the block and the stakes are read. -/
def rebuildState (blk : Block) (stakes : StakeSet) : Except PanicSite Sealed :=
  if M.stakesHash stakes = blk.header.stakesHash then .ok (M.fromBlock blk stakes)
  else .error .stakesHashMismatch

/-- `get_state`. -/
def getState (genesis : GenesisConfig) (db : Tables) (height : Nat) :
    Except PanicSite (Option Sealed) :=
  match db.block? height with
  | none => .ok none
  | some blk => (M.rebuildState blk (M.getStakeset genesis db height)).map some

/-- `highest_state` once it has read the highest height. -/
def stateAt (genesis : GenesisConfig) (db : Tables) (height : Nat) :
    Except PanicSite Sealed :=
  if 0 < height then
    match M.getState genesis db height with
    | .error site => .error site
    | .ok none => .error .highestNotAvailable
    | .ok (some s) => .ok s
  else
    .ok (M.genesisState genesis)

/-- `highest_state` on tables nobody writes to meanwhile. -/
def highestState (genesis : GenesisConfig) (db : Tables) : Except PanicSite Sealed :=
  M.stateAt genesis db db.highestHeight

/-- The checks of `apply_block` against the highest state. A stored height stays below
`maxSqlHeight`, so the sum does not overflow. -/
def checkBlock (s : Sealed) (blk : Block) (cproof : ConsensusProof) :
    Except (Fault ApplyError) Sealed :=
  if blk.header.height ≠ (M.header s).height + 1 then
    .error (.bail (.cannotApply blk.header.height (M.header s).height))
  else do
    M.voteCheck (M.rawStakes s) blk cproof
    match M.applyBlock s blk with
    | .error e => .error (.bail (.state e))
    | .ok s' => .ok s'

end Melstf

end Melnode
