import Melnode.Lib.Prog
import Melnode.Sync.Blksync

/-!
# The RPC handlers

`NodeRpcImpl`'s handlers as programs: an operation is one read or write of something shared (a cache,
the database, the mempool), and other tasks may run between any two of them. Reads of the database
are those of `Storage`; its caches are shared with the rest of the node, the other three caches and
`recent` belong to the handlers.
-/

namespace Melnode

open Lib

/-! ## Requests and replies -/

/-- `Substate`. -/
inductive Substate where
  | coins
  | history
  | pools
  | stakes
  | transactions
  deriving DecidableEq, Repr

/-- `AbbrBlock`. -/
structure AbbrBlock where
  header : Header
  txhashes : Finset TxHash
  proposerAction : Option ProposerAction
  deriving DecidableEq

/-- `StateSummary`. -/
structure StateSummary where
  netid : NetID
  height : Nat
  header : Header
  proof : ConsensusProof
  deriving DecidableEq

/-- `TransactionError`; the text of `Invalid` is that of the mempool's error. -/
inductive TransactionError where
  | recentlySeen
  | invalid (e : MempoolError)
  deriving DecidableEq, Repr

/-- The verbs that do not need the coin indexer. -/
inductive Request where
  | sendTx (tx : Transaction)
  | getAbbrBlock (height : Nat)
  | getSummary
  | getBlock (height : Nat)
  | getLz4Blocks (height sizeLimit : Nat)
  | getSmtBranch (height : Nat) (elem : Substate) (key : HashVal)
  | getStakersRaw (height : Nat)
  deriving DecidableEq

/-- The verbs whose reply is about one height or the highest state. -/
def Request.isRead : Request → Bool
  | .sendTx _ => false
  | .getLz4Blocks _ _ => false
  | _ => true

inductive Reply (ω : Type) where
  | sendTx (res : Except TransactionError Unit)
  | abbrBlock (res : Option (AbbrBlock × ConsensusProof))
  | summary (res : StateSummary)
  | block (res : Option Block)
  | lz4Blocks (res : Option ω)
  | smtBranch (res : Option (Bytes × Bytes))
  | stakersRaw (res : Option (Table HashVal Bytes))
  deriving DecidableEq

/-- The places where a handler panics. -/
inductive RpcPanic where
  -- an overflow check, or a panic of a storage read
  | storage (site : PanicSite)
  -- `todo!("no longer relevant")`
  | todo
  -- `get_tree(Default::default()).unwrap()`
  | unwrap
  -- `[..10]` on a shorter text
  | slice
  deriving DecidableEq, Repr

/-! ## Operations -/

/-- What a handler does to something shared; `ι` are the peers. -/
inductive RpcOp (Tree ι : Type) where
  | maxHeight
  | cachedBlock (height : Nat)
  | blockRow (height : Nat)
  | cacheBlock (height : Nat) (blk : Block)
  | stakeset (height : Nat)
  | proofRow (height : Nat)
  | abbrBlockGet (height : Nat)
  | abbrBlockInsert (height : Nat) (summ : AbbrBlock × ConsensusProof)
  | summaryGet (height : Nat)
  | summaryPush (height : Nat) (summary : StateSummary)
  | coinSmtGet (height : Nat)
  | coinSmtPut (height : Nat) (tree : Tree)
  -- the age of an entry of `recent`, in nanoseconds
  | recentPeek (hash : TxHash)
  | recentPut (hash : TxHash)
  | applyTransaction (tx : Transaction)
  | routes
  | forward (neigh : ι) (tx : Transaction)
  | panic (site : RpcPanic)
  -- a loop that makes no further progress
  | spin

/-- The answer of an operation. -/
@[reducible] def RpcOp.Res {Tree ι : Type} : RpcOp Tree ι → Type
  | .maxHeight => Nat
  | .cachedBlock _ => Option Block
  | .blockRow _ => Option Block
  | .cacheBlock _ _ => Unit
  | .stakeset _ => StakeSet
  | .proofRow _ => Option ConsensusProof
  | .abbrBlockGet _ => Option (AbbrBlock × ConsensusProof)
  | .abbrBlockInsert _ _ => Unit
  | .summaryGet _ => Option StateSummary
  | .summaryPush _ _ => Unit
  | .coinSmtGet _ => Option Tree
  | .coinSmtPut _ _ => Unit
  | .recentPeek _ => Option Nat
  | .recentPut _ => Unit
  | .applyTransaction _ => Except MempoolError Unit
  | .routes => List ι
  | .forward _ _ => Unit
  | .panic _ => Empty
  | .spin => Empty

/-- A part of a handler. -/
abbrev Rpc (Tree ι α : Type) := Prog (RpcOp Tree ι) RpcOp.Res α

namespace Rpc

variable {Tree ι α : Type}

def op (o : RpcOp Tree ι) : Rpc Tree ι o.Res := Prog.perform o

def panic (site : RpcPanic) : Rpc Tree ι α := .call (.panic site) Empty.elim

def spin : Rpc Tree ι α := .call .spin Empty.elim

/-- An addition under the overflow check of `usize` or `u64`. -/
def add64 (a b : Nat) : Rpc Tree ι Nat :=
  if a + b < 2 ^ 64 then pure (a + b) else panic (.storage .overflow)

/-- `&text[..n]` of an ASCII text. -/
def sliceTo (text : List Char) (n : Nat) : Rpc Tree ι (List Char) :=
  if n ≤ text.length then pure (text.take n) else panic .slice

end Rpc

/-- The hexadecimal digits of a hash. -/
def hexText (hash : HashVal) : List Char :=
  (List.range 64).map fun i => Nat.digitChar (hash.toNat / 16 ^ (63 - i) % 16)

theorem length_hexText (hash : HashVal) : (hexText hash).length = 64 := by
  unfold hexText
  rw [List.length_map, List.length_range]

/-! ## Handlers -/

/-- A node's handlers: the crates they call, the genesis and the network they are set up with. -/
structure NodeRpc (Sealed Unsealed Tree ω : Type) where
  melstf : Melstf Sealed Unsealed
  genesis : GenesisConfig
  network : NetID
  wire : Wire ω
  -- `novasmt`: the tree of an empty in-memory database, `SmtMapping::insert`, and
  -- `get_with_proof` with the proof compressed
  emptyTree : Option Tree
  insertTx : Tree → TxHash → Transaction → Tree
  getWithProof : Tree → HashVal → Bytes × Bytes
  coinsSmt : Sealed → Tree
  historySmt : Sealed → Tree
  poolsSmt : Sealed → Tree
  -- the hash of a transaction hash, and the stdcode of a stake document
  rehash : HashVal → HashVal
  stakeDocBytes : StakeDoc → Bytes

namespace NodeRpc

variable {Sealed Unsealed Tree ω ι : Type} (N : NodeRpc Sealed Unsealed Tree ω)

/-- `Block::abbreviate`. -/
def abbreviate (blk : Block) : AbbrBlock where
  header := blk.header
  txhashes := (blk.transactions.map N.melstf.hashNosigs).toFinset
  proposerAction := blk.proposerAction

/-- `Storage::get_block`. -/
def getBlock (height : Nat) : Rpc Tree ι (Option Block) := do
  let cached : Option Block ← Rpc.op (.cachedBlock height)
  match cached with
  | some val => pure (some val)
  | none =>
    let res : Option Block ← Rpc.op (.blockRow height)
    match res with
    | some block =>
      let _ : Unit ← Rpc.op (.cacheBlock height block)
      pure (some block)
    | none => pure none

/-- `Storage::get_state`. -/
def getState (height : Nat) : Rpc Tree ι (Option Sealed) := do
  match ← getBlock height with
  | none => pure none
  | some block =>
    let stakeset : StakeSet ← Rpc.op (.stakeset height)
    match N.melstf.rebuildState block stakeset with
    | .ok state => pure (some state)
    | .error site => Rpc.panic (.storage site)

/-- `Storage::highest_state`. -/
def highestState : Rpc Tree ι Sealed := do
  let height : Nat ← Rpc.op .maxHeight
  if 0 < height then
    match ← N.getState height with
    | some state => pure state
    | none => Rpc.panic (.storage .highestNotAvailable)
  else
    pure (N.melstf.genesisState N.genesis)

/-- The tree of a block's transactions. -/
def txTree (tree : Tree) (state : Sealed) : Tree :=
  (N.melstf.toBlock state).transactions.foldl
    (fun tree tx => N.insertTx tree (N.melstf.hashNosigs tx) tx) tree

/-- `get_coin_tree`; `none` is its error. -/
def getCoinTree (height : Nat) : Rpc Tree ι (Option Tree) := do
  let otree : Option Tree ← Rpc.op (.coinSmtGet height)
  match otree with
  | some v => pure (some v)
  | none =>
    match ← N.getState height with
    | none => pure none
    | some state =>
      match N.emptyTree with
      | none => Rpc.panic .unwrap
      | some tree =>
        let _ : Unit ← Rpc.op (.coinSmtPut height (N.txTree tree state))
        pure (some (N.txTree tree state))

/-- The copies `send_tx` sends. -/
def forwards (tx : Transaction) : List ι → Rpc Tree ι Unit
  | [] => pure ()
  | neigh :: rest => do
    let _ : Unit ← Rpc.op (.forward neigh tx)
    forwards tx rest

/-- `send_tx` from `recent.put` on. -/
def sendUnseen (tx : Transaction) : Rpc Tree ι (Except TransactionError Unit) := do
  let _ : Unit ← Rpc.op (.recentPut (N.melstf.hashNosigs tx))
  let res : Except MempoolError Unit ← Rpc.op (.applyTransaction tx)
  match res with
  | .error e => pure (.error (.invalid e))
  | .ok () =>
    let _ ← Rpc.sliceTo (hexText (N.melstf.hashNosigs tx)) 10
    let routes : List ι ← Rpc.op .routes
    forwards tx (routes.take 16)
    pure (.ok ())

/-- `send_tx`. -/
def sendTx (tx : Transaction) : Rpc Tree ι (Except TransactionError Unit) := do
  let val : Option Nat ← Rpc.op (.recentPeek (N.melstf.hashNosigs tx))
  match val with
  | some elapsed =>
    if elapsed < 10 * 1000000000 then pure (.error .recentlySeen) else N.sendUnseen tx
  | none => N.sendUnseen tx

/-- `get_abbr_block`. -/
def getAbbrBlock (height : Nat) : Rpc Tree ι (Option (AbbrBlock × ConsensusProof)) := do
  let c : Option (AbbrBlock × ConsensusProof) ← Rpc.op (.abbrBlockGet height)
  match c with
  | some c => pure (some c)
  | none =>
    match ← getBlock height with
    | none => pure none
    | some block =>
      let proof : Option ConsensusProof ← Rpc.op (.proofRow height)
      match proof with
      | none => pure none
      | some proof =>
        let _ : Unit ← Rpc.op (.abbrBlockInsert height (N.abbreviate block, proof))
        pure (some (N.abbreviate block, proof))

/-- `get_summary`. -/
def getSummary : Rpc Tree ι StateSummary := do
  let highest ← N.highestState
  let header := N.melstf.header highest
  let res : Option StateSummary ← Rpc.op (.summaryGet header.height)
  match res with
  | some res => pure res
  | none =>
    let proof : Option ConsensusProof ← Rpc.op (.proofRow header.height)
    let summary : StateSummary := ⟨N.network, header.height, header, proof.getD ∅⟩
    let _ : Unit ← Rpc.op (.summaryPush header.height summary)
    pure summary

/-- The loop of `get_lz4_blocks`; it needs no more rounds than `fuel`. -/
def batches (sizeLimit : Nat) : Nat → Nat → Nat → List Block → List ConsensusProof →
    Rpc Tree ι (Option (List Block × List ConsensusProof))
  | 0, _, _, _, _ => Rpc.spin
  | fuel + 1, height, totalCount, accum, proofAccum =>
    if totalCount ≤ sizeLimit then do
      match ← getBlock height with
      | some block =>
        let proof : Option ConsensusProof ← Rpc.op (.proofRow height)
        match proof with
        | some proof =>
          let totalCount ← Rpc.add64 totalCount (N.wire.blockLen block)
          let totalCount ← Rpc.add64 totalCount (N.wire.proofLen proof)
          let accum := accum ++ [block]
          let proofAccum := proofAccum ++ [proof]
          -- `accum.pop()`, and no `proof_accum.pop()`
          let accum := if sizeLimit < totalCount ∧ 1 < accum.length then accum.dropLast else accum
          let height ← Rpc.add64 height 1
          batches sizeLimit fuel height totalCount accum proofAccum
        | none => batches sizeLimit fuel height totalCount accum proofAccum
      | none => if accum.isEmpty then pure none else pure (some (accum, proofAccum))
    else
      pure (some (accum, proofAccum))

/-- `get_lz4_blocks`. -/
def getLz4Blocks (height sizeLimit : Nat) : Rpc Tree ι (Option ω) := do
  let sizeLimit := min sizeLimit 10000000
  match ← N.batches sizeLimit (sizeLimit + 2) height 0 [] [] with
  | some lists => pure (some (N.wire.encode lists))
  | none => pure none

/-- `get_smt_branch`. -/
def getSmtBranch (height : Nat) (elem : Substate) (key : HashVal) :
    Rpc Tree ι (Option (Bytes × Bytes)) := do
  match ← N.getState height with
  | none => pure none
  | some state =>
    match ← N.getCoinTree height with
    | none => pure none
    | some ctree =>
      match elem with
      | .coins => pure (some (N.getWithProof (N.coinsSmt state) key))
      | .history => pure (some (N.getWithProof (N.historySmt state) key))
      | .pools => pure (some (N.getWithProof (N.poolsSmt state) key))
      | .stakes => Rpc.panic .todo
      | .transactions => pure (some (N.getWithProof ctree key))

/-- `get_stakers_raw`. -/
def getStakersRaw (height : Nat) : Rpc Tree ι (Option (Table HashVal Bytes)) := do
  match ← N.getState height with
  | none => pure none
  | some state =>
    pure (some ((N.melstf.rawStakes state).toList.foldl
      (fun acc kv => acc.insert (N.rehash kv.1) (N.stakeDocBytes kv.2)) ∅))

/-- What a request runs. -/
def body : Request → Rpc Tree ι (Reply ω)
  | .sendTx tx => Reply.sendTx <$> N.sendTx tx
  | .getAbbrBlock height => Reply.abbrBlock <$> N.getAbbrBlock height
  | .getSummary => Reply.summary <$> N.getSummary
  | .getBlock height => Reply.block <$> getBlock height
  | .getLz4Blocks height sizeLimit => Reply.lz4Blocks <$> N.getLz4Blocks height sizeLimit
  | .getSmtBranch height elem key => Reply.smtBranch <$> N.getSmtBranch height elem key
  | .getStakersRaw height => Reply.stakersRaw <$> N.getStakersRaw height

end NodeRpc

end Melnode
