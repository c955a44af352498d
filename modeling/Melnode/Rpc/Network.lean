import Melnode.Rpc.Handlers

/-!
# A network of nodes that serve requests

Each node has its storage, with everything `Storage.Process` lets happen to it, and the caches of its
handlers. `N.swarm ι` are nodes `ι` with any number of handlers each, in any interleaving: a handler
is called with any request at any time, by a client or with a copy some node sent, once or many times.
A step of a handler performs one operation; what the clock shows and which routes the swarm has at
that moment come with the step. A panic ends the node.
-/

namespace Melnode

open Lib

variable {Sealed Unsealed Tree ω ι : Type}

/-- A node: its storage and the fields of `NodeRpcImpl`. -/
structure RpcNode (Sealed Unsealed Tree : Type) where
  storage : Procs.Config Nat (Shared Unsealed) (Call Sealed)
  -- the entries of the LRU cache, the last one put first
  recent : List (TxHash × Nat)
  summary : Table Nat StateSummary
  coinSmts : Table Nat Tree
  abbrBlockCache : Table Nat (AbbrBlock × ConsensusProof)
  -- where a handler has panicked
  panicked : Option RpcPanic
  -- how often the mempool has been rebased; nothing reads it
  rebases : Nat

namespace RpcNode

variable (node : RpcNode Sealed Unsealed Tree)

def db : Tables := node.storage.shared.db

def mempool : Mempool Unsealed := node.storage.shared.mempool

/-- The process is there. -/
def alive : Bool := node.panicked.isNone && !node.storage.shared.crashed

end RpcNode

/-- A handler's transaction that a mempool accepted: which handler, of which node, and between which
rebases. -/
structure Acceptance (ι : Type) where
  handler : ι × Nat
  hash : TxHash
  interval : Nat
  deriving DecidableEq

/-- A copy of a transaction that a handler sent. -/
structure Copy (ι : Type) where
  handler : ι × Nat
  neigh : ι
  tx : Transaction
  deriving DecidableEq

/-- The nodes, and what has happened; nothing reads the latter. -/
structure Network (Sealed Unsealed Tree ι : Type) where
  nodes : ι → RpcNode Sealed Unsealed Tree
  accepted : List (Acceptance ι)
  copies : List (Copy ι)

/-- What a handler finds at a step: the clock in nanoseconds, and the routes of the swarm. -/
structure Surroundings (ι : Type) where
  clock : Nat
  routes : List ι

/-- The steps of everything but the handlers. -/
inductive NetworkEvent (Sealed ι : Type) where
  | storage (i : ι) (label : (Nat × CallEvent) ⊕ StorageEvent Sealed)
  -- a cache drops an entry
  | evictSummary (i : ι) (height : Nat)
  | evictCoinSmt (i : ι) (height : Nat)
  | evictAbbrBlock (i : ι) (height : Nat)

/-- `LruCache::put` with room for `capacity` entries. -/
def lruPut {κ β : Type} [DecidableEq κ] (capacity : Nat) (entries : List (κ × β)) (k : κ) (v : β) :
    List (κ × β) :=
  ((k, v) :: entries.filter fun kv => kv.1 ≠ k).take capacity

/-- A step that replaces the mempool's state. -/
def isRebase : (Nat × CallEvent) ⊕ StorageEvent Sealed → Bool
  | .inl (_, .rebase) => true
  | .inr (.rebaseMempool _) => true
  | _ => false

/-- A step of the storage that is neither a handler's nor the end of the process. -/
def isOthers : (Nat × CallEvent) ⊕ StorageEvent Sealed → Bool
  | .inr (.sendTx _) => false
  | .inr .kill => false
  | .inr .reopen => false
  | _ => true

namespace NodeRpc

variable [DecidableEq ι] (N : NodeRpc Sealed Unsealed Tree ω)

/-- A step of a node's storage. -/
def storageExec (node : RpcNode Sealed Unsealed Tree)
    (label : (Nat × CallEvent) ⊕ StorageEvent Sealed) : Option (RpcNode Sealed Unsealed Tree) :=
  ((N.melstf.storage N.genesis).exec node.storage label).map fun storage =>
    { node with storage := storage }

/-- A node performs an operation; a panic has no answer. -/
def nodeExec (e : Surroundings ι) (node : RpcNode Sealed Unsealed Tree) :
    (op : RpcOp Tree ι) → Option (RpcNode Sealed Unsealed Tree × Option op.Res)
  | .maxHeight => some (node, some node.db.highestHeight)
  | .cachedBlock height => some (node, some node.storage.shared.oldCache[height]?)
  | .blockRow height =>
    -- SQLite has no integers above `maxSqlHeight`: `autoretry` goes on for ever
    if height ≤ maxSqlHeight then
      match node.db.block? height with
      | some blk => (N.storageExec node (.inr (.fetch height))).map fun node => (node, some (some blk))
      | none => some (node, some none)
    else
      none
  | .cacheBlock height blk =>
    (N.storageExec node (.inr (.fill height blk))).map fun node => (node, some ())
  | .stakeset height =>
    if height ≤ maxSqlHeight then
      some (node, some (N.melstf.getStakeset N.genesis node.db height))
    else
      none
  | .proofRow height =>
    if height ≤ maxSqlHeight then some (node, some node.db.consensusProofs[height]?) else none
  | .abbrBlockGet height => some (node, some node.abbrBlockCache[height]?)
  | .abbrBlockInsert height summ =>
    some ({ node with abbrBlockCache := node.abbrBlockCache.insert height summ }, some ())
  | .summaryGet height => some (node, some node.summary[height]?)
  | .summaryPush height summary =>
    some ({ node with summary := node.summary.insert height summary }, some ())
  | .coinSmtGet height => some (node, some node.coinSmts[height]?)
  | .coinSmtPut height tree =>
    some ({ node with coinSmts := node.coinSmts.insert height tree }, some ())
  | .recentPeek hash =>
    some (node, some ((node.recent.lookup hash).map fun instant => e.clock - instant))
  | .recentPut hash =>
    some ({ node with recent := lruPut 1000 node.recent hash e.clock }, some ())
  | .applyTransaction tx =>
    (N.storageExec node (.inr (.sendTx tx))).map fun node' =>
      match (Mempool.applyTransaction N.melstf node.mempool tx).1 with
      | .ok () => (node', some (.ok ()))
      | .error (.bail e) => (node', some (.error e))
      | .error (.panic site) => ({ node' with panicked := some (.storage site) }, none)
  | .routes => some (node, some e.routes)
  | .forward _ _ => some (node, some ())
  | .panic site => some ({ node with panicked := some site }, none)
  | .spin => none

/-- What is kept of an operation. -/
def noted (t : ι × Nat) (node : RpcNode Sealed Unsealed Tree)
    (s : Network Sealed Unsealed Tree ι) : RpcOp Tree ι → Network Sealed Unsealed Tree ι
  | .applyTransaction tx =>
    match (Mempool.applyTransaction N.melstf node.mempool tx).1 with
    | .ok () => { s with accepted := ⟨t, N.melstf.hashNosigs tx, node.rebases⟩ :: s.accepted }
    | .error _ => s
  | .forward neigh tx => { s with copies := ⟨t, neigh, tx⟩ :: s.copies }
  | _ => s

/-- A handler performs an operation. -/
def exec (t : ι × Nat) (e : Surroundings ι) (op : RpcOp Tree ι)
    (s : Network Sealed Unsealed Tree ι) :
    Option (Network Sealed Unsealed Tree ι × Option op.Res) :=
  if (s.nodes t.1).alive then
    (N.nodeExec e (s.nodes t.1) op).map fun
      | (node, r) =>
        (N.noted t (s.nodes t.1) { s with nodes := Function.update s.nodes t.1 node } op, r)
  else
    none

/-- A step of everything else. -/
def env (s : Network Sealed Unsealed Tree ι) :
    NetworkEvent Sealed ι → Option (Network Sealed Unsealed Tree ι)
  | .storage i label =>
    if (s.nodes i).alive ∧ isOthers label then
      (N.storageExec (s.nodes i) label).map fun node =>
        let rebases := if isRebase label then node.rebases + 1 else node.rebases
        { s with nodes := Function.update s.nodes i { node with rebases := rebases } }
    else
      none
  | .evictSummary i height =>
    let node := s.nodes i
    some { s with
      nodes := Function.update s.nodes i { node with summary := node.summary.erase height } }
  | .evictCoinSmt i height =>
    let node := s.nodes i
    some { s with
      nodes := Function.update s.nodes i { node with coinSmts := node.coinSmts.erase height } }
  | .evictAbbrBlock i height =>
    let node := s.nodes i
    some { s with
      nodes := Function.update s.nodes i
        { node with abbrBlockCache := node.abbrBlockCache.erase height } }

/-- A node started on a storage. -/
def startNode (storage : Procs.Config Nat (Shared Unsealed) (Call Sealed)) :
    RpcNode Sealed Unsealed Tree where
  storage := storage
  recent := []
  summary := ∅
  coinSmts := ∅
  abbrBlockCache := ∅
  panicked := none
  rebases := 0

/-- Nodes started on storages in any reachable state, with any number of handlers. -/
def swarm (ι : Type) [DecidableEq ι] :
    Threads (ι × Nat) (Network Sealed Unsealed Tree ι) Request (Reply ω) (Surroundings ι)
      (NetworkEvent Sealed ι) (RpcOp Tree ι) RpcOp.Res where
  init s := s.accepted = [] ∧ s.copies = [] ∧ ∃ storage : ι → Procs.Config Nat _ _,
    (∀ i, (N.melstf.storage N.genesis).lts.Reachable (storage i)) ∧
      s.nodes = fun i => startNode (storage i)
  body := N.body
  exec := N.exec
  env d s := N.env s d

/-- The states of a swarm. -/
abbrev Config (_ : NodeRpc Sealed Unsealed Tree ω) (ι : Type) : Type :=
  Procs.Config (ι × Nat) (Network Sealed Unsealed Tree ι)
    (Thread (RpcOp Tree ι) RpcOp.Res Request (Reply ω))

/-- The steps of a swarm. -/
abbrev Label (_ : NodeRpc Sealed Unsealed Tree ω) (ι : Type) : Type :=
  ((ι × Nat) × ThreadEvent Request (Surroundings ι)) ⊕ NetworkEvent Sealed ι

end NodeRpc

/-! ## The three-staker network -/

namespace Ledger

/-- The handlers over the small state transition; its trees are tables. -/
def rpc : NodeRpc Ledger.Sealed Ledger.Unsealed (Table HashVal Bytes) (List Block × List ConsensusProof) where
  melstf := ledger
  genesis := threeStakers
  network := .custom 2
  wire := wire
  emptyTree := some ∅
  insertTx := fun tree hash tx => tree.insert hash (tx.data ++ tx.rest)
  getWithProof := fun tree key => (tree[key]?.getD [], [])
  coinsSmt := fun _ => ∅
  historySmt := fun _ => ∅
  poolsSmt := fun _ => ∅
  rehash := id
  stakeDocBytes := encodeStakeDoc

/-- Nodes started on one storage each. -/
def swarmOn
    (storage : ι → Procs.Config Nat (Shared Ledger.Unsealed) (Call Ledger.Sealed)) :
    rpc.Config ι where
  shared := ⟨fun i => NodeRpc.startNode (storage i), [], []⟩
  procs _ := .idle

/-- A run of a swarm. -/
def swarmAfter [DecidableEq ι] (c : rpc.Config ι) (labels : List (rpc.Label ι)) :
    rpc.Config ι :=
  ((rpc.swarm ι).procs.run c labels).getD c

/-- Steps of one handler. -/
def handles (t : ι × Nat) (e : Surroundings ι) (req : Request) (steps : Nat) :
    List (rpc.Label ι) :=
  .inl (t, .call req) :: List.replicate steps (.inl (t, .step e))

end Ledger

end Melnode
