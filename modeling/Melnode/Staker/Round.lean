import Melnode.Staker.Votes
import Melnode.Storage.Follow

/-!
# A node with a staker

`node` puts the staker task of `staker.rs` beside a storage and its calls. The staker goes through
rounds: it reads the highest state as its base, sleeps, takes the mempool's state as a proposal (or
rebases a mempool of another height), runs streamlette on it, signs the decision, gathers the
signatures of its neighbours until `get_proof` returns them, and calls `apply_block`. While it waits
for streamlette, for neighbours or for its call, `skip_round` may find the next height stored and
drop what it was doing. The node is one process, so it is never reopened.
-/

namespace Melnode

open Lib

/-- `StakerConfig`; of `signing_secret` its public key and its signing function. -/
structure StakerConfig where
  publicKey : Ed25519PK
  sign : HashVal → Bytes
  payoutAddr : Address
  targetFeeMultiplier : Nat

variable {Sealed Unsealed : Type}

/-- Where `network_task` is. -/
inductive Round (Sealed : Type) where
  | listening
  -- `storage.highest_state()`
  | reading (r : Reading Sealed)
  -- until it is time for the next height
  | waiting (baseState : Sealed)
  -- about to rebase the mempool
  | mismatch (baseState : Sealed)
  | deciding (baseState : Sealed) (myProposal : Block)
  | gathering (baseState : Sealed) (decision : Block)
  | applying (baseState : Sealed) (decision : Block) (call : Nat)
  deriving DecidableEq

structure Node (Sealed Unsealed : Type) where
  storage : Procs.Config Nat (Shared Unsealed) (Call Sealed)
  round : Round Sealed
  sigGather : Table Nat ConsensusProof
  -- the hashes signed at each height, and the heights whose round ended with a failed `apply_block`
  -- and no stored block; nothing reads them
  signed : List (Nat × HashVal)
  failed : List Nat

inductive StakerEvent where
  -- `start_listen` succeeds, or fails and `network_task` starts over
  | listen (ok : Bool)
  | read (cached : Bool)
  | wait
  | propose
  | rebase
  | decide (decision : Block)
  -- the reply of a neighbour to `get_sigs`
  | merge (reply : ConsensusProof)
  | submit (call : Nat)
  | finish
  | skip

inductive NodeEvent (Sealed : Type) where
  | storage (label : (Nat × CallEvent) ⊕ StorageEvent Sealed)
  | staker (e : StakerEvent)

/-- A panic of the staker. -/
def Node.crash (n : Node Sealed Unsealed) : Node Sealed Unsealed :=
  { n with storage := { n.storage with shared := { n.storage.shared with crashed := true } } }

/-- `for (k, v) in map { existing.insert(k, v); }`. -/
def mergeReply (existing reply : ConsensusProof) : ConsensusProof :=
  reply.toList.foldl (fun existing kv => existing.insert kv.1 kv.2) existing

/-- The steps that are not the staker's. -/
def Round.leaves (round : Round Sealed) : (Nat × CallEvent) ⊕ StorageEvent Sealed → Bool
  | .inl (i, .drop) =>
    match round with
    | .applying _ _ call => i != call
    | _ => true
  | .inr (.rebaseMempool _) => false
  | .inr .reopen => false
  | _ => true

/-- The base state of a round that `skip_round` races with, and its call. -/
def Round.racing : Round Sealed → Option (Sealed × Option Nat)
  | .deciding baseState _ => some (baseState, none)
  | .gathering baseState _ => some (baseState, none)
  | .applying baseState _ call => some (baseState, some call)
  | _ => none

namespace Melstf

variable (M : Melstf Sealed Unsealed) (genesis : GenesisConfig) (cfg : StakerConfig)

/-- `next_height`. -/
def nextHeight (baseState : Sealed) : Nat := (M.header baseState).height + 1

/-- `if next_height.0 > 10 { sig_gather.remove(..) }`. -/
def pruneSigs (sigGather : Table Nat ConsensusProof) (nextHeight : Nat) : Table Nat ConsensusProof :=
  if 10 < nextHeight then sigGather.erase (nextHeight - 10) else sigGather

/-- The action of the block the staker proposes. -/
def proposerAction (baseState : Sealed) : ProposerAction where
  feeMultiplierDelta :=
    if cfg.targetFeeMultiplier < (M.header baseState).feeMultiplier then -100 else 100
  rewardDest := cfg.payoutAddr

/-- `verify_proposal` on the encoding of a block. -/
def verifyProposal (baseState : Sealed) (blk : Block) : Bool := (M.applyBlock baseState blk).isOk

/-- `skip_round` wins over the round, whose call is dropped. -/
def skipRound (n : Node Sealed Unsealed) (baseState : Sealed) (call : Option Nat) :
    Option (Node Sealed Unsealed) :=
  match M.getState genesis n.storage.shared.db (M.nextHeight baseState) with
  | .error _ => some n.crash
  | .ok none => none
  | .ok (some _) =>
    match call with
    | none => some { n with round := .reading .start }
    | some i =>
      ((M.storage genesis).exec n.storage (.inl (i, .drop))).map fun storage =>
        { n with storage := storage, round := .reading .start }

/-- One step of the staker. -/
def stakerStep (e : StakerEvent) (n : Node Sealed Unsealed) : Option (Node Sealed Unsealed) :=
  let sh := n.storage.shared
  if sh.crashed then none else
  match e, n.round with
  | .listen ok, .listening =>
    some { n with round := if ok then .reading .start else .listening, sigGather := ∅ }
  | .read cached, .reading r =>
    (M.readStep genesis cached sh r).map fun (sh, r) =>
      { n with storage := { n.storage with shared := sh }, round := .reading r }
  | .wait, .reading (.done baseState) =>
    some { n with
      round := .waiting baseState
      sigGather := pruneSigs n.sigGather (M.nextHeight baseState) }
  | .propose, .waiting baseState =>
    let proposedState := sh.mempool.toState
    if (M.header (M.sealState proposedState none)).height ≠ M.nextHeight baseState then
      some { n with round := .mismatch baseState }
    else
      let action := M.proposerAction cfg baseState
      some { n with
        round := .deciding baseState (M.toBlock (M.sealState proposedState (some action))) }
  | .rebase, .mismatch baseState =>
    ((M.storage genesis).exec n.storage (.inr (.rebaseMempool baseState))).map fun storage =>
      { n with storage := storage, round := .reading .start }
  | .decide decision, .deciding baseState _ =>
    if M.verifyProposal baseState decision then
      let hash := M.headerHash decision.header
      some { n with
        round := .gathering baseState decision
        sigGather := n.sigGather.insert decision.header.height
          ((∅ : ConsensusProof).insert cfg.publicKey (cfg.sign hash))
        signed := (decision.header.height, hash) :: n.signed }
    else
      none
  | .merge reply, .gathering baseState _ =>
    let existing := n.sigGather[M.nextHeight baseState]?.getD ∅
    some { n with
      sigGather := n.sigGather.insert (M.nextHeight baseState) (mergeReply existing reply) }
  | .submit i, .gathering baseState decision =>
    match (M.getProof baseState (n.sigGather[decision.header.height]?.getD ∅) :
      Except (Fault ApplyError) (Option ConsensusProof)) with
    | .error _ => some n.crash
    | .ok none => none
    | .ok (some cproof) =>
      ((M.storage genesis).exec n.storage (.inl (i, .invoke decision cproof))).map fun storage =>
        { n with storage := storage, round := .applying baseState decision i }
  | .finish, .applying _ decision i =>
    match n.storage.procs i with
    | .made _ _ (.returned (.ok ())) => some { n with round := .reading .start }
    -- "cannot commit newly decided block"
    | .made _ _ (.returned (.error _)) =>
      some { n with
        round := .reading .start
        failed := if (sh.db.block? decision.header.height).isSome then n.failed
          else decision.header.height :: n.failed }
    | _ => none
  | .skip, round =>
    match round.racing with
    | some (baseState, call) => M.skipRound genesis n baseState call
    | none => none
  | _, _ => none

/-- One step of the node. -/
def nodeStep (n : Node Sealed Unsealed) : NodeEvent Sealed → Option (Node Sealed Unsealed)
  | .storage label =>
    if n.round.leaves label then
      ((M.storage genesis).exec n.storage label).map fun storage => { n with storage := storage }
    else
      none
  | .staker e => M.stakerStep genesis cfg e n

/-- A storage on some chain, nobody using it, and a staker that has not begun. -/
structure NodeOpened (M : Melstf Sealed Unsealed) (genesis : GenesisConfig)
    (n : Node Sealed Unsealed) : Prop where
  shared : M.SharedOk genesis n.storage.shared
  lock : n.storage.shared.lock = none
  calls : n.storage.procs = fun _ => .idle
  round : n.round = .listening
  sigGather : n.sigGather = ∅
  signed : n.signed = []
  failed : n.failed = []

/-- The runs of a node. -/
def node : Lts (Node Sealed Unsealed) (NodeEvent Sealed) :=
  Lts.ofNext (M.NodeOpened genesis) (M.nodeStep genesis cfg)

/-! ## What a step can do -/

/-- The cases of `stakerStep`. -/
inductive StakerStep (n : Node Sealed Unsealed) : StakerEvent → Node Sealed Unsealed → Prop where
  | listen (ok : Bool) (hround : n.round = .listening) :
      StakerStep n (.listen ok)
        { n with round := if ok then .reading .start else .listening, sigGather := ∅ }
  | read (cached : Bool) {r r' : Reading Sealed} {sh : Shared Unsealed}
      (hround : n.round = .reading r) (hr : M.ReadStep genesis n.storage.shared r sh r') :
      StakerStep n (.read cached)
        { n with storage := { n.storage with shared := sh }, round := .reading r' }
  | wait {baseState : Sealed} (hround : n.round = .reading (.done baseState)) :
      StakerStep n .wait { n with
        round := .waiting baseState
        sigGather := pruneSigs n.sigGather (M.nextHeight baseState) }
  | mismatch {baseState : Sealed} (hround : n.round = .waiting baseState)
      (hheight : (M.header (M.sealState n.storage.shared.mempool.toState none)).height ≠
        M.nextHeight baseState) :
      StakerStep n .propose { n with round := .mismatch baseState }
  | propose {baseState : Sealed} (hround : n.round = .waiting baseState)
      (hheight : (M.header (M.sealState n.storage.shared.mempool.toState none)).height =
        M.nextHeight baseState) :
      StakerStep n .propose { n with
        round := .deciding baseState (M.toBlock (M.sealState n.storage.shared.mempool.toState
          (some (M.proposerAction cfg baseState)))) }
  | rebase {baseState : Sealed} {storage : Procs.Config Nat (Shared Unsealed) (Call Sealed)}
      (hround : n.round = .mismatch baseState)
      (hexec : (M.storage genesis).exec n.storage (.inr (.rebaseMempool baseState)) = some storage) :
      StakerStep n .rebase { n with storage := storage, round := .reading .start }
  | decide {baseState : Sealed} {proposal decision : Block}
      (hround : n.round = .deciding baseState proposal)
      (hverify : M.verifyProposal baseState decision = true) :
      StakerStep n (.decide decision) { n with
        round := .gathering baseState decision
        sigGather := n.sigGather.insert decision.header.height
          ((∅ : ConsensusProof).insert cfg.publicKey (cfg.sign (M.headerHash decision.header)))
        signed := (decision.header.height, M.headerHash decision.header) :: n.signed }
  | merge {baseState : Sealed} {decision : Block} (reply : ConsensusProof)
      (hround : n.round = .gathering baseState decision) :
      StakerStep n (.merge reply) { n with
        sigGather := n.sigGather.insert (M.nextHeight baseState)
          (mergeReply (n.sigGather[M.nextHeight baseState]?.getD ∅) reply) }
  | submit {baseState : Sealed} {decision : Block} {cproof : ConsensusProof} (i : Nat)
      {storage : Procs.Config Nat (Shared Unsealed) (Call Sealed)}
      (hround : n.round = .gathering baseState decision)
      (hproof : (M.getProof baseState (n.sigGather[decision.header.height]?.getD ∅) :
        Except (Fault ApplyError) (Option ConsensusProof)) = .ok (some cproof))
      (hexec : (M.storage genesis).exec n.storage (.inl (i, .invoke decision cproof)) =
        some storage) :
      StakerStep n (.submit i)
        { n with storage := storage, round := .applying baseState decision i }
  | finishOk {baseState : Sealed} {decision blk : Block} {cproof : ConsensusProof} {i : Nat}
      (hround : n.round = .applying baseState decision i)
      (hcall : n.storage.procs i = .made blk cproof (.returned (.ok ()))) :
      StakerStep n .finish { n with round := .reading .start }
  | finishErr {baseState : Sealed} {decision blk : Block} {cproof : ConsensusProof} {i : Nat}
      {e : ApplyError} (hround : n.round = .applying baseState decision i)
      (hcall : n.storage.procs i = .made blk cproof (.returned (.error e))) :
      StakerStep n .finish { n with
        round := .reading .start
        failed := if (n.storage.shared.db.block? decision.header.height).isSome then n.failed
          else decision.header.height :: n.failed }
  | skip {baseState s : Sealed} (hround : n.round.racing = some (baseState, none))
      (hs : M.getState genesis n.storage.shared.db (M.nextHeight baseState) = .ok (some s)) :
      StakerStep n .skip { n with round := .reading .start }
  | skipCall {baseState s : Sealed} {i : Nat}
      {storage : Procs.Config Nat (Shared Unsealed) (Call Sealed)}
      (hround : n.round.racing = some (baseState, some i))
      (hs : M.getState genesis n.storage.shared.db (M.nextHeight baseState) = .ok (some s))
      (hexec : (M.storage genesis).exec n.storage (.inl (i, .drop)) = some storage) :
      StakerStep n .skip { n with storage := storage, round := .reading .start }
  | crash (e : StakerEvent) : StakerStep n e n.crash

variable {M genesis cfg}

theorem skipRound_cases {n n' : Node Sealed Unsealed} {baseState : Sealed} {call : Option Nat}
    (hround : n.round.racing = some (baseState, call))
    (h : M.skipRound genesis n baseState call = some n') : M.StakerStep genesis cfg n .skip n' := by
  unfold skipRound at h
  split at h
  · cases h
    exact .crash _
  · cases h
  · next hs =>
    cases call with
    | none =>
      cases h
      exact .skip hround hs
    | some i =>
      obtain ⟨storage, hexec, rfl⟩ := Option.map_eq_some_iff.mp h
      exact .skipCall hround hs hexec

theorem stakerStep_cases {e : StakerEvent} {n n' : Node Sealed Unsealed}
    (h : M.stakerStep genesis cfg e n = some n') :
    n.storage.shared.crashed = false ∧ M.StakerStep genesis cfg n e n' := by
  unfold stakerStep at h
  dsimp only at h
  split at h
  · cases h
  · next hcrash =>
    refine ⟨by simpa using hcrash, ?_⟩
    split at h
    · next hround =>
      cases h
      exact .listen _ hround
    · next hround =>
      obtain ⟨⟨sh, r⟩, hr, rfl⟩ := Option.map_eq_some_iff.mp h
      exact .read _ hround (readStep_cases hr)
    · next hround =>
      cases h
      exact .wait hround
    · next hround =>
      split at h
      · next hne =>
        cases h
        exact .mismatch hround hne
      · next heq =>
        cases h
        exact .propose hround (not_not.mp heq)
    · next hround =>
      obtain ⟨storage, hexec, rfl⟩ := Option.map_eq_some_iff.mp h
      exact .rebase hround hexec
    · next hround =>
      split at h
      · next hverify =>
        cases h
        exact .decide hround hverify
      · cases h
    · next hround =>
      cases h
      exact .merge _ hround
    · next hround =>
      split at h
      · cases h
        exact .crash _
      · cases h
      · next hproof =>
        obtain ⟨storage, hexec, rfl⟩ := Option.map_eq_some_iff.mp h
        exact .submit _ hround hproof hexec
    · next hround =>
      split at h
      · next hcall =>
        cases h
        exact .finishOk hround hcall
      · next hcall =>
        cases h
        exact .finishErr hround hcall
      · cases h
    · next hround =>
      split at h
      · next hrace => exact skipRound_cases hrace h
      · cases h
    · cases h

end Melstf

end Melnode
