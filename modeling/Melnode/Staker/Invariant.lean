import Melnode.Staker.Round

/-!
# What holds of a node's staker

A step of the node is a step of the storage and its calls, or none (`nodeStep_storage`), so a node's
storage runs as a storage does. On top of that the base state of a round is the state of a stored
height, a decision is a block the state transition accepts on it, and the call of a round carries
the decision.
-/

namespace Melnode

open Lib

namespace Melstf

variable {Sealed Unsealed : Type} {M : Melstf Sealed Unsealed} {genesis : GenesisConfig}
  {cfg : StakerConfig} {n n' : Node Sealed Unsealed}

/-! ## The storage of a node -/

/-- The steps of the storage behind the steps of a node. -/
inductive Touches (n : Node Sealed Unsealed) :
    NodeEvent Sealed → (Nat × CallEvent) ⊕ StorageEvent Sealed → Prop where
  | storage {label : (Nat × CallEvent) ⊕ StorageEvent Sealed} (h : n.round.leaves label = true) :
      Touches n (.storage label) label
  | fetch (cached : Bool) (h : Nat) : Touches n (.staker (.read cached)) (.inr (.fetch h))
  | kill (e : StakerEvent) : Touches n (.staker e) (.inr .kill)
  | rebase {baseState : Sealed} (hround : n.round = .mismatch baseState) :
      Touches n (.staker .rebase) (.inr (.rebaseMempool baseState))
  | submit (i : Nat) (blk : Block) (cproof : ConsensusProof) :
      Touches n (.staker (.submit i)) (.inl (i, .invoke blk cproof))
  | skip {baseState : Sealed} {i : Nat} (hround : n.round.racing = some (baseState, some i)) :
      Touches n (.staker .skip) (.inl (i, .drop))

theorem exec_fetch {c : Procs.Config Nat (Shared Unsealed) (Call Sealed)} {h : Nat} {blk : Block}
    (hcrash : c.shared.crashed = false) (hblk : c.shared.db.block? h = some blk) :
    (M.storage genesis).exec c (.inr (.fetch h)) =
      some { c with shared := { c.shared with fetched := (h, blk) :: c.shared.fetched } } := by
  refine Procs.exec_env.mpr ⟨_, ?_, rfl⟩
  show M.storageStep genesis (.fetch h) c.shared = _
  simp [storageStep, hcrash, hblk]

theorem exec_kill {c : Procs.Config Nat (Shared Unsealed) (Call Sealed)} :
    (M.storage genesis).exec c (.inr .kill) =
      some { c with shared := { c.shared with crashed := true } } :=
  Procs.exec_env.mpr ⟨_, rfl, rfl⟩

/-- A step of the storage leaves the rest of the node alone. -/
theorem nodeStep_storage_eq {label : (Nat × CallEvent) ⊕ StorageEvent Sealed}
    (h : M.nodeStep genesis cfg n (.storage label) = some n') :
    n.round.leaves label = true ∧ ∃ storage, (M.storage genesis).exec n.storage label = some storage ∧
      n' = { n with storage := storage } := by
  unfold nodeStep at h
  dsimp only at h
  split at h
  · next hleaves =>
    obtain ⟨storage, hexec, rfl⟩ := Option.map_eq_some_iff.mp h
    exact ⟨hleaves, storage, hexec, rfl⟩
  · cases h

/-- **A step of the node is a step of its storage, or none.** -/
theorem nodeStep_storage {e : NodeEvent Sealed} (h : M.nodeStep genesis cfg n e = some n') :
    n'.storage = n.storage ∨ ∃ label, Touches n e label ∧
      (M.storage genesis).exec n.storage label = some n'.storage := by
  cases e with
  | storage label =>
    obtain ⟨hleaves, storage, hexec, rfl⟩ := nodeStep_storage_eq h
    exact Or.inr ⟨label, .storage hleaves, hexec⟩
  | staker e =>
    obtain ⟨hcrash, hstep⟩ := stakerStep_cases h
    cases hstep with
    | listen => exact Or.inl rfl
    | read cached _ hr =>
      cases hr with
      | height => exact Or.inl rfl
      | genesis => exact Or.inl rfl
      | cached => exact Or.inl rfl
      | fetched h0 hblk => exact Or.inr ⟨_, .fetch cached _, exec_fetch hcrash hblk⟩
      | missing => exact Or.inr ⟨_, .kill _, exec_kill⟩
      | rebuilt => exact Or.inl rfl
      | mismatch => exact Or.inr ⟨_, .kill _, exec_kill⟩
    | wait => exact Or.inl rfl
    | mismatch => exact Or.inl rfl
    | propose => exact Or.inl rfl
    | rebase hround hexec => exact Or.inr ⟨_, .rebase hround, hexec⟩
    | decide => exact Or.inl rfl
    | merge => exact Or.inl rfl
    | submit i _ _ hexec => exact Or.inr ⟨_, .submit i _ _, hexec⟩
    | finishOk => exact Or.inl rfl
    | finishErr => exact Or.inl rfl
    | skip => exact Or.inl rfl
    | skipCall hround _ hexec => exact Or.inr ⟨_, .skip hround, hexec⟩
    | crash e => exact Or.inr ⟨_, .kill e, exec_kill⟩

/-- The storage of a node runs as a storage does; a condition on the steps of the node that implies
one on the steps of the storage carries over. -/
theorem node_storage {good : Node Sealed Unsealed → NodeEvent Sealed → Prop}
    {goodStorage : Procs.Config Nat (Shared Unsealed) (Call Sealed) →
      (Nat × CallEvent) ⊕ StorageEvent Sealed → Prop}
    {opened : Shared Unsealed → Prop}
    (h : ((M.node genesis cfg).guard good).Reaches n n')
    (hgood : ∀ t e label, ((M.node genesis cfg).guard good).Reaches n t → good t e →
      Touches t e label → goodStorage t.storage label) :
    ((M.storageFrom genesis opened).lts.guard goodStorage).Reaches n.storage n'.storage := by
  induction h with
  | refl => exact Lts.Reaches.refl _
  | tail hrun hnext ih =>
    obtain ⟨e, hg, hstep⟩ := hnext
    rcases nodeStep_storage hstep with heq | ⟨label, htouch, hexec⟩
    · rw [heq]
      exact ih
    · exact ih.tail (e := label) ⟨hgood _ _ _ hrun hg htouch, hexec⟩

/-- A storage on some chain that nobody uses. -/
def StorageOpened (M : Melstf Sealed Unsealed) (genesis : GenesisConfig) (sh : Shared Unsealed) :
    Prop :=
  M.SharedOk genesis sh ∧ sh.lock = none

theorem NodeOpened.storage_init (h : M.NodeOpened genesis n) {opened : Shared Unsealed → Prop}
    (hopened : opened n.storage.shared) :
    (M.storageFrom genesis opened).lts.init n.storage :=
  ⟨hopened, h.calls⟩

theorem node_storage_reachable (hn : (M.node genesis cfg).Reachable n) :
    (M.storageFrom genesis (M.StorageOpened genesis)).lts.Reachable n.storage := by
  obtain ⟨n₀, hinit, hrun⟩ := hn
  refine ⟨n₀.storage, hinit.storage_init ⟨hinit.shared, hinit.lock⟩, ?_⟩
  exact (hrun.map (f := Node.storage) fun t e t' hstep =>
    (nodeStep_storage hstep).imp_right fun ⟨label, _, hexec⟩ => ⟨label, hexec⟩)

/-! ## The round -/

/-- What is known of the round by where it is. -/
def RoundOk (M : Melstf Sealed Unsealed) (genesis : GenesisConfig) (db : Tables) :
    Round Sealed → Prop
  | .listening => True
  | .reading r => M.ReadingOk genesis db r
  | .waiting baseState => M.ReadingOk genesis db (.done baseState)
  | .mismatch baseState => M.ReadingOk genesis db (.done baseState)
  | .deciding baseState _ => M.ReadingOk genesis db (.done baseState)
  | .gathering baseState decision =>
    M.ReadingOk genesis db (.done baseState) ∧ M.verifyProposal baseState decision = true
  | .applying baseState decision _ =>
    M.ReadingOk genesis db (.done baseState) ∧ M.verifyProposal baseState decision = true

theorem RoundOk.grows {db db' : Tables} {round : Round Sealed} (h : M.RoundOk genesis db round)
    (hG : db.IsPrefix db') : M.RoundOk genesis db' round := by
  cases round with
  | listening => trivial
  | reading r => exact ReadingOk.grows h hG
  | waiting baseState => exact ReadingOk.grows (r := .done baseState) h hG
  | mismatch baseState => exact ReadingOk.grows (r := .done baseState) h hG
  | deciding baseState proposal => exact ReadingOk.grows (r := .done baseState) h hG
  | gathering baseState decision => exact ⟨ReadingOk.grows h.1 hG, h.2⟩
  | applying baseState decision call => exact ⟨ReadingOk.grows h.1 hG, h.2⟩

/-- The call of a round carries the decision. -/
def OwnCall (n : Node Sealed Unsealed) : Prop :=
  ∀ baseState decision i, n.round = .applying baseState decision i →
    ∃ cproof phase, n.storage.procs i = .made decision cproof phase

structure NodeOk (M : Melstf Sealed Unsealed) (genesis : GenesisConfig)
    (n : Node Sealed Unsealed) : Prop where
  shared : M.SharedOk genesis n.storage.shared
  calls : ∀ i, M.CallOk genesis n.storage.shared i (n.storage.procs i)
  round : M.RoundOk genesis n.storage.shared.db n.round
  own : OwnCall n

theorem verifyProposal_iff {baseState : Sealed} {blk : Block} :
    M.verifyProposal baseState blk = true ↔ ∃ s, M.applyBlock baseState blk = .ok s := by
  unfold verifyProposal
  cases M.applyBlock baseState blk with
  | ok s => simp [Except.isOk, Except.toBool]
  | error e => simp [Except.isOk, Except.toBool]

/-- The call that `submit` makes. -/
theorem submit_call {c c' : Procs.Config Nat (Shared Unsealed) (Call Sealed)} {i : Nat}
    {blk : Block} {cproof : ConsensusProof}
    (hexec : (M.storage genesis).exec c (.inl (i, .invoke blk cproof)) = some c') :
    c'.procs i = .made blk cproof .waiting := by
  obtain ⟨s', l', hinvoke, rfl⟩ := Procs.exec_proc.mp hexec
  obtain ⟨-, hcases⟩ := callStep_cases hinvoke
  show Function.update c.procs i l' i = _
  rw [Function.update_self]
  generalize c.procs i = call at hcases
  cases hcases
  rfl

theorem leaves_ne_reopen {round : Round Sealed} {label : (Nat × CallEvent) ⊕ StorageEvent Sealed}
    (h : round.leaves label = true) : label ≠ .inr .reopen := by
  rintro rfl
  cases h

/-- The base state of a racing round. -/
theorem RoundOk.racing {db : Tables} {round : Round Sealed} (h : M.RoundOk genesis db round)
    {baseState : Sealed} {call : Option Nat} (hr : round.racing = some (baseState, call)) :
    M.ReadingOk genesis db (.done baseState) := by
  cases round with
  | deciding base proposal =>
    cases hr
    exact h
  | gathering base decision =>
    cases hr
    exact h.1
  | applying base decision i =>
    cases hr
    exact h.1
  | _ => cases hr

/-- One step of the staker, while its storage is in order. -/
theorem StakerStep.ok {e : StakerEvent}
    (hok : M.NodeOk genesis n) (hstep : M.StakerStep genesis cfg n e n')
    (hG : n.storage.shared.db.IsPrefix n'.storage.shared.db) :
    M.RoundOk genesis n'.storage.shared.db n'.round ∧ OwnCall n' := by
  have hround := hok.round
  cases hstep with
  | listen ok _ => cases ok <;> exact ⟨trivial, nofun⟩
  | read _ heq hr =>
    rw [heq] at hround
    exact ⟨(hr.ok hok.shared hround).2.1, nofun⟩
  | wait heq =>
    rw [heq] at hround
    exact ⟨hround, nofun⟩
  | mismatch heq _ =>
    rw [heq] at hround
    exact ⟨hround, nofun⟩
  | propose heq _ =>
    rw [heq] at hround
    exact ⟨hround, nofun⟩
  | rebase => exact ⟨trivial, nofun⟩
  | decide heq hverify =>
    rw [heq] at hround
    exact ⟨⟨hround, hverify⟩, nofun⟩
  | merge _ heq => exact ⟨hround, hok.own⟩
  | @submit base d cproof i storage heq hproof hexec =>
    rw [heq] at hround
    have hsame : M.RoundOk genesis n.storage.shared.db (.applying base d i) := hround
    refine ⟨hsame.grows hG, ?_⟩
    intro baseState decision j hj
    cases hj
    exact ⟨cproof, .waiting, submit_call hexec⟩
  | finishOk => exact ⟨trivial, nofun⟩
  | finishErr => exact ⟨trivial, nofun⟩
  | skip => exact ⟨trivial, nofun⟩
  | skipCall => exact ⟨trivial, nofun⟩
  | crash e => exact ⟨hround, hok.own⟩

/-- A step of the node only adds blocks. -/
theorem nodeStep_isPrefix (hB : M.BuildsStates) (hok : M.NodeOk genesis n) {e : NodeEvent Sealed}
    (h : M.nodeStep genesis cfg n e = some n') :
    n.storage.shared.db.IsPrefix n'.storage.shared.db := by
  rcases nodeStep_storage h with heq | ⟨label, -, hexec⟩
  · rw [heq]
    exact (hok.shared.chain.wellFormed hB).isPrefix_refl
  · exact (exec_ok hB hok.shared hok.calls hexec).2.2.db

/-- **The invariant of a node.** -/
theorem node_reachable (hB : M.BuildsStates) (hn : (M.node genesis cfg).Reachable n) :
    M.NodeOk genesis n := by
  have hstorage : ∀ {t}, (M.node genesis cfg).Reachable t →
      M.SharedOk genesis t.storage.shared ∧ ∀ i, M.CallOk genesis t.storage.shared i (t.storage.procs i) :=
    fun ht => storageFrom_reachable hB (fun _ h => h.1) (node_storage_reachable ht)
  refine hn.invariant_of_reachable (I := M.NodeOk genesis) ?_ ?_
  · intro t ht
    obtain ⟨hshared, hcalls⟩ := hstorage (Lts.Reachable.init ht)
    refine ⟨hshared, hcalls, ?_, ?_⟩
    · rw [ht.round]
      trivial
    · intro baseState decision i hi
      rw [ht.round] at hi
      cases hi
  · intro t e t' ht hok hstep
    obtain ⟨hshared, hcalls⟩ := hstorage (ht.tail hstep)
    have hG := nodeStep_isPrefix hB hok hstep
    cases e with
    | staker e =>
      obtain ⟨-, hcases⟩ := stakerStep_cases hstep
      obtain ⟨hround, hown⟩ := hcases.ok hok hG
      exact ⟨hshared, hcalls, hround, hown⟩
    | storage label =>
      obtain ⟨hleaves, storage, hexec, rfl⟩ := nodeStep_storage_eq hstep
      refine ⟨hshared, hcalls, hok.round.grows hG, ?_⟩
      intro baseState decision i hi
      obtain ⟨cproof, phase, hcall⟩ := hok.own baseState decision i hi
      obtain ⟨phase', hcall'⟩ := exec_made hexec hcall
      exact ⟨cproof, phase', hcall'⟩

end Melstf

/-! ## A node of the three-staker network -/

namespace Ledger

/-- The staker with key 1. -/
def staker : StakerConfig where
  publicKey := 1
  sign := sign 1
  payoutAddr := 0
  targetFeeMultiplier := 1000

/-- The three-staker network before its first block, the mempool on top of the genesis state. -/
def nodeStart : Node Sealed Unsealed where
  storage :=
    { shared :=
        { ledger.openStorage threeStakers Tables.fresh ∅ with
          mempool := Mempool.rebase ledger (ledger.genesisState threeStakers) }
      procs := fun _ => .idle }
  round := .listening
  sigGather := ∅
  signed := []
  failed := []

/-- The staker reads the genesis state as its base. -/
def readGenesis : List (NodeEvent Sealed) :=
  [.staker (.listen true), .staker (.read false), .staker (.read false), .staker .wait]

/-- Block sync commits the first block. -/
def syncFirst : List (NodeEvent Sealed) :=
  (Melstf.soloCall 0 0 (firstBlock 1) (proofBy [1, 2, 3] (firstBlock 1))).map .storage

/-- A round from the genesis state that decides a block and gathers the signatures of keys 2 and 3,
up to the call. -/
def roundOn (blk : Block) (call : Nat) : List (NodeEvent Sealed) :=
  [.staker (.read false), .staker (.read false), .staker .wait, .staker .propose,
    .staker (.decide blk), .staker (.merge (proofBy [2, 3] blk)), .staker (.submit call)]

/-- The node after some steps. -/
def nodeAfter (events : List (NodeEvent Sealed)) : Node Sealed Unsealed :=
  (Lts.run (ledger.nodeStep threeStakers staker) nodeStart events).getD nodeStart

theorem nodeAfter_reaches {events : List (NodeEvent Sealed)}
    (h : (Lts.run (ledger.nodeStep threeStakers staker) nodeStart events).isSome) :
    (ledger.node threeStakers staker).Reaches nodeStart (nodeAfter events) :=
  Lts.reaches_end h

theorem nodeAfter_run {events : List (NodeEvent Sealed)}
    (h : (Lts.run (ledger.nodeStep threeStakers staker) nodeStart events).isSome) :
    Lts.run (ledger.nodeStep threeStakers staker) nodeStart events = some (nodeAfter events) := by
  obtain ⟨n, hn⟩ := Option.isSome_iff_exists.mp h
  unfold nodeAfter
  rw [hn]
  rfl

theorem nodeAfter_guarded {good : Node Sealed Unsealed → NodeEvent Sealed → Prop}
    [∀ n e, Decidable (good n e)] {events : List (NodeEvent Sealed)}
    (h : (Lts.runGuarded (ledger.nodeStep threeStakers staker) good nodeStart events).isSome) :
    ((ledger.node threeStakers staker).guard good).Reaches nodeStart (nodeAfter events) :=
  Lts.reaches_end_guarded h

theorem nodeStart_opened : ledger.NodeOpened threeStakers nodeStart where
  shared := Melstf.SharedOk.fresh.of_same rfl rfl rfl rfl
  lock := rfl
  calls := rfl
  round := rfl
  sigGather := rfl
  signed := rfl
  failed := rfl

end Ledger

end Melnode
